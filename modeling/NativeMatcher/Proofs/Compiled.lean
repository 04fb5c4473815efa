import NativeMatcher.Proofs.Move
import NativeMatcher.Proofs.TableAddresses
import NativeMatcher.Store

/-!
# What compiled code depends on

A program is compiled in two parts: the code of its opcodes, then the routines around it.
The global mode and the bound on backtracks shape the routines only. So two compilations of
a program for the same encoding emit the same opcodes at the same code offsets, with the
same registers, whatever their *settings* are and wherever their tables are
(`NativeMatcher.Compiled.sameCode`), and a thread of the one can be followed in the other.

`NativeMatcher.Compiled` relates a matcher to what it was compiled from. It does not matter
how often its code was moved since.
-/

namespace NativeMatcher

/-- The options that shape only the routines around the opcodes. -/
structure Settings where
  /-- What happens after a match. -/
  globalMode : GlobalMode := .notGlobal
  /-- How many backtracks are allowed. -/
  backtrackLimit : Option UInt32 := none
  /-- Whether too many backtracks are reported. -/
  canFallback : Bool := false

/-- The settings that options make. -/
def Options.settings (o : Options) : Settings :=
  match o.backtrackLimit with
  | some limit => ⟨o.globalMode, some (min limit 0x7FFFFFFF), o.canFallback⟩
  | none => ⟨o.globalMode, none, false⟩

namespace Assembler

variable (s : Settings)

/-- The same assembler with other settings. -/
def withSettings (a : Assembler) : Assembler :=
  { a with
    globalMode := s.globalMode
    backtrackLimit := s.backtrackLimit
    canFallback := s.canFallback }

/-! ### Emission does not read the settings -/

theorem append_withSettings (a : Assembler) (bs : List UInt8) :
    (a.withSettings s).append bs = withSettings s <$> a.append bs := by
  simp only [append, map_bind]
  exact bind_congr fun _ => rfl

theorem bindLabel_withSettings (a : Assembler) (l : Label) :
    (a.withSettings s).bindLabel l = withSettings s <$> a.bindLabel l := by
  simp only [bindLabel, map_bind]
  refine bind_congr fun r => ?_
  exact bind_congr fun _ => rfl

/-- A branch to a label is the same code whatever the settings, with the same use recorded. -/
theorem branchTo_withSettings (a : Assembler) (b : X64.Branch) (l : Label) :
    (a.withSettings s).branchTo b l = withSettings s <$> a.branchTo b l := by
  simp only [branchTo, append_withSettings, map_bind]
  refine bind_congr fun p => ?_
  cases p with
  | some target => exact (map_bind _ _ _).symm
  | none =>
    simp only [bind_map_left, map_bind]
    refine bind_congr fun a' => ?_
    exact bind_congr fun _ => rfl

/-- So is the store of a resumption point. -/
theorem storeTarget_withSettings (a : Assembler) (l : Label) :
    (a.withSettings s).storeTarget l = withSettings s <$> a.storeTarget l := by
  simp only [storeTarget, append_withSettings, map_bind]
  refine bind_congr fun p => ?_
  cases p with
  | some target => rfl
  | none =>
    simp only [bind_map_left, map_bind]
    refine bind_congr fun a' => ?_
    exact bind_congr fun _ => rfl

/-- Placing a line of assembly commutes with the settings: the choice between its cases depends on
the line alone. -/
theorem place_withSettings (a : Assembler) (i : Assembly.Item) :
    (a.withSettings s).place i = withSettings s <$> a.place i := by
  cases i with
  | instr i => exact append_withSettings s a _
  | branch b l =>
    simp only [place]
    split
    · exact branchTo_withSettings s { a with callSites := a.callSites.push l } b l
    · exact branchTo_withSettings s a b l
  | declare => rfl
  | bind l => exact bindLabel_withSettings s a l
  | stub l =>
    simp only [place, bindLabel_withSettings, bind_map_left, map_bind]
    exact bind_congr fun a' => append_withSettings s { a' with stubs := l :: a'.stubs } _
  | storeTarget l => exact storeTarget_withSettings s a l

/-- So does placing a row of them. -/
theorem placeAll_withSettings (a : Assembler) (is : List Assembly.Item) :
    (a.withSettings s).placeAll is = withSettings s <$> a.placeAll is := by
  induction is generalizing a with
  | nil => rfl
  | cons i is ih =>
    simp only [placeAll, place_withSettings, bind_map_left, map_bind]
    exact bind_congr ih

/-- Touching registers widens the frame without regard to the settings. -/
theorem foldl_touch_withSettings (a : Assembler) (rs : List Nat) :
    rs.foldl touch (a.withSettings s) = (rs.foldl touch a).withSettings s := by
  induction rs generalizing a with
  | nil => rfl
  | cons r rs ih =>
    have htouch : touch (a.withSettings s) r = (touch a r).withSettings s := by
      simp only [touch]
      split <;> rfl
    rw [List.foldl_cons, List.foldl_cons, htouch, ih]

/-- Placing a block commutes with the settings, the tables and the error it leaves behind
included. -/
theorem placeBlock_withSettings (a : Assembler) (b : Assembly.Block) :
    (a.withSettings s).placeBlock b = withSettings s <$> a.placeBlock b := by
  simp only [placeBlock, foldl_touch_withSettings]
  cases b.error with
  | none =>
    exact placeAll_withSettings s { b.registers.foldl touch a with
      bitTables := (b.registers.foldl touch a).bitTables ++ b.bitTable.toArray
      boundaryLists := (b.registers.foldl touch a).boundaryLists ++ b.boundaryList.toArray } _
  | some e =>
    exact placeAll_withSettings s { (b.registers.foldl touch a).record e with
      bitTables := (b.registers.foldl touch a).bitTables ++ b.bitTable.toArray
      boundaryLists := (b.registers.foldl touch a).boundaryLists ++ b.boundaryList.toArray } _

/-- Lowering reads the mode, the labels and the heap of the assembler, and none of the settings. -/
theorem emitStage_withSettings (a : Assembler) (op : Opcode) :
    (a.withSettings s).emitStage op = withSettings s <$> a.emitStage op := by
  have hlabels : (a.withSettings s).labels = a.labels := rfl
  have hbound : (a.withSettings s).isBound = a.isBound := rfl
  have hmode : (a.withSettings s).mode = a.mode := rfl
  have htable : (a.withSettings s).nextTable = a.nextTable := rfl
  cases op with
  | bind l =>
    simp only [emitStage, Assembler.bind, hlabels, bindLabel_withSettings, map_bind]
    refine bind_congr fun b => ?_
    cases b <;> rfl
  | _ => simp only [emitStage, hlabels, hbound, hmode, htable, placeBlock_withSettings, map_bind]

/-- Emitting stage after stage commutes with the settings. -/
theorem emitStages_withSettings (a : Assembler) (ops : List Opcode) :
    (a.withSettings s).emitStages ops = withSettings s <$> a.emitStages ops := by
  induction ops generalizing a with
  | nil => rfl
  | cons op ops ih =>
    simp only [emitStages, emitStage_withSettings, bind_map_left, map_bind]
    exact bind_congr ih

theorem refuses_withSettings (a : Assembler) (op : Opcode) :
    (a.withSettings s).refuses op = a.refuses op := by
  cases op with
  | onChar test dest => cases test <;> rfl
  | _ => rfl

/-- Emitting an opcode commutes with the settings. What is refused is refused before anything is
emitted, whatever the settings are. -/
theorem emit_withSettings (a : Assembler) (op : Opcode) :
    (a.withSettings s).emit op = withSettings s <$> a.emit op := by
  simp only [emit, refuses_withSettings]
  split
  · rfl
  · rw [map_bind]
    exact bind_congr fun ops => emitStages_withSettings s a ops

/-! ### What emission keeps -/

/-- Two assemblers differ in the code they hold, not in what matcher they make. -/
structure SameShape (a b : Assembler) : Prop where
  /-- The encoding is the same. -/
  mode : b.mode = a.mode
  /-- There are as many registers. -/
  registers : b.registers = a.registers
  /-- As many of them are reported. -/
  saved : b.saved = a.saved
  /-- The global mode is the same. -/
  globalMode : b.globalMode = a.globalMode
  /-- The bound on backtracks is the same. -/
  backtrackLimit : b.backtrackLimit = a.backtrackLimit
  /-- Going beyond it is reported the same way. -/
  canFallback : b.canFallback = a.canFallback
  /-- The error is the same. -/
  error : b.error = a.error

theorem SameShape.refl (a : Assembler) : SameShape a a := ⟨rfl, rfl, rfl, rfl, rfl, rfl, rfl⟩

theorem SameShape.trans {a b c : Assembler} (h : SameShape a b) (h' : SameShape b c) :
    SameShape a c :=
  ⟨h'.mode.trans h.mode, h'.registers.trans h.registers, h'.saved.trans h.saved,
    h'.globalMode.trans h.globalMode, h'.backtrackLimit.trans h.backtrackLimit,
    h'.canFallback.trans h.canFallback, h'.error.trans h.error⟩

/-- A computation of two steps has a result exactly if the first has one and the second has it from
there. -/
theorem bind_eq_ok {ε α β : Type} {x : Except ε α} {f : α → Except ε β} {b : β} :
    (x >>= f) = .ok b ↔ ∃ a, x = .ok a ∧ f a = .ok b := by
  cases x with
  | error e =>
    constructor
    · intro h
      cases h
    · rintro ⟨a, h, -⟩
      cases h
  | ok a =>
    constructor
    · intro h
      exact ⟨a, rfl, h⟩
    · rintro ⟨a', h, hf⟩
      obtain rfl := Except.ok.inj h
      exact hf

theorem sameShape_append {a b : Assembler} {bs : List UInt8} (h : a.append bs = .ok b) :
    SameShape a b := by
  obtain ⟨buffer, -, hb⟩ := bind_eq_ok.mp h
  obtain rfl := Except.ok.inj hb
  exact ⟨rfl, rfl, rfl, rfl, rfl, rfl, rfl⟩

theorem sameShape_bindLabel {a b : Assembler} {l : Label} (h : a.bindLabel l = .ok b) :
    SameShape a b := by
  obtain ⟨r, -, h⟩ := bind_eq_ok.mp h
  obtain ⟨buffer, -, h⟩ := bind_eq_ok.mp h
  obtain rfl := Except.ok.inj h
  exact ⟨rfl, rfl, rfl, rfl, rfl, rfl, rfl⟩

/-- A branch adds bytes, and to a label without a place also a use. -/
theorem sameShape_branchTo {a b : Assembler} {br : X64.Branch} {l : Label}
    (h : a.branchTo br l = .ok b) : SameShape a b := by
  obtain ⟨p, -, h⟩ := bind_eq_ok.mp h
  cases p with
  | some target =>
    obtain ⟨i, -, h⟩ := bind_eq_ok.mp h
    exact sameShape_append h
  | none =>
    obtain ⟨a', ha', h⟩ := bind_eq_ok.mp h
    obtain ⟨labels, -, h⟩ := bind_eq_ok.mp h
    have hlabels : SameShape a' { a' with labels := labels } := ⟨rfl, rfl, rfl, rfl, rfl, rfl, rfl⟩
    rw [← Except.ok.inj h]
    exact (sameShape_append ha').trans hlabels

/-- The store of a code offset adds bytes and a use likewise. -/
theorem sameShape_storeTarget {a b : Assembler} {l : Label} (h : a.storeTarget l = .ok b) :
    SameShape a b := by
  obtain ⟨p, -, h⟩ := bind_eq_ok.mp h
  cases p with
  | some target => exact sameShape_append h
  | none =>
    obtain ⟨a', ha', h⟩ := bind_eq_ok.mp h
    obtain ⟨labels, -, h⟩ := bind_eq_ok.mp h
    have hlabels : SameShape a' { a' with labels := labels } := ⟨rfl, rfl, rfl, rfl, rfl, rfl, rfl⟩
    rw [← Except.ok.inj h]
    exact (sameShape_append ha').trans hlabels

/-- Whatever a line of assembly is, placing it leaves the matcher in the making as it is. -/
theorem sameShape_place {a b : Assembler} {i : Assembly.Item} (h : a.place i = .ok b) :
    SameShape a b := by
  cases i with
  | instr i => exact sameShape_append h
  | branch br l =>
    simp only [place] at h
    split at h
    · have hcall : SameShape a { a with callSites := a.callSites.push l } :=
        ⟨rfl, rfl, rfl, rfl, rfl, rfl, rfl⟩
      exact hcall.trans (sameShape_branchTo h)
    · exact sameShape_branchTo h
  | declare =>
    obtain rfl := Except.ok.inj h
    exact ⟨rfl, rfl, rfl, rfl, rfl, rfl, rfl⟩
  | bind l => exact sameShape_bindLabel h
  | stub l =>
    obtain ⟨a', ha', h⟩ := bind_eq_ok.mp h
    have hstub : SameShape a' { a' with stubs := l :: a'.stubs } :=
      ⟨rfl, rfl, rfl, rfl, rfl, rfl, rfl⟩
    exact ((sameShape_bindLabel ha').trans hstub).trans (sameShape_append h)
  | storeTarget l => exact sameShape_storeTarget h

/-- Placing a row of lines does so too. -/
theorem sameShape_placeAll {a b : Assembler} {is : List Assembly.Item}
    (h : a.placeAll is = .ok b) : SameShape a b := by
  induction is generalizing a with
  | nil =>
    obtain rfl := Except.ok.inj h
    exact .refl a
  | cons i is ih =>
    obtain ⟨a', ha', h⟩ := bind_eq_ok.mp h
    exact (sameShape_place ha').trans (ih h)

/-- A routine that is placed only if it is asked for leaves the rest alone either way. -/
theorem sameShape_placeIfLinked {a b : Assembler} {r : Assembly.Reserved}
    {items : Assembler → List Assembly.Item} (h : a.placeIfLinked r items = .ok b) :
    SameShape a b := by
  obtain ⟨linked, -, h⟩ := bind_eq_ok.mp h
  cases linked with
  | true => exact sameShape_placeAll h
  | false =>
    obtain rfl := Except.ok.inj h
    exact .refl a

/-- The fixed routines come last, and settle nothing about registers any more. -/
theorem sameShape_placeRoutines {a b : Assembler} (h : a.placeRoutines = .ok b) :
    SameShape a b := by
  obtain ⟨a₁, h₁, h⟩ := bind_eq_ok.mp h
  obtain ⟨a₂, h₂, h⟩ := bind_eq_ok.mp h
  obtain ⟨a₃, h₃, h⟩ := bind_eq_ok.mp h
  obtain ⟨a₄, h₄, h⟩ := bind_eq_ok.mp h
  obtain ⟨a₅, h₅, h⟩ := bind_eq_ok.mp h
  obtain ⟨a₆, h₆, h⟩ := bind_eq_ok.mp h
  obtain ⟨a₇, h₇, h⟩ := bind_eq_ok.mp h
  obtain ⟨a₈, h₈, h⟩ := bind_eq_ok.mp h
  have h₁₄ := (((sameShape_placeAll h₁).trans (sameShape_placeIfLinked h₂)).trans
    (sameShape_placeAll h₃)).trans (sameShape_placeIfLinked h₄)
  have h₅₈ := (((sameShape_placeIfLinked h₅).trans (sameShape_placeIfLinked h₆)).trans
    (sameShape_placeIfLinked h₇)).trans (sameShape_placeIfLinked h₈)
  exact (h₁₄.trans h₅₈).trans (sameShape_placeIfLinked h)

/-- An assembler that may finish has no error, and reports the ends of a global match. -/
theorem of_finishError?_eq_none {a : Assembler} (h : a.finishError? = none) :
    a.error = none ∧ (a.globalMode.isGlobal = true → 2 ≤ a.saved) := by
  unfold finishError? at h
  split at h
  · cases h
  · split at h
    · cases h
    · split at h
      · cases h
      · next he =>
        refine ⟨he, fun hg => ?_⟩
        rw [hg] at h
        by_cases hs : a.saved < 2
        · simp [hs] at h
        · omega

/-- Code that is handed out has the shape the assembler had. -/
theorem object_of_finish {a b : Assembler} {source : String} {o : Code.Object}
    (h : a.finish source = .ok (b, .ok o)) :
    a.finishError? = none ∧ o.mode = a.mode ∧ o.registers = a.registers ∧ o.saved = a.saved ∧
      o.globalMode = a.globalMode ∧ o.source = source := by
  unfold finish at h
  cases he : a.finishError? with
  | some e =>
    rw [he] at h
    cases h
  | none =>
    rw [he] at h
    obtain ⟨a', ha', h⟩ := bind_eq_ok.mp h
    have hs := sameShape_placeRoutines ha'
    cases hl : a'.labelError? with
    | some e =>
      rw [hl] at h
      cases h
    | none =>
      rw [hl] at h
      obtain ⟨-, rfl⟩ : _ ∧ a'.object source = o := by simpa [pure, Except.pure] using h
      exact ⟨rfl, hs.mode, hs.registers, hs.saved, hs.globalMode, rfl⟩

/-! ### The register file -/

/-- An assembler keeps its encoding and the reported registers, and an assembler without an
error has a register file within bounds. -/
structure Bounded (mode : Mode) (saved : Nat) (a : Assembler) : Prop where
  /-- The encoding. -/
  mode : a.mode = mode
  /-- How many registers a match reports. -/
  saved : a.saved = saved
  /-- The registers end at the largest one. -/
  registers : a.error = none → a.registers ≤ maxRegister + 1

variable {mode : Mode} {saved : Nat}

theorem Bounded.of_sameShape {a b : Assembler} (h : Bounded mode saved a) (hs : SameShape a b) :
    Bounded mode saved b :=
  ⟨hs.mode.trans h.mode, hs.saved.trans h.saved, fun he => by
    rw [hs.registers]
    exact h.registers (hs.error ▸ he)⟩

theorem Bounded.record {a : Assembler} (h : Bounded mode saved a) (e : CompileError) :
    Bounded mode saved (a.record e) := by
  refine ⟨h.mode, h.saved, fun he => ?_⟩
  cases ha : a.error <;> simp [Assembler.record, ha] at he

/-- A register beyond the largest one records an error instead of widening the frame. -/
theorem Bounded.touch {a : Assembler} (h : Bounded mode saved a) (reg : Nat) :
    Bounded mode saved (a.touch reg) := by
  unfold Assembler.touch
  split
  · exact h.record _
  · next hreg =>
    refine ⟨h.mode, h.saved, fun he => ?_⟩
    have := h.registers he
    simp only
    omega

theorem Bounded.foldl_touch {a : Assembler} (h : Bounded mode saved a) (rs : List Nat) :
    Bounded mode saved (rs.foldl Assembler.touch a) := by
  induction rs generalizing a with
  | nil => exact h
  | cons r rs ih => exact ih (h.touch r)

/-- A block touches its registers one by one and places its lines, which keeps the bounds. -/
theorem Bounded.placeBlock {a b : Assembler} (h : Bounded mode saved a) {bl : Assembly.Block}
    (hb : a.placeBlock bl = .ok b) : Bounded mode saved b := by
  simp only [Assembler.placeBlock] at hb
  have hs := sameShape_placeAll hb
  cases he : bl.error with
  | none =>
    rw [he] at hs
    exact (h.foldl_touch bl.registers).of_sameShape
      ⟨hs.mode, hs.registers, hs.saved, hs.globalMode, hs.backtrackLimit, hs.canFallback, hs.error⟩
  | some e =>
    rw [he] at hs
    exact ((h.foldl_touch bl.registers).record e).of_sameShape
      ⟨hs.mode, hs.registers, hs.saved, hs.globalMode, hs.backtrackLimit, hs.canFallback, hs.error⟩

/-- The bounds are kept stage by stage. -/
theorem Bounded.emitStages {a b : Assembler} (h : Bounded mode saved a) {ops : List Opcode}
    (hb : a.emitStages ops = .ok b) : Bounded mode saved b := by
  induction ops generalizing a with
  | nil =>
    obtain rfl := Except.ok.inj hb
    exact h
  | cons op ops ih =>
    obtain ⟨a', ha', hb⟩ := bind_eq_ok.mp hb
    refine ih ?_ hb
    cases op with
    | bind l =>
      obtain ⟨bound, -, ha'⟩ := bind_eq_ok.mp ha'
      cases bound with
      | true =>
        obtain rfl := Except.ok.inj ha'
        exact h.record _
      | false => exact h.of_sameShape (sameShape_bindLabel ha')
    | _ =>
      obtain ⟨bl, -, ha'⟩ := bind_eq_ok.mp ha'
      exact h.placeBlock ha'

/-- The bounds are kept by every opcode: one that is refused changes nothing, a label that is bound
touches no register, and the rest is stages. -/
theorem Bounded.emit {a b : Assembler} (h : Bounded mode saved a) {op : Opcode}
    (hb : a.emit op = .ok b) : Bounded mode saved b := by
  unfold Assembler.emit at hb
  split at hb
  · obtain rfl := Except.ok.inj hb
    exact h
  · obtain ⟨ops, -, hb⟩ := bind_eq_ok.mp hb
    exact h.emitStages hb

/-- An assembler starts without an error unless too many registers are reported. -/
theorem sameShape_new {heap : Nat → UInt64} {a : Assembler}
    (h : Assembler.new mode saved heap = .ok a) :
    SameShape { mode := mode, registers := saved, saved := saved, heap := heap
                error :=
                  if maxRegister < saved then some (.registerOutOfRange saved) else none } a := by
  have hs := sameShape_placeAll h
  split at hs
  · next hlt =>
    rw [if_pos hlt]
    exact ⟨hs.mode, hs.registers, hs.saved, hs.globalMode, hs.backtrackLimit, hs.canFallback,
      hs.error⟩
  · next hlt =>
    rw [if_neg hlt]
    exact ⟨hs.mode, hs.registers, hs.saved, hs.globalMode, hs.backtrackLimit, hs.canFallback,
      hs.error⟩

theorem bounded_new {heap : Nat → UInt64} {a : Assembler}
    (h : Assembler.new mode saved heap = .ok a) : Bounded mode saved a := by
  refine Bounded.of_sameShape ⟨rfl, rfl, fun he => ?_⟩ (sameShape_new h)
  have hsaved : ¬maxRegister < saved := by simpa using he
  simp only
  omega

end Assembler

namespace Compilation

variable (s : Settings)

/-- The same compilation with other settings. -/
def withSettings (c : Compilation) : Compilation :=
  { c with assembler := c.assembler.withSettings s }

/-- Compiling an opcode commutes with the settings: its checks look at the program and at what is
bound, not at the options. -/
theorem step_withSettings (p : Program) (c : Compilation) (op : Opcode) :
    (c.withSettings s).step p op = withSettings s <$> c.step p op := by
  have herror : p.opcodeError? (c.withSettings s).assembler.mode (c.withSettings s).bound op =
      p.opcodeError? c.assembler.mode c.bound op := rfl
  have hemit : (c.withSettings s).mark.assembler.emit (op.mapLabels Label.shifted) =
      Assembler.withSettings s <$> c.assembler.emit (op.mapLabels Label.shifted) :=
    Assembler.emit_withSettings s c.assembler _
  simp only [step, herror]
  cases p.opcodeError? c.assembler.mode c.bound op with
  | some e => rfl
  | none =>
    simp only [hemit]
    have hmark : c.mark.assembler = c.assembler := rfl
    rw [hmark]
    cases c.assembler.emit (op.mapLabels Label.shifted) <;> rfl

/-- So does compiling a row of opcodes. -/
theorem steps_withSettings (p : Program) (c : Compilation) (ops : List Opcode) :
    (c.withSettings s).steps p ops = withSettings s <$> c.steps p ops := by
  induction ops generalizing c with
  | nil => rfl
  | cons op ops ih =>
    simp only [steps, step_withSettings, bind_map_left, map_bind]
    exact bind_congr ih

/-- Where a compilation starts, the options matter through the mode and the settings only. This is
what lets programs that are compiled for different global modes or limits share one body. -/
theorem start_eq (p : Program) (o : Options) (heap : Nat → UInt64) :
    start p o heap = withSettings o.settings <$> start p { mode := o.mode } heap := by
  simp only [start]
  cases hnew : Assembler.new o.mode p.saved heap with
  | error f => rfl
  | ok a =>
    have hs := Assembler.sameShape_new hnew
    obtain ⟨buffer, labels, mode, registers, saved, globalMode, limit, fallback⟩ := a
    obtain rfl : limit = none := hs.backtrackLimit
    obtain rfl : fallback = false := hs.canFallback
    cases hl : o.backtrackLimit <;> simp only [Options.settings, hl] <;> rfl

end Compilation

/-- The code of a program's opcodes, with the settings left open. -/
def Program.body (p : Program) (mode : Mode) (heap : Nat → UInt64) :
    Except CompileFailure Compilation := do
  let c ← Compilation.start p { mode := mode } heap
  c.steps p p.opcodes.toList

/-- A program is compiled by emitting its opcodes, then the routines for its settings. -/
theorem Program.compile_eq (p : Program) (o : Options) (source : String) (heap : Nat → UInt64) :
    p.compile o source heap = (do
      let c ← p.body o.mode heap
      let (_, result) ← Compilation.orFault ((c.assembler.withSettings o.settings).finish source)
      match result with
      | .ok object => return { object := object, program := p, options := o, offsets := c.offsets }
      | .error e => throw (.error e)) := by
  simp only [compile, body, Compilation.start_eq p o, bind_map_left,
    Compilation.steps_withSettings, bind_assoc]
  rfl

/-- The code of the opcodes is the same wherever the tables are, up to their addresses. -/
theorem Program.body_elsewhere (p : Program) (mode : Mode) (heap heap' : Nat → UInt64) :
    Alike id Compilation.Elsewhere (p.body mode heap) (p.body mode heap') :=
  (Compilation.start_elsewhere p { mode := mode } heap heap').bind fun _ _ hc => hc.steps p _

namespace Compilation

theorem eq_ok_of_orFault {α : Type} {x : Except Fault α} {y : α} (h : orFault x = .ok y) :
    x = .ok y := by
  cases x with
  | error f => cases h
  | ok v => exact congrArg Except.ok (Except.ok.inj h)

/-- An opcode that is dealt with has passed its check, its start is noted and its code emitted. -/
theorem step_eq_ok {p : Program} {c d : Compilation} {op : Opcode} (h : c.step p op = .ok d) :
    p.opcodeError? c.assembler.mode c.bound op = none ∧
      d.offsets = c.offsets.push c.assembler.buffer.size ∧
      c.assembler.emit (op.mapLabels Label.shifted) = .ok d.assembler := by
  unfold step at h
  split at h
  · cases h
  · next hnone =>
    obtain ⟨a, ha, h⟩ := Assembler.bind_eq_ok.mp h
    obtain rfl := Except.ok.inj h
    exact ⟨hnone, rfl, eq_ok_of_orFault ha⟩

end Compilation

/-- A program that has code was dealt with opcode by opcode, and the assembler then gave the
code. -/
theorem Program.compile_eq_ok {p : Program} {o : Options} {source : String}
    {heap : Nat → UInt64} {m : Matcher} (h : p.compile o source heap = .ok m) :
    ∃ c d a, Compilation.start p o heap = .ok c ∧ c.steps p p.opcodes.toList = .ok d ∧
      d.assembler.finish source = .ok (a, .ok m.object) ∧ m.offsets = d.offsets := by
  obtain ⟨c, hc, h⟩ := Assembler.bind_eq_ok.mp h
  obtain ⟨d, hd, h⟩ := Assembler.bind_eq_ok.mp h
  obtain ⟨⟨a, result⟩, hf, h⟩ := Assembler.bind_eq_ok.mp h
  cases result with
  | error e => cases h
  | ok object =>
    obtain rfl := Except.ok.inj h
    exact ⟨c, d, a, hc, hd, Compilation.eq_ok_of_orFault hf, rfl⟩

/-- The opcodes of a program make a register file within bounds. -/
theorem Program.bounded_body {p : Program} {mode : Mode} {heap : Nat → UInt64} {c : Compilation}
    (h : p.body mode heap = .ok c) : c.assembler.Bounded mode p.saved := by
  have hsteps : ∀ (ops : List Opcode) (c c' : Compilation), c.assembler.Bounded mode p.saved →
      c.steps p ops = .ok c' → c'.assembler.Bounded mode p.saved := by
    intro ops
    induction ops with
    | nil =>
      intro c c' hc h
      obtain rfl := Except.ok.inj h
      exact hc
    | cons op ops ih =>
      intro c c' hc h
      obtain ⟨d, hd, h⟩ := Assembler.bind_eq_ok.mp h
      exact ih d c' (hc.emit (Compilation.step_eq_ok hd).2.2) h
  obtain ⟨c₀, h₀, h⟩ := Assembler.bind_eq_ok.mp h
  refine hsteps _ c₀ c ?_ h
  obtain ⟨a, ha, h₀⟩ := Assembler.bind_eq_ok.mp h₀
  obtain rfl := Except.ok.inj h₀
  have hb := Assembler.bounded_new (Compilation.eq_ok_of_orFault ha)
  exact ⟨hb.mode, hb.saved, hb.registers⟩

/-! ### Compiled programs -/

/-- A matcher was compiled from a program with options for a source, its tables somewhere on the
heap; its code may have been moved since. -/
inductive Compiled (p : Program) (o : Options) (source : String) : Matcher → Prop
  /-- It was compiled. -/
  | fresh {heap : Nat → UInt64} {m : Matcher} : p.compile o source heap = .ok m →
    Compiled p o source m
  /-- Its code was moved. -/
  | moved {m : Matcher} : Compiled p o source m → Compiled p o source m.relocated

namespace Compiled

variable {p : Program} {o : Options} {source : String} {m : Matcher}

/-- What a compiled program keeps of its request, and of the code of the opcodes. -/
structure Shape (p : Program) (o : Options) (source : String) (c : Compilation) (m : Matcher) :
    Prop where
  /-- The opcodes were emitted. -/
  body : ∃ heap, p.body o.mode heap = .ok c
  /-- They raised no error. -/
  noError : c.assembler.error = none
  /-- The program. -/
  program : m.program = p
  /-- The options. -/
  options : m.options = o
  /-- The code offsets of the opcodes. -/
  offsets : m.offsets = c.offsets
  /-- The registers. -/
  registers : m.object.registers = c.assembler.registers
  /-- The reported registers. -/
  saved : m.object.saved = p.saved
  /-- The encoding. -/
  mode : m.object.mode = o.mode
  /-- The global mode. -/
  globalMode : m.object.globalMode = o.globalMode
  /-- The source. -/
  source : m.object.source = source
  /-- A global match reports its ends. -/
  two_le_saved : o.globalMode.isGlobal = true → 2 ≤ p.saved

theorem globalMode_settings (o : Options) : o.settings.globalMode = o.globalMode := by
  unfold Options.settings
  split <;> rfl

/-- What compiling gives is read off the body of the program: mode, registers and offsets come from
it, the settings from the options. -/
theorem shape_of_compile {heap : Nat → UInt64} (h : p.compile o source heap = .ok m) :
    ∃ c, Shape p o source c m := by
  rw [Program.compile_eq] at h
  obtain ⟨c, hc, h⟩ := Assembler.bind_eq_ok.mp h
  obtain ⟨⟨a, result⟩, hf, h⟩ := Assembler.bind_eq_ok.mp h
  cases result with
  | error e => cases h
  | ok object =>
    obtain rfl := Except.ok.inj h
    obtain ⟨hnone, hmode, hregs, hsaved, hglobal, hsource⟩ :=
      Assembler.object_of_finish (Compilation.eq_ok_of_orFault hf)
    have hb := Program.bounded_body hc
    obtain ⟨herror, htwo⟩ := Assembler.of_finishError?_eq_none hnone
    refine ⟨c, ⟨heap, hc⟩, herror, rfl, rfl, rfl, hregs, hsaved.trans hb.saved, hmode.trans hb.mode,
      hglobal.trans (globalMode_settings o), hsource, fun hg => ?_⟩
    rw [← hb.saved]
    refine htwo ?_
    rw [← hg, ← globalMode_settings o]
    rfl

/-- A program that was compiled at some time and moved since has the shape that compiling gave
it. -/
theorem shape (h : Compiled p o source m) : ∃ c, Shape p o source c m := by
  induction h with
  | fresh h => exact shape_of_compile h
  | moved _ ih =>
    obtain ⟨c, hs⟩ := ih
    exact ⟨c, hs.body, hs.noError, hs.program, hs.options, hs.offsets, hs.registers, hs.saved,
      hs.mode, hs.globalMode, hs.source, hs.two_le_saved⟩

/-- The register file of a compiled program has a bound. -/
theorem registers_le (h : Compiled p o source m) : m.object.registers ≤ maxRegister + 1 := by
  obtain ⟨c, hs⟩ := h.shape
  obtain ⟨heap, hbody⟩ := hs.body
  rw [hs.registers]
  exact (Program.bounded_body hbody).registers hs.noError

/-- **Two compilations of a program for the same encoding have the same code**, whatever their
settings and sources are and wherever their tables are, up to the addresses of these. -/
theorem sameCode {o' : Options} {source' : String} {m' : Matcher} (h : Compiled p o source m)
    (h' : Compiled p o' source' m') (hmode : o.mode = o'.mode) (subject : Subject)
    (origin origin' : CallOrigin) :
    (Task.ofMatcher m subject origin).SameCode (Task.ofMatcher m' subject origin') := by
  obtain ⟨c, hs⟩ := h.shape
  obtain ⟨c', hs'⟩ := h'.shape
  obtain ⟨heap, hbody⟩ := hs.body
  obtain ⟨heap', hbody'⟩ := hs'.body
  -- The settings come in only after the opcodes are emitted.
  have hc : c.Elsewhere c' := by
    have halike := p.body_elsewhere o.mode heap heap'
    rw [hbody, hmode, hbody'] at halike
    cases halike with
    | ok hc => exact hc
  refine ⟨hs.program.trans hs'.program.symm, ?_, ?_, ?_, ?_, rfl⟩
  · exact hs.offsets.trans (hc.offsets.symm.trans hs'.offsets.symm)
  · exact hs.registers.trans (hc.assembler.registers.symm.trans hs'.registers.symm)
  · change m.options.mode = m'.options.mode
    rw [hs.options, hs'.options, hmode]
  · change m.program.places = m'.program.places
    rw [hs.program, hs'.program]

end Compiled

end NativeMatcher
