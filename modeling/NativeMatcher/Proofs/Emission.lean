import NativeMatcher.Proofs.Completion

/-!
# Emitting opcodes

An opcode whose operands are in range is emitted without a fault, as long as its labels are
declared and a label it binds has no place (`NativeMatcher.Assembler.exists_emit`). Scaled to
bytes the operands still fit 32 bits (`NativeMatcher.Opcode.InRange`), and what an opcode is
lowered to is a piece of code (`NativeMatcher.Assembly.piece_lower`).

Besides its items an opcode leaves notes. The first register beyond the largest one and the first
load of a width there is no instruction for are recorded as an error, and while there is none the
register file grows (`NativeMatcher.Assembler.Noted`). What is recorded is decided by the opcodes
alone (`NativeMatcher.Opcode.records`).
-/

namespace NativeMatcher

open Assembly Code X64

/-! ### What an opcode asks of the assembler -/

/-- The label an opcode binds. -/
def Opcode.bound? : Opcode → Option Label
  | .bind l => some l
  | _ => none

/-- The registers an opcode touches, in order. -/
def Opcode.touched : Opcode → List Nat
  | .advanceRegister reg _ | .popRegister reg | .pushRegister reg _ | .readPosition reg
  | .readStackPointer reg | .setRegister reg _ | .writePosition reg _ | .writeStackPointer reg
  | .onRegister (.ge reg _) _ | .onRegister (.lt reg _) _ | .onRegister (.eqPosition reg) _ => [reg]
  | .checkNotBackReference reg _ _ | .checkNotBackReferenceIgnoreCase reg _ _ _ => [reg, reg + 1]
  | .clearRegisters first last => List.range' first (last + 1 - first)
  | _ => []

/-- What a register beyond the largest one makes the assembler record. -/
def registerReports (reg : Nat) : List CompileError :=
  if 65535 < reg then [.registerOutOfRange reg] else []

/-- What the width of a load makes the assembler record: one, two or four bytes can be loaded at
once. -/
def Opcode.widthReports (mode : Mode) : Opcode → List CompileError
  | .load _ _ _ count =>
    if mode.charSize * count ∈ [1, 2, 4] then [] else [.unsupported (.loadWidth count mode)]
  | _ => []

/-- What an opcode makes the assembler record. -/
def Opcode.records (mode : Mode) (op : Opcode) : List CompileError :=
  op.touched.flatMap registerReports ++ op.widthReports mode

/-! ### Operands -/

/-- A number of characters whose bytes can be counted in 32 bits, with room to spare. -/
def InReach (n : Int32) : Prop := -2 ^ 29 < n.toInt ∧ n.toInt < 2 ^ 29

instance (n : Int32) : Decidable (InReach n) := inferInstanceAs (Decidable (_ ∧ _))

/-- The operands of an opcode are in range. -/
def Opcode.InRange : Opcode → Prop
  | .advance n | .setPositionFromEnd n | .writePosition _ n
  | .onPlace (.atStart n) _ | .onPlace (.notAtStart n) _ | .onPlace (.outside n) _ => InReach n
  | .load n _ _ count => InReach n ∧ count < 2 ^ 29
  | .checkNotBackReference reg _ _ | .checkNotBackReferenceIgnoreCase reg _ _ _ => reg < 2 ^ 64 - 1
  | _ => True

/-! ### Lowering does not fault -/

namespace Assembly

theorem exists_word {op : WordOp} {x : Int} (h : -2147483648 ≤ x ∧ x ≤ 2147483647) :
    ∃ w, Checked.word op x = .ok w ∧ w.toInt = x := by
  refine ⟨Int32.ofInt x, Checked.word_eq_ok_iff.mpr ⟨h, rfl⟩, ?_⟩
  exact Int32.toInt_ofInt_of_le (by omega) (by omega)

/-- Operands of up to 30 bits can be scaled, since a character has two bytes at most. -/
theorem exists_scale (mode : Mode) {n : Int32} (h : -2 ^ 30 ≤ n.toInt ∧ n.toInt < 2 ^ 30) :
    ∃ d, scale mode n = .ok d := by
  have hsize : (Int32.ofNat mode.charSize).toInt = mode.charSize := by cases mode <;> decide
  obtain ⟨d, hd, -⟩ : ∃ d, Checked.word .mul (n.toInt * mode.charSize) = .ok d ∧ _ := by
    refine exists_word ?_
    cases mode <;> simp only [Mode.charSize] <;> omega
  exact ⟨d, by rw [scale, Checked.mul, hsize, hd]⟩

theorem exists_lowerPlace_outside (mode : Mode) (dest : Target) {n : Int32}
    (h : -2 ^ 30 ≤ n.toInt ∧ n.toInt < 2 ^ 30) :
    ∃ bl, lowerPlace mode dest (.outside n) = .ok bl := by
  obtain ⟨d, hd⟩ := exists_scale mode h
  simp only [lowerPlace, hd, Bind.bind, Except.bind]
  split <;> exact ⟨_, rfl⟩

/-- Whether an opcode is lowered, wherever it stands. -/
def Lowers (op : Opcode) : Prop :=
  ∀ (mode : Mode) (next : Nat) (table : UInt64) (isBound : Label → Bool),
    ∃ bl, lower mode next table isBound op = .ok bl

/-- **An opcode with operands in range is lowered.** The operands are scaled without overflow,
case by case: those of the other opcodes are registers and labels, which lowering does not
compute with. -/
theorem lowers_of_inRange {op : Opcode} (h : op.InRange) : Lowers op := by
  intro mode next table isBound
  cases op with
  | advance n =>
    obtain ⟨hlow, hhigh⟩ : InReach n := h
    obtain ⟨d, hd⟩ := exists_scale mode (n := n) (by omega)
    simp only [lower]
    split
    · exact ⟨_, rfl⟩
    · exact ⟨_, Assembler.bind_eq_ok.mpr ⟨d, hd, rfl⟩⟩
  | onPlace test dest =>
    cases test with
    | outside n =>
      obtain ⟨hlow, hhigh⟩ : InReach n := h
      exact exists_lowerPlace_outside mode dest (by omega)
    | atStart n | notAtStart n =>
      obtain ⟨hlow, hhigh⟩ : InReach n := h
      obtain ⟨n', hn', hvalue⟩ : ∃ w, Checked.sub n 1 = .ok w ∧ w.toInt = n.toInt - 1 :=
        exists_word (by have : (1 : Int32).toInt = 1 := rfl; omega)
      obtain ⟨d, hd⟩ := exists_scale mode (n := n') (by omega)
      exact ⟨_, Assembler.bind_eq_ok.mpr ⟨n', hn', Assembler.bind_eq_ok.mpr ⟨d, hd, rfl⟩⟩⟩
  | checkNotBackReference reg backward dest =>
    have hreg : reg < 2 ^ 64 - 1 := h
    exact ⟨_, Assembler.bind_eq_ok.mpr ⟨_, Checked.size_eq_ok_iff.mpr ⟨by omega, rfl⟩, rfl⟩⟩
  | checkNotBackReferenceIgnoreCase reg backward unicode dest =>
    have hreg : reg < 2 ^ 64 - 1 := h
    exact ⟨_, Assembler.bind_eq_ok.mpr ⟨_, Checked.size_eq_ok_iff.mpr ⟨by omega, rfl⟩, rfl⟩⟩
  | goTo dest => cases dest <;> exact ⟨_, rfl⟩
  | load n dest checked count =>
    obtain ⟨⟨hlow, hhigh⟩, -⟩ : InReach n ∧ count < 2 ^ 29 := h
    obtain ⟨d, hd⟩ := exists_scale mode (n := n) (by omega)
    simp only [lower, hd, Bind.bind, Except.bind]
    split <;> exact ⟨_, rfl⟩
  | setPositionFromEnd n =>
    obtain ⟨hlow, hhigh⟩ : InReach n := h
    obtain ⟨n', hn', hvalue⟩ : ∃ w, Checked.neg n = .ok w ∧ w.toInt = -n.toInt :=
      exists_word (by omega)
    obtain ⟨d, hd⟩ := exists_scale mode (n := n') (by omega)
    exact ⟨_, Assembler.bind_eq_ok.mpr ⟨n', hn', Assembler.bind_eq_ok.mpr ⟨d, hd, rfl⟩⟩⟩
  | writePosition reg n =>
    obtain ⟨hlow, hhigh⟩ : InReach n := h
    obtain ⟨d, hd⟩ := exists_scale mode (n := n) (by omega)
    simp only [lower]
    split
    · exact ⟨_, rfl⟩
    · exact ⟨_, Assembler.bind_eq_ok.mpr ⟨d, hd, rfl⟩⟩
  | _ => exact ⟨_, rfl⟩

/-- The last character of a load has an offset in range as well. -/
theorem exists_lastOffset {n : Int32} {count : Nat} (hn : InReach n) (hcount : count < 2 ^ 29) :
    ∃ last, lastOffset n count = .ok last ∧ -2 ^ 30 ≤ last.toInt ∧ last.toInt < 2 ^ 30 := by
  obtain ⟨hlow, hhigh⟩ := hn
  unfold lastOffset
  split
  · next hpos =>
    have hzero : 0 ≤ n.toInt := Int32.le_iff_toInt_le.mp hpos
    have hvalue : (Int32.ofNat count).toInt = count := Int32.toInt_ofNat_of_lt (by omega)
    obtain ⟨m, hm, hsum⟩ : ∃ w, Checked.add n (Int32.ofNat count) = .ok w ∧
        w.toInt = n.toInt + (Int32.ofNat count).toInt := exists_word (by omega)
    obtain ⟨last, hlast, hdiff⟩ : ∃ w, Checked.sub m 1 = .ok w ∧ w.toInt = m.toInt - 1 :=
      exists_word (by have : (1 : Int32).toInt = 1 := rfl; omega)
    exact ⟨last, Assembler.bind_eq_ok.mpr ⟨m, hm, hlast⟩, by omega, by omega⟩
  · exact ⟨n, rfl, by omega, by omega⟩

/-- The stages of an opcode with operands in range are lowered. -/
theorem exists_stages {op : Opcode} (h : op.InRange) :
    ∃ ops, stages op = .ok ops ∧ ∀ op' ∈ ops, Lowers op' := by
  have hop := lowers_of_inRange h
  cases op with
  | load n dest checked count =>
    cases checked with
    | false => exact ⟨_, rfl, by simpa using hop⟩
    | true =>
      obtain ⟨last, hlast, hreach⟩ := exists_lastOffset h.1 h.2
      refine ⟨_, Assembler.bind_eq_ok.mpr ⟨last, hlast, rfl⟩, ?_⟩
      rw [List.forall_mem_cons, List.forall_mem_singleton]
      exact ⟨fun mode _ _ _ => exists_lowerPlace_outside mode dest hreach, hop⟩
  | _ => exact ⟨_, rfl, by simpa using hop⟩

/-- There is an instruction for one, two and four bytes, and for no other number. -/
theorem loadChars?_eq_none_iff (mode : Mode) (disp : Int32) (count : Nat) :
    loadChars? mode disp count = none ↔ mode.charSize * count ∉ [1, 2, 4] := by
  rcases count with _ | _ | _ | _ | _ | n
  · cases mode <;> simp [loadChars?, Mode.charSize]
  · cases mode <;> simp [loadChars?, Mode.charSize]
  · cases mode <;> simp [loadChars?, Mode.charSize]
  · cases mode <;> simp [loadChars?, Mode.charSize]
  · cases mode <;> simp [loadChars?, Mode.charSize]
  · cases mode <;> simp [loadChars?, Mode.charSize]
    omega

/-- What the block of an opcode asks of the assembler besides bytes. These are the registers it
touches and what it reports about the width of its operands; together they make up the reports of a
program. -/
theorem notes_of_lower {mode : Mode} {next : Nat} {table : UInt64} {isBound : Label → Bool}
    {op : Opcode} {bl : Block} (h : lower mode next table isBound op = .ok bl) :
    bl.registers = op.touched ∧ bl.error.toList = op.widthReports mode := by
  cases op with
  | advance count =>
    simp only [lower] at h
    split at h
    · obtain rfl := Except.ok.inj h
      exact ⟨rfl, rfl⟩
    · obtain ⟨disp, -, h⟩ := Assembler.bind_eq_ok.mp h
      obtain rfl := Except.ok.inj h
      exact ⟨rfl, rfl⟩
  | onChar test dest =>
    obtain rfl := Except.ok.inj h
    cases test with
    | notInClass cls => cases cls <;> exact ⟨rfl, rfl⟩
    | _ => exact ⟨rfl, rfl⟩
  | onPlace test dest =>
    cases test with
    | atStart offset | notAtStart offset =>
      obtain ⟨off, -, h⟩ := Assembler.bind_eq_ok.mp h
      obtain ⟨disp, -, h⟩ := Assembler.bind_eq_ok.mp h
      obtain rfl := Except.ok.inj h
      exact ⟨rfl, rfl⟩
    | outside offset =>
      obtain ⟨disp, -, h⟩ := Assembler.bind_eq_ok.mp h
      split at h <;> obtain rfl := Except.ok.inj h <;> exact ⟨rfl, rfl⟩
  | onRegister test dest =>
    obtain rfl := Except.ok.inj h
    cases test <;> exact ⟨rfl, rfl⟩
  | checkNotBackReference reg backward dest =>
    obtain ⟨_, -, h⟩ := Assembler.bind_eq_ok.mp h
    obtain rfl := Except.ok.inj h
    exact ⟨rfl, rfl⟩
  | checkNotBackReferenceIgnoreCase reg backward unicode dest =>
    obtain ⟨_, -, h⟩ := Assembler.bind_eq_ok.mp h
    obtain rfl := Except.ok.inj h
    exact ⟨rfl, rfl⟩
  | goTo dest => cases dest <;> obtain rfl := Except.ok.inj h <;> exact ⟨rfl, rfl⟩
  | load offset dest checked count =>
    obtain ⟨disp, -, h⟩ := Assembler.bind_eq_ok.mp h
    have hwidth := loadChars?_eq_none_iff mode disp count
    split at h
    · next i hi =>
      obtain rfl := Except.ok.inj h
      have hmem : mode.charSize * count ∈ [1, 2, 4] :=
        Decidable.not_not.mp fun hnot => by
          rw [hwidth.mpr hnot] at hi
          cases hi
      exact ⟨rfl, (if_pos hmem).symm⟩
    · next hi =>
      obtain rfl := Except.ok.inj h
      exact ⟨rfl, (if_neg (hwidth.mp hi)).symm⟩
  | setPositionFromEnd count =>
    obtain ⟨neg, -, h⟩ := Assembler.bind_eq_ok.mp h
    obtain ⟨limit, -, h⟩ := Assembler.bind_eq_ok.mp h
    obtain rfl := Except.ok.inj h
    exact ⟨rfl, rfl⟩
  | writePosition reg offset =>
    simp only [lower] at h
    split at h
    · obtain rfl := Except.ok.inj h
      exact ⟨rfl, rfl⟩
    · obtain ⟨disp, -, h⟩ := Assembler.bind_eq_ok.mp h
      obtain rfl := Except.ok.inj h
      exact ⟨rfl, rfl⟩
  | _ =>
    obtain rfl := Except.ok.inj h
    exact ⟨rfl, rfl⟩

end Assembly

namespace Assembler

/-! ### What the assembler records -/

/-- An assembler has recorded the first of some errors. If there are none, its register file holds
the registers a match reports and those that were touched. -/
structure Noted (errors : List CompileError) (touched : List Nat) (saved : Nat) (a : Assembler) :
    Prop where
  /-- The first error. -/
  error : a.error = errors.head?
  /-- The number of registers. -/
  registers : errors = [] →
    a.registers = touched.foldl (fun n reg => max n (reg + 1)) saved

namespace Noted

variable {errors : List CompileError} {touched : List Nat} {saved : Nat} {a b : Assembler}

theorem of_eq (h : Noted errors touched saved a) (herror : b.error = a.error)
    (hregisters : b.registers = a.registers) : Noted errors touched saved b :=
  ⟨herror.trans h.error, fun hnil => hregisters.trans (h.registers hnil)⟩

theorem record (h : Noted errors touched saved a) (e : CompileError) :
    Noted (errors ++ [e]) touched saved (a.record e) := by
  refine ⟨?_, fun hnil => absurd hnil (by simp)⟩
  cases errors with
  | nil => simp [Assembler.record, h.error]
  | cons e' errors => simp [Assembler.record, h.error]

/-- Touching a register reports it if it is too large, and notes it otherwise. -/
theorem touch (h : Noted errors touched saved a) (reg : Nat) :
    Noted (errors ++ registerReports reg) (touched ++ [reg]) saved (a.touch reg) := by
  unfold Assembler.touch registerReports
  by_cases hreg : maxRegister < reg
  · rw [if_pos hreg, if_pos (by exact hreg)]
    have hrecord := h.record (.registerOutOfRange reg)
    exact ⟨hrecord.error, fun hnil => absurd hnil (by simp)⟩
  · rw [if_neg hreg, if_neg (by exact hreg), List.append_nil]
    refine ⟨h.error, fun hnil => ?_⟩
    simp [h.registers hnil]

theorem foldl_touch (h : Noted errors touched saved a) (regs : List Nat) :
    Noted (errors ++ regs.flatMap registerReports) (touched ++ regs) saved
      (regs.foldl Assembler.touch a) := by
  induction regs generalizing errors touched a with
  | nil => simpa using h
  | cons reg regs ih => simpa using ih (h.touch reg)

end Noted

/-! ### Emitting an opcode -/

/-- Two assemblers have the same settings, and both are or are not at their end. -/
structure SameSettings (a b : Assembler) : Prop where
  /-- The encoding is the same. -/
  mode : b.mode = a.mode
  /-- As many registers are reported. -/
  saved : b.saved = a.saved
  /-- The global mode is the same. -/
  globalMode : b.globalMode = a.globalMode
  /-- The code has been asked for or not. -/
  finalized : b.finalized = a.finalized
  /-- The generation has been given up or not. -/
  aborted : b.aborted = a.aborted

theorem SameSettings.trans {a b c : Assembler} (h : SameSettings a b) (h' : SameSettings b c) :
    SameSettings a c :=
  ⟨h'.mode.trans h.mode, h'.saved.trans h.saved, h'.globalMode.trans h.globalMode,
    h'.finalized.trans h.finalized, h'.aborted.trans h.aborted⟩

theorem SameSettings.of_withCode {a b : Assembler} (h : b = a.withCode b) : SameSettings a b := by
  rw [h]
  exact ⟨rfl, rfl, rfl, rfl, rfl⟩

/-- Registers are touched without a change to anything but the register file and the error. -/
theorem foldl_touch_eq (a : Assembler) (regs : List Nat) :
    ∃ registers error, regs.foldl touch a = { a with registers := registers, error := error } := by
  induction regs generalizing a with
  | nil => exact ⟨a.registers, a.error, rfl⟩
  | cons reg regs ih =>
    obtain ⟨registers, error, heq⟩ := ih (a.touch reg)
    refine ⟨registers, error, heq.trans ?_⟩
    unfold touch
    split <;> rfl

/-- The notes of a block, before its items are placed. -/
def note (a : Assembler) (bl : Block) : Assembler :=
  let a := bl.registers.foldl touch a
  let a := (bl.error.map a.record).getD a
  { a with
    bitTables := a.bitTables ++ bl.bitTable.toArray
    boundaryLists := a.boundaryLists ++ bl.boundaryList.toArray }

/-- Before its items a block changes the register file, the error and the tables, and nothing
else. -/
theorem note_eq (a : Assembler) (bl : Block) :
    ∃ registers error tables lists, a.note bl =
      { a with registers := registers, error := error, bitTables := tables
               boundaryLists := lists } := by
  obtain ⟨registers, error, heq⟩ := foldl_touch_eq a bl.registers
  unfold note
  rw [heq]
  cases bl.error <;> exact ⟨_, _, _, _, rfl⟩

/-- A block notes its registers in order and then the error it brings. Only the first error of all
is kept. -/
theorem Noted.note {errors : List CompileError} {touched : List Nat} {saved : Nat} {a : Assembler}
    (h : Noted errors touched saved a) (bl : Block) :
    Noted (errors ++ (bl.registers.flatMap registerReports ++ bl.error.toList))
      (touched ++ bl.registers) saved (a.note bl) := by
  have htouch := h.foldl_touch bl.registers
  rw [← List.append_assoc]
  unfold Assembler.note
  cases bl.error with
  | none =>
    rw [Option.toList_none, List.append_nil]
    exact htouch.of_eq rfl rfl
  | some e => exact (htouch.record e).of_eq rfl rfl

/-- An assembler has emitted some opcodes after `items`: `is` is a piece of code that asks for the
targets of the opcodes, and what the opcodes have to record is recorded. -/
structure Emits (ops : List Opcode) (own : List Label) (items is : List Item) (a b : Assembler) :
    Prop where
  /-- The items are emitted. -/
  emitted : b.Emitted (items ++ is)
  /-- They are a piece of code. -/
  piece : Piece a.labels.size own (fun l => ∃ op ∈ ops, op.Asks l) is
  /-- Every target is asked for. -/
  asks : ∀ op ∈ ops, ∀ l, op.target? = some l → l ∈ targets is
  /-- The labels they declare are new. -/
  size : b.labels.size = a.labels.size + declares is
  /-- The settings are kept. -/
  settings : SameSettings a b
  /-- The errors and registers of the opcodes are recorded. -/
  noted : ∀ errors touched saved, Noted errors touched saved a →
    Noted (errors ++ ops.flatMap (Opcode.records a.mode)) (touched ++ ops.flatMap Opcode.touched)
      saved b

variable {a : Assembler} {items : List Item}

/-- **A stage is emitted**, if it can be lowered, names labels there are, and leaves the code short
enough. The items that come out are a piece of code that asks for the targets of the opcode. -/
theorem exists_emitStage (h : Emitted items a) {op : Opcode} (hop : ∀ l, op ≠ .bind l)
    (hload : ∀ offset dest count, op ≠ .load offset dest true count)
    (hlabel : ∀ l, op.label? = some l → l.index < a.labels.size) (hlowers : Lowers op)
    (hsize : codeSize (items ++ a.stageItems op) < 2 ^ 31) :
    ∃ b, a.emitStage op = .ok b ∧ Emits [op] [] items (a.stageItems op) a b := by
  obtain ⟨bl, hbl⟩ := hlowers a.mode a.labels.size a.nextTable a.isBound
  have hstage : a.emitStage op = a.placeBlock bl := by
    cases op with
    | bind l => exact absurd rfl (hop l)
    | _ => simp only [emitStage, hbl, Bind.bind, Except.bind]
  have hitems : a.stageItems op = bl.items := by
    cases op with
    | bind l => exact absurd rfl (hop l)
    | _ => simp only [stageItems, hbl]
  rw [hitems] at hsize ⊢
  have hpiece := piece_lower h.size hop hlabel hbl
  obtain ⟨hregisters, herror⟩ := notes_of_lower hbl
  obtain ⟨registers, error, tables, lists, hnote⟩ := a.note_eq bl
  have hemitted : (a.note bl).Emitted items := by
    rw [hnote]
    exact h.of_eq rfl rfl rfl rfl
  have hlabels : (a.note bl).labels = a.labels := by rw [hnote]
  obtain ⟨b, hb, hemitted', hsize', hframe⟩ := hemitted.exists_piece (hlabels ▸ hpiece)
    List.nodup_nil (by simp) (by simp) hsize
  refine ⟨b, hstage.trans hb, hemitted', ?_, ?_, hlabels ▸ hsize', ?_, ?_⟩
  · simpa using hpiece
  · simpa using fun l hl => mem_targets_of_lower hload hbl hl
  · refine SameSettings.trans ?_ (.of_withCode hframe)
    rw [hnote]
    exact ⟨rfl, rfl, rfl, rfl, rfl⟩
  · intro errors touched saved hnoted
    have hnext := hnoted.note bl
    rw [hregisters, herror] at hnext
    have hb : Noted _ _ saved b := hnext.of_eq (by rw [hframe]; rfl) (by rw [hframe]; rfl)
    simpa [Opcode.records] using hb

/-- What one part and then another emits, both together emit: the local labels of the second begin
where those of the first end. -/
theorem Emits.append {b c : Assembler} {ops ops' : List Opcode} {is js : List Item}
    (h : Emits ops [] items is a b) (h' : Emits ops' [] (items ++ is) js b c) :
    Emits (ops ++ ops') [] items (is ++ js) a c := by
  refine ⟨by simpa using h'.emitted, ?_, ?_, ?_, h.settings.trans h'.settings, ?_⟩
  · refine Piece.extend (h.piece.mono fun l ⟨op, hop, hl⟩ => ?_) rfl
      (h.size ▸ h'.piece.mono fun l ⟨op, hop, hl⟩ => ?_)
    · exact ⟨op, List.mem_append_left _ hop, hl⟩
    · exact ⟨op, List.mem_append_right _ hop, hl⟩
  · rw [List.forall_mem_append, targets_append]
    exact ⟨fun op hop l hl => List.mem_append_left _ (h.asks op hop l hl),
      fun op hop l hl => List.mem_append_right _ (h'.asks op hop l hl)⟩
  · rw [h'.size, h.size, declares_append, Nat.add_assoc]
  · intro errors touched saved hnoted
    have hnext := h'.noted _ _ _ (h.noted _ _ _ hnoted)
    rw [h.settings.mode] at hnext
    simpa using hnext

/-- Stages are emitted one after another, by induction on the rest of them. -/
theorem exists_emitStages (h : Emitted items a) {ops : List Opcode}
    (hops : ∀ op ∈ ops, (∀ l, op ≠ .bind l) ∧
      (∀ offset dest count, op ≠ .load offset dest true count) ∧
      (∀ l, op.label? = some l → l.index < a.labels.size) ∧ Lowers op)
    (hsize : codeSize (items ++ a.stagesItems ops) < 2 ^ 31) :
    ∃ b, a.emitStages ops = .ok b ∧ Emits ops [] items (a.stagesItems ops) a b := by
  induction ops generalizing a items with
  | nil =>
    refine ⟨a, rfl, by simpa [stagesItems] using h, piece_instrs _ _ [], by simp, rfl,
      ⟨rfl, rfl, rfl, rfl, rfl⟩, by simp⟩
  | cons op ops ih =>
    rw [List.forall_mem_cons] at hops
    obtain ⟨⟨hop, hload, hlabel, hlowers⟩, hops⟩ := hops
    have hfirst : codeSize (items ++ a.stageItems op) < 2 ^ 31 := by
      simp only [stagesItems, codeSize_append] at hsize ⊢
      omega
    obtain ⟨b, hb, hemits⟩ := exists_emitStage h hop hload hlabel hlowers hfirst
    rw [stagesItems, hb, ← List.append_assoc] at hsize
    obtain ⟨c, hc, hemits'⟩ := ih hemits.emitted (fun op' hop' => by
      obtain ⟨hbind, hload, hlabel, hlowers⟩ := hops op' hop'
      refine ⟨hbind, hload, fun l hl => ?_, hlowers⟩
      exact Nat.lt_of_lt_of_le (hlabel l hl) (hemits.size ▸ Nat.le_add_right _ _)) hsize
    refine ⟨c, bind_eq_ok.mpr ⟨b, hb, hc⟩, ?_⟩
    rw [stagesItems, hb]
    exact hemits.append hemits'

/-- An opcode is its own only stage, or a load that checks its bounds. -/
theorem stages_cases {op : Opcode} {ops : List Opcode} (h : stages op = .ok ops) :
    (ops = [op] ∧ ∀ offset dest count, op ≠ .load offset dest true count) ∨
    ∃ offset dest count last, op = .load offset dest true count ∧
      ops = [.onPlace (.outside last) dest, .load offset dest false count] := by
  cases op with
  | load offset dest checked count =>
    cases checked with
    | false => exact .inl ⟨(Except.ok.inj h).symm, by simp⟩
    | true =>
      obtain ⟨last, -, h⟩ := bind_eq_ok.mp h
      exact .inr ⟨offset, dest, count, last, rfl, (Except.ok.inj h).symm⟩
  | _ => exact .inl ⟨(Except.ok.inj h).symm, by simp⟩

/-- The stages of an opcode emit the opcode. -/
theorem Emits.of_stages {b : Assembler} {op : Opcode} {ops : List Opcode} {is : List Item}
    (h : Emits ops [] items is a b) (hops : stages op = .ok ops) : Emits [op] [] items is a b := by
  rcases stages_cases hops with ⟨rfl, -⟩ | ⟨offset, dest, count, last, rfl, rfl⟩
  · exact h
  · refine ⟨h.emitted, h.piece.mono fun l ⟨op', hop', hl⟩ => ?_, ?_, h.size, h.settings, ?_⟩
    · refine ⟨_, List.mem_singleton_self _, ?_⟩
      rcases List.mem_cons.mp hop' with rfl | hop'
      · exact hl
      · obtain rfl := List.mem_singleton.mp hop'
        exact .inr (hl.resolve_left (by simp [Opcode.target?]))
    · rw [List.forall_mem_singleton]
      exact h.asks (.onPlace (.outside last) dest) List.mem_cons_self
    · exact h.noted

/-- Binding a label that has no place gives it one: all its pending uses can be patched while the
code is shorter than a displacement reaches. -/
theorem exists_emit_bind (h : Emitted items a) {l : Label} (hl : l.index < a.labels.size)
    (hbound : l ∉ bindings items) (hsize : codeSize items < 2 ^ 31) :
    ∃ b, a.emit (.bind l) = .ok b ∧ Emits [.bind l] [l] items (a.opItems (.bind l)) a b := by
  obtain ⟨e, he⟩ := exists_entry hl
  have hnone : e.pos = none := (h.pos l e he).trans (position_eq_none_iff.mpr hbound)
  have hfree : a.labels.isBound l = .ok false := by
    rw [Label.Table.isBound, he]
    simp [hnone, Functor.map, Except.map]
  have hitems : a.opItems (.bind l) = [.bind l] := by
    have hstage : a.stageItems (.bind l) = [.bind l] := by
      rw [stageItems, Laid.isBound_eq hfree]
      rfl
    simp only [opItems, refuses, stages, stagesItems, hstage, Bool.false_eq_true, if_false]
    split <;> rfl
  obtain ⟨b, hb, hemitted, hlabels, hframe⟩ := h.exists_place (i := .bind l)
    (fun k hk => Option.some.inj hk ▸ hl) (fun k hk => Option.some.inj hk ▸ hbound) hsize
  have hbind : a.bind l = .ok b := bind_eq_ok.mpr ⟨false, hfree, hb⟩
  refine ⟨b, bind_eq_ok.mpr ⟨[.bind l], rfl, bind_eq_ok.mpr ⟨b, hbind, rfl⟩⟩, ?_⟩
  rw [hitems]
  refine ⟨hemitted, ⟨by simpa using hl, ?_, ?_⟩, ?_, hlabels, .of_withCode hframe, ?_⟩
  · simp [locals, Item.declares, Item.bound?]
  · simp [Item.target?]
  · simp [Opcode.target?]
  · intro errors touched saved hnoted
    have hb : Noted errors touched saved b :=
      hnoted.of_eq (by rw [hframe]; rfl) (by rw [hframe]; rfl)
    simpa [Opcode.records, Opcode.touched, Opcode.widthReports] using hb

/-- **An opcode is emitted** if its operands are in range, the labels it names are declared and
a label it binds has no place. -/
theorem exists_emit (h : Emitted items a) {op : Opcode} (hrange : op.InRange)
    (hlabel : ∀ l, op.label? = some l → l.index < a.labels.size)
    (hbound : ∀ l, op.bound? = some l → l ∉ bindings items) (hrefuses : a.refuses op = false)
    (hsize : codeSize (items ++ a.opItems op) < 2 ^ 31) :
    ∃ b, a.emit op = .ok b ∧ Emits [op] op.bound?.toList items (a.opItems op) a b := by
  cases hbind : op.bound? with
  | some l =>
    obtain rfl : op = .bind l := by cases op <;> simp_all [Opcode.bound?]
    simp only [codeSize_append] at hsize
    exact exists_emit_bind h (hlabel l rfl) (hbound l rfl) (by omega)
  | none =>
    have hop : ∀ l, op ≠ .bind l := fun l hl => by simp [hl, Opcode.bound?] at hbind
    obtain ⟨ops, hops, hlowers⟩ := exists_stages hrange
    have hitems : a.opItems op = a.stagesItems ops := by
      rw [opItems, hrefuses, hops]
      rfl
    have hstages : ∀ op' ∈ ops, (∀ l, op' ≠ .bind l) ∧
        (∀ offset dest count, op' ≠ .load offset dest true count) ∧
        (∀ l, op'.label? = some l → l.index < a.labels.size) ∧ Lowers op' := by
      intro op' hop'
      refine ⟨fun l hl => hop l (eq_bind_of_mem_stages hops hop' hl), ?_⟩
      rcases stages_cases hops with ⟨rfl, hload⟩ | ⟨offset, dest, count, last, rfl, rfl⟩
      · obtain rfl := List.mem_singleton.mp hop'
        exact ⟨hload, hlabel, hlowers _ hop'⟩
      · refine ⟨?_, ?_, hlowers op' hop'⟩ <;>
          simp only [List.mem_cons, List.not_mem_nil, or_false] at hop' <;>
          rcases hop' with rfl | rfl
        · simp
        · simp
        · exact hlabel
        · exact hlabel
    rw [hitems] at hsize ⊢
    obtain ⟨b, hb, hemits⟩ := exists_emitStages h hstages hsize
    refine ⟨b, ?_, hemits.of_stages hops⟩
    rw [emit, hrefuses]
    exact bind_eq_ok.mpr ⟨ops, hops, hb⟩

end Assembler

/-! ### Renamed labels -/

namespace Opcode

variable (f : Label → Label) (op : Opcode)

theorem label?_mapLabels : (op.mapLabels f).label? = op.label?.map f := by
  cases op <;> rfl

theorem bound?_mapLabels : (op.mapLabels f).bound? = op.bound?.map f := by
  cases op <;> rfl

/-- Renaming the labels of an opcode renames its target. -/
theorem target?_mapLabels : (op.mapLabels f).target? = op.target?.map f := by
  cases op with
  | onChar test dest =>
    cases test with
    | notInClass cls => cases cls <;> rfl
    | _ => rfl
  | load offset dest checked count => cases checked <;> rfl
  | _ => rfl

omit f in
theorem eq_bind_of_bound? {op : Opcode} {l : Label} (h : op.bound? = some l) : op = .bind l := by
  cases op with
  | bind k => exact congrArg bind (Option.some.inj h)
  | _ => cases h

omit f in
/-- A target is one of the labels that an opcode names. -/
theorem label?_of_target? {op : Opcode} {l : Label} (h : op.target? = some l) :
    op.label? = some l := by
  unfold target? at h
  split at h
  · cases h
  · cases h
  · cases h
  · exact h

theorem touched_mapLabels : (op.mapLabels f).touched = op.touched := by
  cases op with
  | onRegister test dest => cases test <;> rfl
  | _ => rfl

theorem records_mapLabels (mode : Mode) : (op.mapLabels f).records mode = op.records mode := by
  rw [records, records, touched_mapLabels]
  cases op <;> rfl

theorem inRange_mapLabels (h : op.InRange) : (op.mapLabels f).InRange := by
  cases op with
  | onPlace test dest => cases test <;> exact h
  | _ => exact h

theorem refuses_mapLabels (a : Assembler) : a.refuses (op.mapLabels f) = a.refuses op := by
  cases op with
  | onChar test dest => cases test <;> rfl
  | _ => rfl

end Opcode

end NativeMatcher
