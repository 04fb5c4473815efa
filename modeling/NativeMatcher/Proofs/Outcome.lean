import NativeMatcher.Proofs.Emission

/-!
# What compiling a program reports

An error can come from four places: an opcode is rejected before it is emitted, the assembler
records something while it emits, the settings ask for registers the program does not have, and
at the end a label has no place. `NativeMatcher.Program.reports` lists everything there is to
report about a program in this order, without emitting anything, and
`NativeMatcher.Program.compile_outcome` says that compiling ends with the first report, or with
code whose registers can be counted in the program.

The proof follows a compilation opcode by opcode (`NativeMatcher.Compilation.Follows`). That no
rule is broken on the way – no label of the assembler's own is left open or bound twice, nothing
but a stub is called – is an invariant of the items emitted so far.
-/

namespace NativeMatcher

open Assembly Code X64

/-! ### The reports of a program -/

/-- Why an opcode is rejected before its labels are looked at. -/
def Opcode.earlyReports : Opcode → List CompileError
  | .onChar (.inTable table) _ =>
    if table.size = 128 then [] else [.unsupported (.bitTable table.size)]
  | _ => []

/-- Why an opcode is rejected after its labels have been looked at; `before` are the opcodes
before it. -/
def Opcode.lateReports (mode : Mode) (before : List Opcode) : Opcode → List CompileError
  | .bind l => if .bind l ∈ before then [.labelRebound l] else []
  | .onChar (.inRanges ranges) _ | .onChar (.notInRanges ranges) _ =>
    if ranges.length ≤ 128 then [] else [.unsupported (.rangeArray ranges.length)]
  | .onChar (.notInClass cls) _ =>
    if mode = .uc16 ∧ (cls = .whitespace ∨ cls = .notWhitespace) then
      [.unsupported (.charClass cls)]
    else []
  | _ => []

namespace Program

/-- Why a label is rejected. -/
def labelReports (p : Program) : Option Label → List CompileError
  | some l => if l.index < p.labels then [] else [.unknownLabel l]
  | none => []

/-- Why an opcode is rejected, in the order of the checks; `before` are the opcodes before it. -/
def rejections (p : Program) (mode : Mode) (before : List Opcode) (op : Opcode) :
    List CompileError :=
  op.earlyReports ++ p.labelReports op.label? ++ op.lateReports mode before

/-- Why opcodes are rejected, in their order; `before` are the opcodes before them. -/
def rejectionsFrom (p : Program) (mode : Mode) : (before : List Opcode) → List Opcode →
    List CompileError
  | _, [] => []
  | before, op :: ops =>
    p.rejections mode before op ++ p.rejectionsFrom mode (before ++ [op]) ops

/-- Whether an opcode asks for a label and no opcode binds it. -/
def isOpen (p : Program) (i : Nat) : Bool :=
  p.opcodes.toList.any (·.target? == some ⟨i⟩) && !p.opcodes.toList.contains (.bind ⟨i⟩)

/-- The first label that an opcode asks for and no opcode binds. -/
def openLabel? (p : Program) : Option Nat := (List.range p.labels).find? p.isOpen

/-- What the assembler records about a program. -/
def recordedReports (p : Program) (mode : Mode) : List CompileError :=
  registerReports p.saved ++ p.opcodes.toList.flatMap (Opcode.records mode)

/-- What keeps a match from starting over: it needs the two registers of the whole match. -/
def restartReports (p : Program) (g : GlobalMode) : List CompileError :=
  if g.isGlobal = true ∧ p.saved < 2 then [.unsupported .globalWithoutCaptures] else []

/-- What is left open at the end. -/
def openReports (p : Program) : List CompileError :=
  (p.openLabel?.map fun i => .unboundLabel ⟨12 + i⟩).toList

/-- Everything there is to report about a program, what is reported first in front: opcodes that
are rejected, what the assembler records, a restart without the registers it needs, and a label
without a place. -/
def reports (p : Program) (o : Options) : List CompileError :=
  p.rejectionsFrom o.mode [] p.opcodes.toList ++ p.recordedReports o.mode ++
    p.restartReports o.globalMode ++ p.openReports

/-- The size of the register file: all registers a match reports and all that an opcode
touches. -/
def registerCount (p : Program) : Nat :=
  (p.opcodes.toList.flatMap Opcode.touched).foldl (fun n reg => max n (reg + 1)) p.saved

end Program

/-! ### What is emitted -/

/-- The items that are emitted from a compilation under way on: those of the opcodes up to the
first that is rejected, and then the routines, unless there is something to report. -/
def Compilation.emission (p : Program) (c : Compilation) : List Opcode → List Item
  | [] =>
    match c.assembler.finishError? with
    | some _ => []
    | none => Assembler.sectionsItems { c.assembler with finalized := true } Assembler.sections
  | op :: ops =>
    match p.opcodeError? c.assembler.mode c.bound op with
    | some _ => []
    | none => c.assembler.opItems (op.mapLabels Label.shifted) ++ match c.step p op with
      | .ok d => d.emission p ops
      | .error _ => []

/-- The items that compiling a program emits, whether it succeeds or not. -/
def Program.emission (p : Program) (o : Options) (heap : Nat → UInt64) : List Item :=
  match Compilation.start p o heap with
  | .error _ => []
  | .ok c => opening ++ c.emission p p.opcodes.toList

/-! ### The opcodes of a program -/

namespace Program

variable {p : Program} {mode : Mode} {bound : List Label} {before : List Opcode}

theorem targetError?_eq (dest : Target) : p.targetError? dest = (p.labelReports dest).head? := by
  cases dest with
  | none => rfl
  | some l => by_cases hl : l.index < p.labels <;> simp [targetError?, labelReports, hl]

/-- An opcode is rejected for the first reason there is. The reasons are listed in the order in
which the translation checks them. -/
theorem opcodeError?_eq (hbound : ∀ l, l ∈ bound ↔ .bind l ∈ before) (op : Opcode) :
    p.opcodeError? mode bound op = (p.rejections mode before op).head? := by
  cases op with
  | bind l =>
    have hmem : bound.contains l = true ↔ .bind l ∈ before := by simpa using hbound l
    simp only [opcodeError?, bindError?, targetError?_eq, rejections, Opcode.earlyReports,
      Opcode.lateReports, Opcode.label?, hmem, List.nil_append, List.head?_append]
    cases (p.labelReports (some l)).head? with
    | some e => rfl
    | none => by_cases h : .bind l ∈ before <;> simp [h]
  | onChar test dest =>
    simp only [rejections, Opcode.label?, List.head?_append]
    cases test with
    | inTable table =>
      by_cases h : table.size = 128 <;>
        simp [opcodeError?, targetError?_eq, Opcode.earlyReports, Opcode.lateReports, tableSize, h]
    | inRanges ranges | notInRanges ranges =>
      simp only [opcodeError?, targetError?_eq, Opcode.earlyReports, Opcode.lateReports,
        maxRangeArraySize, List.head?_nil, Option.none_or]
      cases (p.labelReports dest).head? with
      | some e => rfl
      | none => by_cases h : ranges.length ≤ 128 <;> simp [h]
    | notInClass cls =>
      simp only [opcodeError?, targetError?_eq, Opcode.earlyReports, Opcode.lateReports,
        List.head?_nil, Option.none_or]
      cases (p.labelReports dest).head? with
      | some e => rfl
      | none => cases cls <;> cases mode <;> rfl
    | _ => simp [opcodeError?, targetError?_eq, Opcode.earlyReports, Opcode.lateReports,
        Opcode.label?]
  | _ => simp [opcodeError?, targetError?_eq, rejections, Opcode.earlyReports, Opcode.lateReports]

/-- An opcode that is not rejected is not refused by the assembler. -/
theorem refuses_eq_false {a : Assembler} {op : Opcode}
    (h : p.opcodeError? a.mode bound op = none) : a.refuses op = false := by
  cases op with
  | onChar test dest =>
    cases test with
    | inRanges ranges | notInRanges ranges =>
      simp only [opcodeError?] at h
      split at h
      · cases h
      · split at h
        · next hle => simp [Assembler.refuses, Assembler.reply, hle]
        · cases h
    | notInClass cls =>
      simp only [opcodeError?] at h
      split at h
      · cases h
      · split at h
        · next hfast => simp [Assembler.refuses, Assembler.reply, hfast]
        · cases h
    | _ => rfl
  | _ => rfl

end Program

theorem Label.shifted_inj {l k : Label} (h : l.shifted = k.shifted) : l = k := by
  cases l
  cases k
  simpa [shifted] using h

namespace Compilation

open Assembler

/-- A compilation has dealt with the opcodes in `done` and emitted `items`. -/
structure Follows (p : Program) (o : Options) (done : List Opcode) (items : List Item)
    (c : Compilation) : Prop where
  /-- The items are emitted. -/
  emitted : c.assembler.Emitted items
  /-- There are the labels of the program and the local ones. -/
  size : c.assembler.labels.size = reservedLabels + p.labels + declares items
  /-- The labels that are bound are the start, those that opcodes bind and the local ones. -/
  piece : Piece (reservedLabels + p.labels)
    (Reserved.start.label :: (done.filterMap Opcode.bound?).map Label.shifted)
    (·.index < reservedLabels + p.labels) items
  /-- The labels of the program that are asked for are the targets of opcodes. -/
  asks : ∀ l : Label, l.index < p.labels →
    (l.shifted ∈ targets items ↔ ∃ op ∈ done, op.target? = some l)
  /-- No item starts a routine. -/
  plain : ∀ i ∈ items, i.isPlain = true
  /-- The labels that opcodes bind are known. -/
  bound : ∀ l, l ∈ c.bound ↔ .bind l ∈ done
  /-- What opcodes have to record is recorded. -/
  noted : c.assembler.Noted (registerReports p.saved ++ done.flatMap (Opcode.records o.mode))
    (done.flatMap Opcode.touched) p.saved
  /-- The encoding is that of the options. -/
  mode : c.assembler.mode = o.mode
  /-- A match reports the registers of the program. -/
  saved : c.assembler.saved = p.saved
  /-- The global mode is that of the options. -/
  globalMode : c.assembler.globalMode = o.globalMode
  /-- The code has not been asked for. -/
  finalized : c.assembler.finalized = false
  /-- The generation has not been given up. -/
  aborted : c.assembler.aborted = false

variable {p : Program} {o : Options} {done : List Opcode} {items : List Item} {c : Compilation}

/-- The labels of an opcode that is not rejected. -/
theorem label_of_rejections_eq_nil {op : Opcode} {l : Label}
    (h : p.rejections o.mode done op = []) (hl : op.label? = some l) : l.index < p.labels := by
  simp only [Program.rejections, List.append_eq_nil_iff, hl, Program.labelReports] at h
  by_cases hlt : l.index < p.labels
  · exact hlt
  · simp [hlt] at h

/-- A label that opcodes do not bind has no place. -/
theorem Follows.not_mem_bindings (h : Follows p o done items c) {l : Label}
    (hl : l.index < p.labels) (hbind : .bind l ∉ done) : l.shifted ∉ bindings items := by
  intro hmem
  rcases h.piece.mem_bindings.mp hmem with hown | ⟨hle, -⟩
  · rcases List.mem_cons.mp hown with hstart | hown
    · have := index_label_lt .start
      rw [← hstart] at this
      simp only [Label.shifted] at this
      omega
    · obtain ⟨k, hk, heq⟩ := List.mem_map.mp hown
      obtain ⟨op, hop, hbound⟩ := List.mem_filterMap.mp hk
      obtain rfl := Label.shifted_inj heq
      exact hbind (Opcode.eq_bind_of_bound? hbound ▸ hop)
  · simp only [Label.shifted] at hle
    omega

/-- A label that opcodes bind has a place. -/
theorem Follows.mem_bindings (h : Follows p o done items c) {l : Label} (hbind : .bind l ∈ done) :
    l.shifted ∈ bindings items := by
  refine h.piece.mem_bindings.mpr (.inl (List.mem_cons_of_mem _ (List.mem_map_of_mem ?_)))
  exact List.mem_filterMap.mpr ⟨.bind l, hbind, rfl⟩

/-- An opcode that passes its checks and can be emitted is compiled, and only a binding adds to the
labels that are bound. -/
theorem exists_step_of_emit {op : Opcode} {b : Assembler}
    (h : p.opcodeError? c.assembler.mode c.bound op = none)
    (hb : c.assembler.emit (op.mapLabels Label.shifted) = .ok b) :
    ∃ d, c.step p op = .ok d ∧ d.assembler = b ∧ ∀ l, l ∈ d.bound ↔ l ∈ c.bound ∨ op = .bind l := by
  have hmark : orFault (c.mark.assembler.emit (op.mapLabels Label.shifted)) = .ok b := by
    rw [mark, hb]
    rfl
  simp only [step, h, hmark, Bind.bind, Except.bind]
  refine ⟨_, rfl, rfl, fun l => ?_⟩
  cases op with
  | bind k => simp [mark, eq_comm, or_comm]
  | _ => simp [mark]

/-- Of the labels of the program, an opcode that is emitted asks for its target. -/
theorem Follows.mem_targets_iff (h : Follows p o done items c) {op : Opcode} {own : List Label}
    {is : List Item} {b : Assembler}
    (hemits : Emits [op.mapLabels Label.shifted] own items is c.assembler b) {l : Label}
    (hl : l.index < p.labels) : l.shifted ∈ targets is ↔ op.target? = some l := by
  have hsize := h.size
  constructor
  · intro hmem
    rcases hemits.piece.names _ hmem with ⟨op', hop', hasks⟩ | hle
    · obtain rfl := List.mem_singleton.mp hop'
      rcases hasks with htarget | hlt
      · rw [Opcode.target?_mapLabels] at htarget
        obtain ⟨k, hk, heq⟩ := Option.map_eq_some_iff.mp htarget
        rwa [← Label.shifted_inj heq]
      · simp only [Label.shifted] at hlt
        omega
    · simp only [Label.shifted] at hle
      omega
  · intro htarget
    refine hemits.asks _ (List.mem_singleton_self _) _ ?_
    rw [Opcode.target?_mapLabels, htarget]
    rfl

/-- **One opcode that is not rejected is emitted.** The step of the compilation: no rejection means
that its labels are there and not bound twice, and the bound on the code means that all distances
fit. -/
theorem Follows.exists_step (h : Follows p o done items c) {op : Opcode}
    (hrejections : p.rejections o.mode done op = []) (hrange : op.InRange)
    (hsize : codeSize (items ++ c.assembler.opItems (op.mapLabels Label.shifted)) < 2 ^ 31) :
    ∃ d, c.step p op = .ok d ∧
      Follows p o (done ++ [op])
        (items ++ c.assembler.opItems (op.mapLabels Label.shifted)) d := by
  have hnone : p.opcodeError? c.assembler.mode c.bound op = none := by
    rw [Program.opcodeError?_eq h.bound, h.mode, hrejections]
    rfl
  have hlabels := h.size
  have hlabel : ∀ l, (op.mapLabels Label.shifted).label? = some l →
      l.index < reservedLabels + p.labels := by
    intro l hl
    rw [Opcode.label?_mapLabels] at hl
    obtain ⟨k, hk, rfl⟩ := Option.map_eq_some_iff.mp hl
    have := label_of_rejections_eq_nil hrejections hk
    simp only [Label.shifted]
    omega
  have hfresh : ∀ l, (op.mapLabels Label.shifted).bound? = some l → l ∉ bindings items := by
    intro l hl
    rw [Opcode.bound?_mapLabels] at hl
    obtain ⟨k, hk, rfl⟩ := Option.map_eq_some_iff.mp hl
    obtain rfl := Opcode.eq_bind_of_bound? hk
    refine h.not_mem_bindings (label_of_rejections_eq_nil hrejections rfl) fun hmem => ?_
    simp [Program.rejections, Opcode.lateReports, hmem] at hrejections
  obtain ⟨b, hb, hemits⟩ := exists_emit h.emitted (op.inRange_mapLabels _ hrange)
    (fun l hl => Nat.lt_of_lt_of_le (hlabel l hl) (by omega)) hfresh
    (by rw [Opcode.refuses_mapLabels]; exact Program.refuses_eq_false hnone) hsize
  obtain ⟨d, hd, rfl, hbound⟩ := exists_step_of_emit hnone hb
  have hset := hemits.settings
  refine ⟨d, hd, hemits.emitted, ?_, ?_, ?_, ?_, ?_, ?_, hset.mode.trans h.mode,
    hset.saved.trans h.saved, hset.globalMode.trans h.globalMode,
    hset.finalized.trans h.finalized, hset.aborted.trans h.aborted⟩
  · rw [hemits.size, h.size, declares_append, Nat.add_assoc]
  · have hnew := h.piece.append rfl (h.size ▸ hemits.piece.mono fun l ⟨op', hop', hasks⟩ => by
      obtain rfl := List.mem_singleton.mp hop'
      rcases hasks with htarget | hlt
      · exact hlabel l (Opcode.label?_of_target? htarget)
      · show l.index < reservedLabels + p.labels
        omega)
    rw [Opcode.bound?_mapLabels] at hnew
    cases hop : op.bound? with
    | none => simpa [hop] using hnew
    | some l => simpa [hop] using hnew
  · intro l hl
    rw [targets_append, List.mem_append, h.asks l hl, h.mem_targets_iff hemits hl]
    simp [or_and_right, exists_or]
  · rw [List.forall_mem_append]
    exact ⟨h.plain, isPlain_opItems (fun l hl => Program.le_index_of_mapLabels hl)
      h.emitted.toLaid (Nat.le_refl _)⟩
  · intro l
    rw [hbound, h.bound, List.mem_append, List.mem_singleton, eq_comm]
  · have hnoted := hemits.noted _ _ _ h.noted
    simpa [Opcode.records_mapLabels, Opcode.touched_mapLabels, h.mode] using hnoted

theorem size_declareMany (t : Label.Table) (n : Nat) : (t.declareMany n).size = t.size + n := by
  simp [Label.Table.declareMany, Label.Table.size]

/-- A code generation starts without a fault. -/
theorem exists_new (mode : Mode) (saved : Nat) (heap : Nat → UInt64) :
    ∃ a, Assembler.new mode saved heap = .ok a ∧ a.Emitted opening ∧
      a.labels.size = reservedLabels ∧ a.finalized = false ∧ a.aborted = false := by
  have hempty : Laid 0 []
      ({ mode := mode, registers := saved, saved := saved, heap := heap } : Assembler) :=
    .nil rfl rfl
  have hlaid := hempty.declareMany reservedLabels
  rw [Nat.zero_add] at hlaid
  obtain ⟨error, hnew⟩ : ∃ error, Assembler.new mode saved heap = Assembler.placeAll
      { labels := Label.Table.declareMany {} reservedLabels, mode := mode, registers := saved
        saved := saved, heap := heap, error := error } opening := by
    unfold Assembler.new opening
    split <;> exact ⟨_, rfl⟩
  have hblank : Emitted [] ({ labels := Label.Table.declareMany {} reservedLabels, mode := mode
                              registers := saved, saved := saved, heap := heap
                              error := error } : Assembler) :=
    ⟨hlaid.of_eq rfl rfl, rfl, by simp, by simp⟩
  have hscoped : Scoped (Label.Table.declareMany {} reservedLabels).size opening := by
    rw [size_declareMany]
    simp [opening, reservedLabels, Reserved.label]
  obtain ⟨a, ha, hemitted, hsize, hframe⟩ :=
    hblank.exists_placeAll hscoped (by decide) (by simp) (by decide)
  have hsettings := SameSettings.of_withCode hframe
  refine ⟨a, hnew.trans ha, hemitted, ?_, hsettings.finalized, hsettings.aborted⟩
  rw [hsize, size_declareMany]
  rfl

/-- A compilation starts without a fault. -/
theorem exists_start (p : Program) (o : Options) (heap : Nat → UInt64) :
    ∃ c, start p o heap = .ok c ∧ Follows p o [] opening c := by
  obtain ⟨a, ha, hemitted, hsize, hfinalized, haborted⟩ := exists_new o.mode p.saved heap
  have hshape := sameShape_new ha
  have hstart : start p { mode := o.mode } heap = .ok { assembler := { a with
      globalMode := .notGlobal, labels := a.labels.declareMany p.labels } } :=
    bind_eq_ok.mpr ⟨a, by rw [ha]; rfl, rfl⟩
  refine ⟨_, by rw [start_eq, hstart]; rfl, ?_⟩
  refine ⟨⟨?_, hemitted.writable, hemitted.calls, hemitted.stubs⟩, ?_, ⟨?_, ?_, ?_⟩, ?_, by decide,
    by simp [withSettings], ⟨?_, ?_⟩, hshape.mode, hshape.saved, Compiled.globalMode_settings o,
    hfinalized, haborted⟩
  · exact ((hemitted.toLaid.declareMany p.labels).mono (Nat.le_add_right _ _)).of_eq rfl rfl
  · simp [withSettings, Assembler.withSettings, size_declareMany, hsize, opening, Item.declares]
  · have hentry := index_label_lt .entry
    have hstart := index_label_lt .start
    simp [opening]
    omega
  · simp [opening, locals, Item.declares, Item.bound?]
  · have hentry := index_label_lt .entry
    simp [opening, Item.target?]
    omega
  · intro l hl
    simp [opening, Item.target?, Label.shifted, Reserved.label, reservedLabels]
  · refine hshape.error.trans ?_
    simp only [registerReports, List.flatMap_nil, List.append_nil]
    by_cases h : 65535 < p.saved
    · simp [maxRegister, h]
    · simp [maxRegister, h]
  · exact fun _ => hshape.registers

/-- **The opcodes are emitted up to the first that is rejected.** By induction on the opcodes that
are left, with what was emitted as the invariant. -/
theorem Follows.exists_steps {ops : List Opcode} (h : Follows p o done items c)
    (hrange : ∀ op ∈ ops, op.InRange) (hsize : codeSize (items ++ c.emission p ops) < 2 ^ 31) :
    match (p.rejectionsFrom o.mode done ops).head? with
    | some e => c.steps p ops = .error (.error e)
    | none => ∃ d items', c.steps p ops = .ok d ∧ Follows p o (done ++ ops) items' d ∧
        codeSize (items' ++ d.emission p []) < 2 ^ 31 := by
  induction ops generalizing done items c with
  | nil => exact ⟨c, items, rfl, by simpa using h, hsize⟩
  | cons op ops ih =>
    rw [List.forall_mem_cons] at hrange
    rw [Program.rejectionsFrom, List.head?_append]
    have herror : p.opcodeError? o.mode c.bound op = (p.rejections o.mode done op).head? :=
      Program.opcodeError?_eq h.bound op
    cases hhead : (p.rejections o.mode done op).head? with
    | some e =>
      have hstep : c.step p op = .error (.error e) := by
        rw [step, h.mode, herror, hhead]
      simp only [Option.some_or, steps, hstep, Bind.bind, Except.bind]
    | none =>
      rw [Option.none_or]
      rw [hhead] at herror
      simp only [emission, h.mode, herror] at hsize
      obtain ⟨d, hd, hnext⟩ := h.exists_step (List.head?_eq_none_iff.mp hhead) hrange.1
        (by simp only [codeSize_append] at hsize ⊢; omega)
      rw [hd, ← List.append_assoc] at hsize
      have hrest := ih hnext hrange.2 hsize
      simp only [steps, hd, Bind.bind, Except.bind]
      simpa using hrest

end Compilation

/-! ### The end -/

namespace Assembler

variable {items : List Item} {a : Assembler}

/-- The stub of a call is emitted where its label is bound. -/
theorem stub_mem {r : Reserved} (hopens : Opens items)
    (hr : r = .checkPreempt ∨ r = .stackOverflow) (hbound : r.label ∈ bindings items) :
    .stub r.label ∈ items := by
  obtain ⟨i, hi, hbinds⟩ := List.mem_filterMap.mp hbound
  obtain ⟨is, js, rfl⟩ := List.append_of_mem hi
  have hstub {rest : List Item} (hroutine : routineAt r.label = some (.stub r.label :: rest)) :
      i = .stub r.label := by
    obtain ⟨_, heq⟩ := hopens.prefix_of_append (Item.binds_iff.mpr hbinds) hroutine
    exact (List.cons.inj heq).1.symm
  rcases hr with rfl | rfl
  · exact hstub rfl ▸ hi
  · exact hstub rfl ▸ hi

/-- Every call is a call of a stub. -/
theorem stubs_of_calls (h : Emitted items a) (hregular : ∀ i ∈ items, i.isRegular = true)
    (hopens : Opens items) (hsettled : ∀ r : Reserved, r.label ∈ targets items →
      r.label ∈ bindings items) : ∀ l ∈ a.callSites, l ∈ a.stubs := by
  intro l hl
  have hcall := h.calls l hl
  have htarget : l ∈ targets items := List.mem_filterMap.mpr ⟨_, hcall, rfl⟩
  have hstub : l = Reserved.checkPreempt.label ∨ l = Reserved.stackOverflow.label := by
    simpa [Item.isRegular] using hregular _ hcall
  rcases hstub with rfl | rfl
  · exact h.stubs _ (stub_mem hopens (.inl rfl) (hsettled _ htarget))
  · exact h.stubs _ (stub_mem hopens (.inr rfl) (hsettled _ htarget))

end Assembler

namespace Compilation

open Assembler

variable {p : Program} {o : Options} {items : List Item} {c : Compilation}

/-- The first twelve labels are those of the routines. -/
theorem exists_label_eq {l : Label} (h : l.index < reservedLabels) :
    ∃ r : Reserved, r.label = l := by
  obtain ⟨i⟩ := l
  have hall : ∀ i < 12, ∃ r ∈ [Reserved.entry, .start, .restart, .success, .exit, .leave,
      .backtrack, .fail, .checkPreempt, .stackOverflow, .exception, .fallback],
      r.label = ⟨i⟩ := by decide
  obtain ⟨r, -, hr⟩ := hall i h
  exact ⟨r, hr⟩

section

variable {sure : List Reserved} {all : List Item} {b : Assembler}
  (h : Follows p o p.opcodes.toList items c)
  (hrounded : Rounded items (reservedLabels + p.labels) (seenAfter [.start] (sections.zip roles))
    sure all b)

include h hrounded

/-- At the end the open labels are those of the program. The routines leave none of their own open,
so what remains is a label that an opcode names and no opcode binds. -/
theorem Follows.isLinked_iff {n : Nat} (hn : n < b.labels.entries.size) :
    b.labels.entries[n].isLinked = true ↔ ∃ i, n = 12 + i ∧ i < p.labels ∧ p.isOpen i = true := by
  have hentry : b.labels.entry ⟨n⟩ = .ok b.labels.entries[n] := by
    rw [Label.Table.entry, Array.getElem?_eq_getElem hn]
  rw [hrounded.emitted.isLinked_eq hentry]
  have hprogram (i : Nat) (hi : i < p.labels) :
      (⟨12 + i⟩ : Label) ∈ targets all ∧ (⟨12 + i⟩ : Label) ∉ bindings all ↔ p.isOpen i = true := by
    obtain ⟨htargets, hbindings⟩ := hrounded.program ⟨12 + i⟩ (Nat.le_add_right _ _)
      (Nat.add_lt_add_left hi _)
    have hbound : (⟨12 + i⟩ : Label) ∈ bindings items ↔ .bind ⟨i⟩ ∈ p.opcodes.toList :=
      ⟨fun hmem => Decidable.not_not.mp fun hnot => h.not_mem_bindings (l := ⟨i⟩) hi hnot hmem,
        h.mem_bindings⟩
    have hasks : (⟨12 + i⟩ : Label) ∈ targets items ↔
        ∃ op ∈ p.opcodes.toList, op.target? = some ⟨i⟩ := h.asks ⟨i⟩ hi
    rw [htargets, hbindings, hasks, hbound]
    simp only [Program.isOpen, Bool.and_eq_true, List.any_eq_true, beq_iff_eq, Bool.not_eq_true',
      List.contains_eq_mem, decide_eq_false_iff_not]
  constructor
  · rintro ⟨htarget, hbound⟩
    by_cases hlow : n < reservedLabels
    · obtain ⟨r, hr⟩ := exists_label_eq (l := ⟨n⟩) hlow
      rw [← hr] at htarget hbound
      exact absurd (hrounded.settled r (mem_seenAfter r) htarget) hbound
    · by_cases hhigh : reservedLabels + p.labels ≤ n
      · exact absurd (hrounded.locals _ htarget hhigh) hbound
      · obtain ⟨i, rfl⟩ : ∃ i, n = 12 + i := ⟨n - 12, by unfold reservedLabels at hlow; omega⟩
        have hi : i < p.labels := by unfold reservedLabels at hhigh; omega
        exact ⟨i, rfl, hi, (hprogram i hi).mp ⟨htarget, hbound⟩⟩
  · rintro ⟨i, rfl, hi, hopen⟩
    exact (hprogram i hi).mpr hopen

/-- The first open label of an assembler at its end is the first open label of the program. The
labels of a program come after the reserved ones in the table, in their own order. -/
theorem Follows.firstUnresolved_eq :
    b.labels.firstUnresolved = p.openLabel?.map fun i => ⟨12 + i⟩ := by
  have hlinked {n : Nat} (hn : n < b.labels.entries.size) := h.isLinked_iff hrounded hn
  unfold Label.Table.firstUnresolved Program.openLabel?
  cases hfind : (List.range p.labels).find? p.isOpen with
  | none =>
    rw [List.find?_eq_none] at hfind
    have hnone : b.labels.entries.findIdx? Label.Entry.isLinked = none := by
      rw [Array.findIdx?_eq_none_iff]
      intro e he
      obtain ⟨n, hn, rfl⟩ := Array.getElem_of_mem he
      refine Bool.eq_false_iff.mpr fun hopen => ?_
      obtain ⟨i, -, hi, hopen⟩ := (hlinked hn).mp hopen
      exact hfind i (List.mem_range.mpr hi) hopen
    rw [hnone]
    rfl
  | some i =>
    obtain ⟨hopen, hi, hfirst⟩ := List.find?_range_eq_some.mp hfind
    have hsize : 12 + p.labels ≤ b.labels.entries.size := by
      have := hrounded.size
      unfold Label.Table.size reservedLabels at this
      omega
    have hn : 12 + i < b.labels.entries.size := by
      have := List.mem_range.mp hi
      omega
    have hsome : b.labels.entries.findIdx? Label.Entry.isLinked = some (12 + i) := by
      rw [Array.findIdx?_eq_some_iff_getElem]
      refine ⟨hn, (hlinked hn).mpr ⟨i, rfl, List.mem_range.mp hi, hopen⟩, fun j hj hjopen => ?_⟩
      obtain ⟨k, rfl, -, hk⟩ := (hlinked (Nat.lt_trans hj hn)).mp hjopen
      have := hfirst k (by omega)
      simp [hk] at this
    rw [hsome]
    rfl

end

/-- When all opcodes are emitted, finishing looks for what was recorded and then for the registers
that a restart needs, which is the order of the reports. -/
theorem Follows.finishError?_eq (h : Follows p o p.opcodes.toList items c) :
    c.assembler.finishError? =
      (p.recordedReports o.mode ++ p.restartReports o.globalMode).head? := by
  have herror : c.assembler.error = (p.recordedReports o.mode).head? := h.noted.error
  rw [List.head?_append, finishError?, h.finalized, h.aborted, herror, h.globalMode, h.saved]
  simp only [Bool.false_eq_true, if_false]
  cases (p.recordedReports o.mode).head? with
  | some e => rfl
  | none =>
    unfold Program.restartReports
    by_cases hg : o.globalMode.isGlobal = true ∧ p.saved < 2
    · simp [hg]
    · rw [if_neg hg, if_neg (by simpa using hg)]
      rfl

/-- The assembler after the opcodes, before the routines. -/
theorem Follows.rounded (h : Follows p o p.opcodes.toList items c) :
    Rounded items (reservedLabels + p.labels) [.start] [.start] items
      { c.assembler with finalized := true } := by
  have hstart : Reserved.start.label ∈ bindings items :=
    h.piece.mem_bindings.mpr (.inl List.mem_cons_self)
  refine ⟨h.emitted.of_eq rfl rfl rfl rfl, h.size, fun l hl => ?_, ?_, ?_, fun l hl hle => ?_,
    fun l _ _ => ⟨Iff.rfl, Iff.rfl⟩⟩
  · rcases h.piece.mem_bindings.mp hl with hown | ⟨hle, -⟩
    · rcases List.mem_cons.mp hown with rfl | hown
      · exact .inl ⟨.start, List.mem_cons_self, rfl⟩
      · obtain ⟨k, -, rfl⟩ := List.mem_map.mp hown
        exact .inr (Nat.le_add_right _ _)
    · exact .inr (by omega)
  · rintro r hr
    obtain rfl := List.mem_singleton.mp hr
    exact hstart
  · rintro r hr -
    obtain rfl := List.mem_singleton.mp hr
    exact hstart
  · rcases h.piece.mem_targets hl with hlt | ⟨-, hbound⟩
    · exact absurd hle (Nat.not_le.mpr hlt)
    · exact hbound

/-- The routines are emitted after the opcodes, and what is left open is a label of the
program. -/
theorem Follows.exists_placeRoutines (h : Follows p o p.opcodes.toList items c)
    (hsize : codeSize (items ++ sectionsItems { c.assembler with finalized := true } sections) <
      2 ^ 31) :
    ∃ b, placeRoutines { c.assembler with finalized := true } = .ok b ∧
      b.registers = c.assembler.registers ∧
      b.labelError? = p.openLabel?.map fun i => .unboundLabel ⟨12 + i⟩ := by
  have hzip : (sections.zip roles).map Prod.fst = sections := rfl
  rw [← hzip] at hsize
  obtain ⟨b, hb, hframe, sure, hrounded⟩ := h.rounded.exists_placeSections (Nat.le_add_right _ _)
    (fun x hx => hx) inOrder_sections hsize
  rw [hzip, ← placeRoutines_eq] at hb
  refine ⟨b, hb, by rw [hframe]; rfl, ?_⟩
  have hroutines := closed_routines (h.rounded.emitted.toLaid) (Nat.le_refl _)
  have hcalls := stubs_of_calls hrounded.emitted
    (List.forall_mem_append.mpr ⟨fun i hi => Item.isRegular_of_isPlain (h.plain i hi),
      hroutines.regular⟩)
    ((Opens.of_isPlain h.plain).append hroutines.opens)
    (fun r => hrounded.settled r (mem_seenAfter r))
  rw [labelError?, h.firstUnresolved_eq hrounded]
  cases p.openLabel? with
  | some i => rfl
  | none => simpa using hcalls

/-- **A compilation of all opcodes ends as the remaining reports say.** What remains is recorded
errors, registers that are missing and labels without a place, in the order in which the assembler
looks for them. -/
theorem Follows.exists_finish (h : Follows p o p.opcodes.toList items c) (source : String)
    (hsize : codeSize (items ++ c.emission p []) < 2 ^ 31) :
    ∃ b result, c.assembler.finish source = .ok (b, result) ∧
      match (p.recordedReports o.mode ++ p.restartReports o.globalMode ++ p.openReports).head? with
      | some e => result = .error e
      | none => ∃ object, result = .ok object ∧ object.registers = p.registerCount := by
  rw [List.head?_append, ← h.finishError?_eq, finish]
  rw [emission] at hsize
  cases herror : c.assembler.finishError? with
  | some e => exact ⟨_, _, rfl, rfl⟩
  | none =>
    rw [herror] at hsize
    obtain ⟨b, hb, hregisters, hlabel⟩ := h.exists_placeRoutines hsize
    have hcount : b.registers = p.registerCount := by
      have hnil : p.recordedReports o.mode = [] := by
        have hhead := h.finishError?_eq.symm.trans herror
        rw [List.head?_eq_none_iff, List.append_eq_nil_iff] at hhead
        exact hhead.1
      rw [hregisters]
      exact h.noted.registers hnil
    simp only [hb, hlabel, Option.none_or, Program.openReports, Bind.bind, Except.bind]
    cases p.openLabel? with
    | some i => exact ⟨_, _, rfl, rfl⟩
    | none => exact ⟨_, _, rfl, _, rfl, hcount⟩

end Compilation

namespace Program

open Assembler Compilation

/-- If all opcodes are compiled, what is emitted is the items of the opcodes and then those of the
routines. -/
theorem emission_of_steps {p : Program} {c d : Compilation} {ops : List Opcode}
    (h : c.steps p ops = .ok d) : c.emission p ops = c.items p ops ++ d.emission p [] := by
  induction ops generalizing c with
  | nil =>
    obtain rfl := Except.ok.inj h
    rfl
  | cons op ops ih =>
    obtain ⟨c', hc', h⟩ := bind_eq_ok.mp h
    simp only [Compilation.emission, Compilation.items, (step_eq_ok hc').1, hc', ih h,
      List.append_assoc]

/-- If there is code, it is all that was emitted. -/
theorem codeSize_emission {p : Program} {o : Options} {source : String} {heap : Nat → UInt64}
    {m : Matcher} (h : p.compile o source heap = .ok m) :
    codeSize (p.emission o heap) = m.object.buffer.size := by
  rw [size_of_compile h]
  obtain ⟨c, d, a, hc, hd, hfinish, -⟩ := compile_eq_ok h
  obtain ⟨hnone, -⟩ := object_of_finish hfinish
  simp only [emission, listing, hc, hd, emission_of_steps hd, Compilation.emission, hnone,
    List.append_assoc]

/-- **Compiling a program ends with the first report about it, or with code**, wherever its tables
are. If the operands are in range and less than `2 ^ 31` bytes are emitted, compiling breaks no
rule. It reports, in this order, the first opcode that is rejected, the first thing the assembler
records, a restart without the registers it needs, and the first label that is asked for and has no
place. If there is nothing to report, the code has a register for each one that a match reports or
an opcode touches. -/
theorem compile_outcome (p : Program) (o : Options) (source : String) (heap : Nat → UInt64)
    (hrange : ∀ op ∈ p.opcodes, op.InRange) (hsize : codeSize (p.emission o heap) < 2 ^ 31) :
    match (p.reports o).head? with
    | some e => p.compile o source heap = .error (.error e)
    | none => ∃ m, p.compile o source heap = .ok m ∧ m.object.registers = p.registerCount := by
  obtain ⟨c, hc, hfollows⟩ := exists_start p o heap
  rw [emission, hc] at hsize
  have hsteps := hfollows.exists_steps (by simpa using hrange) hsize
  rw [reports, List.append_assoc, List.append_assoc, List.head?_append]
  cases hhead : (p.rejectionsFrom o.mode [] p.opcodes.toList).head? with
  | some e =>
    rw [hhead] at hsteps
    simp only [Option.some_or, compile, hc, hsteps, Bind.bind, Except.bind]
  | none =>
    rw [hhead] at hsteps
    obtain ⟨d, items, hd, hfollows', hsize'⟩ := hsteps
    obtain ⟨b, result, hfinish, hresult⟩ := hfollows'.exists_finish source hsize'
    rw [Option.none_or, ← List.append_assoc]
    simp only [compile, hc, hd, hfinish, orFault, Bind.bind, Except.bind]
    cases hhead' : (p.recordedReports o.mode ++ p.restartReports o.globalMode ++
        p.openReports).head? with
    | some e =>
      rw [hhead'] at hresult
      rw [hresult]
      rfl
    | none =>
      rw [hhead'] at hresult
      obtain ⟨object, rfl, hregisters⟩ := hresult
      exact ⟨_, rfl, hregisters⟩

end Program

/-- Pushes a resumption point that has no place, after a load that names another in vain. -/
def Sample.dangling : Program where
  opcodes := #[.load (-1) (some ⟨0⟩) false 1, .pushBacktrack ⟨1⟩]
  labels := 2
  saved := 0

/-- A program with something to report, and one without. -/
theorem Program.compile_outcome_dangling :
    Sample.dangling.compile { mode := .latin1 } "" Sample.heap =
        .error (.error (.unboundLabel ⟨13⟩)) ∧
      ∃ m, Sample.pusher.compile { mode := .latin1 } "" Sample.heap = .ok m ∧
        m.object.registers = 0 := by
  have hdangling := compile_outcome Sample.dangling { mode := .latin1 } "" Sample.heap
    (by simp [Sample.dangling, Opcode.InRange, InReach]) (by decide +kernel)
  have hopen : (Sample.dangling.reports { mode := .latin1 }).head? =
      some (.unboundLabel ⟨13⟩) := by decide
  rw [hopen] at hdangling
  obtain ⟨m, hm, hlen⟩ := Sample.exists_compile_pusher
  have hpusher := compile_outcome Sample.pusher { mode := .latin1 } "" Sample.heap
    (by simp [Sample.pusher, Opcode.InRange])
    (by
      rw [codeSize_emission hm, hlen]
      decide)
  have hnone : (Sample.pusher.reports { mode := .latin1 }).head? = none := by decide
  rw [hnone] at hpusher
  exact ⟨hdangling, hpusher⟩

end NativeMatcher
