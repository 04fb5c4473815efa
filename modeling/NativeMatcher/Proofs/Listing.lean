import NativeMatcher.Proofs.Layout

/-!
# The listing of a compiled program

The items that compiling a program emits, in order: the jump to the entry sequence, the
items of the opcodes, the routines (`NativeMatcher.Program.listing`). Which items those are
depends on the assembler – a local label has the next free number, a routine is emitted only
if its label is used – so the listing follows the assembler step by step.

Compiled code is the layout of its listing, with every label in its place
(`NativeMatcher.Program.exists_laid`). So each field holds what its label asks for, however
often and in whatever order labels were used and bound, and the other bytes are those that
were emitted (`NativeMatcher.Program.fields_of_compile`).
-/

namespace NativeMatcher

open Assembly Code X64

namespace Assembler

/-! ### The items of opcodes -/

/-- The items that one stage of an opcode emits. -/
def stageItems (a : Assembler) : Opcode → List Item
  | .bind l => if a.isBound l then [] else [.bind l]
  | op =>
    match lower a.mode a.labels.size a.nextTable a.isBound op with
    | .ok b => b.items
    | .error _ => []

/-- The items that the stages of an opcode emit. -/
def stagesItems (a : Assembler) : List Opcode → List Item
  | [] => []
  | op :: ops => a.stageItems op ++ match a.emitStage op with
    | .ok b => b.stagesItems ops
    | .error _ => []

/-- The items that an opcode emits. -/
def opItems (a : Assembler) (op : Opcode) : List Item :=
  if a.refuses op then []
  else match stages op with
    | .ok ops => a.stagesItems ops
    | .error _ => []

/-! ### The items of the routines -/

/-- A routine, and the label it is emitted for if it is not always emitted. -/
structure Section where
  /-- The label that has to be used. -/
  label : Option Reserved
  /-- The items. -/
  items : Assembler → List Item

/-- The routines in the order they are emitted. -/
def sections : List Section :=
  [⟨none, fun a => entry a.mode a.registers a.labels.size⟩,
    ⟨some .success, fun a => success a.mode a.globalMode a.saved a.labels.size⟩,
    ⟨none, fun a => exit a.globalMode⟩,
    ⟨some .backtrack, fun a => backtrack a.backtrackLimit a.canFallback a.labels.size⟩,
    ⟨some .fail, fun _ => failExit⟩,
    ⟨some .checkPreempt, fun _ => checkPreempt⟩,
    ⟨some .stackOverflow, fun _ => growStack⟩,
    ⟨some .exception, fun _ => statusExit .exception statusException⟩,
    ⟨some .fallback, fun _ => statusExit .fallback statusFallback⟩]

/-- Emits a routine if it is needed. -/
def placeSection (a : Assembler) (s : Section) : Except Fault Assembler :=
  match s.label with
  | some r => a.placeIfLinked r s.items
  | none => a.placeAll (s.items a)

theorem placeRoutines_eq (a : Assembler) : a.placeRoutines = sections.foldlM placeSection a := by
  simp only [sections, List.foldlM_cons, List.foldlM_nil, bind_pure]
  rfl

/-- The items of a routine, if it is needed. -/
def sectionItems (a : Assembler) (s : Section) : List Item :=
  match s.label with
  | some r =>
    match a.labels.isLinked r.label with
    | .ok true => s.items a
    | _ => []
  | none => s.items a

/-- The items of routines. -/
def sectionsItems (a : Assembler) : List Section → List Item
  | [] => []
  | s :: ss => a.sectionItems s ++ match a.placeSection s with
    | .ok b => b.sectionsItems ss
    | .error _ => []

end Assembler

/-! ### The items of a program -/

/-- The items that the opcodes of a program emit. -/
def Compilation.items (p : Program) (c : Compilation) : List Opcode → List Item
  | [] => []
  | op :: ops => c.assembler.opItems (op.mapLabels Label.shifted) ++ match c.step p op with
    | .ok d => d.items p ops
    | .error _ => []

/-- The items before the first opcode. -/
def opening : List Item := [.branch .jmp Reserved.entry.label, .bind Reserved.start.label]

/-- The items that compiling a program emits. -/
def Program.listing (p : Program) (o : Options) (heap : Nat → UInt64) : List Item :=
  match Compilation.start p o heap with
  | .error _ => []
  | .ok c => opening ++ c.items p p.opcodes.toList ++ match c.steps p p.opcodes.toList with
    | .error _ => []
    | .ok d => Assembler.sectionsItems { d.assembler with finalized := true } Assembler.sections

/-! ### The listing is what was emitted -/

/-- Code is handed out after the routines, if the labels are in order. -/
theorem Assembler.exists_of_finish {a b : Assembler} {source : String} {object : Object}
    (h : a.finish source = .ok (b, .ok object)) :
    ∃ c, placeRoutines { a with finalized := true } = .ok c ∧ c.labelError? = none ∧
      object = c.object source := by
  unfold finish at h
  split at h
  · cases h
  · obtain ⟨c, hc, h⟩ := bind_eq_ok.mp h
    split at h
    · cases h
    · next hlabels =>
      refine ⟨c, hc, hlabels, ?_⟩
      simpa using ((Prod.mk.inj (Except.ok.inj h)).2).symm

namespace Assembler.Laid

variable {n : Nat} {a b : Assembler} {items : List Item}

theorem buffer_touch (a : Assembler) (reg : Nat) :
    (a.touch reg).buffer = a.buffer ∧ (a.touch reg).labels = a.labels := by
  unfold touch
  split <;> exact ⟨rfl, rfl⟩

theorem foldl_touch (h : Laid n items a) (regs : List Nat) : Laid n items (regs.foldl touch a) := by
  induction regs generalizing a with
  | nil => exact h
  | cons r regs ih =>
    obtain ⟨hbuffer, hlabels⟩ := buffer_touch a r
    exact ih (h.of_eq hbuffer hlabels)

/-- Placing a block appends its items to the list. -/
theorem placeBlock (h : Laid n items a) {bl : Block} (hb : a.placeBlock bl = .ok b) :
    Laid n (items ++ bl.items) b := by
  simp only [Assembler.placeBlock] at hb
  refine Laid.placeAll ?_ hb
  cases bl.error with
  | none => exact (h.foldl_touch bl.registers).of_eq rfl rfl
  | some e => exact (h.foldl_touch bl.registers).of_eq rfl rfl

theorem isBound_eq {l : Label} {v : Bool} (h : a.labels.isBound l = .ok v) : a.isBound l = v := by
  rw [Assembler.isBound, h]

/-- A stage appends the items it is lowered to; binding a label is an item of its own. -/
theorem emitStage (h : Laid n items a) {op : Opcode} (hb : a.emitStage op = .ok b) :
    Laid n (items ++ a.stageItems op) b := by
  cases op with
  | bind l =>
    obtain ⟨v, hv, hb⟩ := bind_eq_ok.mp hb
    rw [stageItems, isBound_eq hv]
    cases v with
    | true =>
      have hrecord : Laid n items (a.record (.labelRebound l)) := h.of_eq rfl rfl
      obtain rfl := Except.ok.inj hb
      simpa using hrecord
    | false =>
      have hplace : a.place (.bind l) = .ok b := hb
      exact h.place hplace
  | _ =>
    obtain ⟨bl, hbl, hb⟩ := bind_eq_ok.mp hb
    simp only [stageItems, hbl]
    exact h.placeBlock hb

/-- Stages append their items one after another. -/
theorem emitStages (h : Laid n items a) {ops : List Opcode} (hb : a.emitStages ops = .ok b) :
    Laid n (items ++ a.stagesItems ops) b := by
  induction ops generalizing a items with
  | nil =>
    obtain rfl := Except.ok.inj hb
    simpa [stagesItems] using h
  | cons op ops ih =>
    obtain ⟨a', ha', hb⟩ := bind_eq_ok.mp hb
    rw [stagesItems, ha', ← List.append_assoc]
    exact ih (h.emitStage ha') hb

/-- An opcode appends its items, and one that is refused appends none. -/
theorem emit (h : Laid n items a) {op : Opcode} (hb : a.emit op = .ok b) :
    Laid n (items ++ a.opItems op) b := by
  unfold Assembler.emit at hb
  unfold opItems
  split at hb
  · next hr =>
    obtain rfl := Except.ok.inj hb
    rw [if_pos hr]
    simpa using h
  · next hr =>
    obtain ⟨ops, hops, hb⟩ := bind_eq_ok.mp hb
    rw [if_neg hr, hops]
    exact h.emitStages hb

/-- A routine appends its items, if it is one that is always there or if its label was asked for. -/
theorem placeSection (h : Laid n items a) {s : Section} (hb : a.placeSection s = .ok b) :
    Laid n (items ++ a.sectionItems s) b := by
  unfold Assembler.placeSection at hb
  unfold sectionItems
  cases hs : s.label with
  | none =>
    rw [hs] at hb
    exact h.placeAll hb
  | some r =>
    rw [hs] at hb
    obtain ⟨linked, hlinked, hb⟩ := bind_eq_ok.mp hb
    simp only [hlinked]
    cases linked with
    | true => exact h.placeAll hb
    | false =>
      obtain rfl := Except.ok.inj hb
      simpa using h

/-- The routines append theirs in order. Whether one is there may depend on the routines before it,
so the induction carries the assembler along. -/
theorem placeSections (h : Laid n items a) {ss : List Section}
    (hb : ss.foldlM Assembler.placeSection a = .ok b) :
    Laid n (items ++ a.sectionsItems ss) b := by
  induction ss generalizing a items with
  | nil =>
    obtain rfl := Except.ok.inj hb
    simpa [sectionsItems] using h
  | cons s ss ih =>
    rw [List.foldlM_cons] at hb
    obtain ⟨a', ha', hb⟩ := bind_eq_ok.mp hb
    rw [sectionsItems, ha', ← List.append_assoc]
    exact ih (h.placeSection ha') hb

/-- A new assembler has emitted the jump to the entry sequence and has bound the label of the first
opcode. -/
theorem new {mode : Mode} {saved : Nat} {heap : Nat → UInt64}
    (h : Assembler.new mode saved heap = .ok a) : Laid reservedLabels opening a := by
  have hnil : Laid 0 []
      ({ mode := mode, registers := saved, saved := saved, heap := heap } : Assembler) :=
    .nil rfl rfl
  have hstart := hnil.declareMany reservedLabels
  rw [Nat.zero_add] at hstart
  suffices hopening : Laid reservedLabels ([] ++ opening) a by simpa using hopening
  refine Laid.placeAll (hstart.of_eq ?_ ?_) h
  · split <;> rfl
  · split <;> rfl

end Assembler.Laid

namespace Program

open Assembler

/-- A compilation starts with that opening, as settings and program labels add nothing to the
code. -/
theorem laid_start {p : Program} {o : Options} {heap : Nat → UInt64} {c : Compilation}
    (h : Compilation.start p o heap = .ok c) : Laid reservedLabels opening c.assembler := by
  obtain ⟨a, ha, h⟩ := bind_eq_ok.mp h
  have hnew := Laid.new (Compilation.eq_ok_of_orFault ha)
  obtain rfl := Except.ok.inj h
  refine Laid.mono (Laid.declareMany ?_ p.labels) (Nat.le_add_right _ _)
  split <;> exact hnew.of_eq rfl rfl

theorem laid_step {p : Program} {n : Nat} {c d : Compilation} {op : Opcode} {items : List Item}
    (h : Laid n items c.assembler) (hd : c.step p op = .ok d) :
    Laid n (items ++ c.assembler.opItems (op.mapLabels Label.shifted)) d.assembler :=
  h.emit (Compilation.step_eq_ok hd).2.2

/-- The opcodes of a program append the items of the listing. -/
theorem laid_steps {p : Program} {n : Nat} {c d : Compilation} {ops : List Opcode}
    {items : List Item}
    (h : Laid n items c.assembler) (hd : c.steps p ops = .ok d) :
    Laid n (items ++ c.items p ops) d.assembler := by
  induction ops generalizing c items with
  | nil =>
    obtain rfl := Except.ok.inj hd
    simpa [Compilation.items] using h
  | cons op ops ih =>
    obtain ⟨c', hc', hd⟩ := bind_eq_ok.mp hd
    rw [Compilation.items, hc', ← List.append_assoc]
    exact ih (laid_step h hc') hd

variable {p : Program} {o : Options} {source : String} {heap : Nat → UInt64} {m : Matcher}

/-- **Compiled code is the layout of its listing**: the code was emitted item by item, and no
label is left without a place. -/
theorem exists_laid (h : p.compile o source heap = .ok m) :
    ∃ a, Laid reservedLabels (p.listing o heap) a ∧ a.labelError? = none ∧
      m.object.buffer.bytes = a.buffer.bytes := by
  obtain ⟨c, d, a, hc, hd, hfinish, -⟩ := compile_eq_ok h
  obtain ⟨b, hroutines, hlabels, hobject⟩ := exists_of_finish hfinish
  have hlaid := laid_steps (laid_start hc) hd
  have hfinal : Laid _ _ { d.assembler with finalized := true } := hlaid.of_eq rfl rfl
  rw [placeRoutines_eq] at hroutines
  refine ⟨b, ?_, hlabels, by rw [hobject]; rfl⟩
  simp only [listing, hc, hd]
  exact hfinal.placeSections hroutines

theorem size_of_compile (h : p.compile o source heap = .ok m) :
    m.object.buffer.size = codeSize (p.listing o heap) := by
  obtain ⟨a, hlaid, -, hbytes⟩ := exists_laid h
  rw [Buffer.size, hbytes]
  exact hlaid.size_buffer

/-- An item without a field has its bytes at its code offset, whatever the code around it is. -/
theorem exists_bytes_of_mem_listing (h : p.compile o source heap = .ok m) {here : Nat} {i : Item}
    (hi : (here, i) ∈ placed 0 (p.listing o heap)) (hf : i.field? = none) :
    ∃ pre post, pre.length = here ∧ m.object.buffer.bytes.toList = pre ++ (i.head ++ post) := by
  obtain ⟨a, hlaid, -, hbytes⟩ := exists_laid h
  obtain ⟨pre, post, hlen, hsplit⟩ := layout_of_mem_placed (position (p.listing o heap)) hi
  refine ⟨pre, post, hlen, ?_⟩
  rw [hbytes, hlaid.bytes, hsplit, Item.bytes, hf, List.append_nil, List.append_assoc]

/-! ### The fields -/

/-- A label that a field depends on has a place in the end. -/
theorem exists_position_of_field {n : Nat} {a : Assembler} {items : List Item} {x : Nat × Item}
    {kind : Label.FieldKind} {l : Label} (h : Laid n items a) (hlabels : a.labelError? = none)
    (hx : x ∈ placed 0 items) (hf : x.2.field? = some (kind, l)) :
    ∃ target, position items l = some target := by
  have hlabel := Item.label?_of_field? hf
  obtain ⟨e, he⟩ := exists_entry (h.declared x.2 (mem_of_mem_placed hx) l hlabel)
  have hlinked : e.isLinked = false := not_isLinked_of_labelError? hlabels he
  cases hpos : e.pos with
  | some target => exact ⟨target, (h.pos l e he).symm.trans hpos⟩
  | none =>
    -- The field would still be listed.
    have huses := h.uses l e he
    have hmem : ⟨x.1 + x.2.head.length, kind⟩ ∈ fieldsOf items l :=
      List.mem_filterMap.mpr ⟨x, hx, by simp [Item.use?, hf]⟩
    have hempty : e.uses.toList = [] := by simpa [Label.Entry.isLinked, hpos] using hlinked
    have hnil : fieldsOf items l = [] := by simpa [hempty, hpos] using huses.symm
    simp [hnil] at hmem

/-- Four bytes in the middle of a buffer are read as the word they encode. -/
theorem read32_of_toList {b : Buffer} {pre post : List UInt8} {v : UInt32}
    (h : b.bytes.toList = pre ++ bytes32 v ++ post) (hsize : b.size < 2 ^ 31) :
    b.read32 pre.length = .ok v := by
  have hlen := congrArg List.length h
  simp only [List.length_append, length_bytes32, Array.length_toList] at hlen
  have hbound : pre.length + 4 ≤ b.size := by
    simp only [Buffer.size]
    omega
  have hwindow : b.window pre.length (pre.length + 4) = bytes32 v := by
    simp [Buffer.window, h]
  have hcheck : Checked.size .add (pre.length + 4) = .ok (pre.length + 4) :=
    Checked.size_eq_ok_iff.mpr ⟨by omega, rfl⟩
  simp only [Buffer.read32, hcheck, hwindow, ofBytes_bytes32, Nat.not_lt.mpr hbound, if_false,
    Bind.bind, Except.bind, pure, Except.pure]

/-- **Every field of compiled code leads to its label.** For each branch and each pushed
resumption point of the listing, the word in the code is the distance to the place of its label,
or that place; each label has the one place where it is bound, before or after the field; and
the bytes outside the fields are those that were emitted. No binding of a label touches a byte
that is not in a field waiting for it. -/
theorem fields_of_compile (h : p.compile o source heap = .ok m)
    (hsize : m.object.buffer.size < 2 ^ 31) :
    (∀ (here : Nat) (item : Item) (kind : Label.FieldKind) (l : Label),
      (here, item) ∈ placed 0 (p.listing o heap) → item.field? = some (kind, l) →
      ∃ target v, position (p.listing o heap) l = some target ∧
        m.object.buffer.read32 (here + item.head.length) = .ok v ∧
        match kind with
        | .rel32 => (v.toNat : Int) =
            ((target : Int) - ((here + item.head.length : Nat) + 4)) % 2 ^ 32
        | .codeOffset32 => v.toNat = target) ∧
    (∀ (here : Nat) (item : Item) (l : Label), (here, item) ∈ placed 0 (p.listing o heap) →
      item.binds l = true → position (p.listing o heap) l = some here) ∧
    (∀ k, (∀ (here : Nat) (item : Item), (here, item) ∈ placed 0 (p.listing o heap) →
        item.field?.isSome = true →
        k < here + item.head.length ∨ here + item.head.length + 4 ≤ k) →
      m.object.buffer.bytes[k]? = (layout (fun _ => none) (p.listing o heap))[k]?) ∧
    (∀ (a b : Assembler) (l : Label), a.bindLabel l = .ok b →
      ∃ e, a.labels.entry l = .ok e ∧
        ∀ k, (∀ u ∈ e.uses.toList, k < u.offset ∨ u.offset + 4 ≤ k) →
          b.buffer.bytes[k]? = a.buffer.bytes[k]?) := by
  obtain ⟨a, hlaid, hlabels, hbytes⟩ := exists_laid h
  have hcode : m.object.buffer.bytes.toList =
      layout (position (p.listing o heap)) (p.listing o heap) := by
    rw [hbytes, hlaid.bytes]
  refine ⟨fun here item kind l hx hf => ?_, fun here item l hx hl => hlaid.once _ hx l hl,
    fun k hk => ?_, fun a b l hb => ?_⟩
  · obtain ⟨target, htarget⟩ := exists_position_of_field hlaid hlabels hx hf
    obtain ⟨pre, post, hpre, hsplit⟩ := layout_of_mem_placed (position (p.listing o heap)) hx
    have hfield : m.object.buffer.bytes.toList = (pre ++ item.head) ++
        bytes32 (kind.value (here + item.head.length) target) ++ post := by
      rw [hcode, hsplit]
      simp [Item.bytes, hf, htarget]
    have hread := read32_of_toList hfield hsize
    rw [List.length_append, hpre] at hread
    refine ⟨target, _, htarget, hread, ?_⟩
    cases kind with
    | rel32 => exact toNat_ofInt _
    | codeOffset32 =>
      have hle := position_le_codeSize htarget
      have hlen := size_of_compile h
      simp only [Label.FieldKind.value, UInt32.toNat_ofNat']
      omega
  · rw [← Array.getElem?_toList, hcode]
    exact getElem?_layout_of_outside _ _ hk
  · obtain ⟨e, buffer, he, -, hpatch, rfl⟩ := Laid.eq_of_bindLabel hb
    exact ⟨e, he, fun k hk => getElem?_patchUses_of_outside hpatch hk⟩

end Program

/-- Pushes a resumption point and jumps back, over and over. -/
def Sample.pusher : Program where
  opcodes := #[.bind ⟨0⟩, .pushBacktrack ⟨1⟩, .bind ⟨1⟩, .goTo (some ⟨0⟩)]
  labels := 2
  saved := 0

/-- The sample program of this module and others compiles, to 367 bytes. -/
theorem Sample.exists_compile_pusher :
    ∃ m, pusher.compile { mode := .latin1 } "" Sample.heap = .ok m ∧
      m.object.buffer.size = 367 := by
  have hrun : (match pusher.compile { mode := .latin1 } "" Sample.heap with
      | .ok m => m.object.buffer.size == 367
      | .error _ => false) = true := by
    decide +kernel
  split at hrun
  · next m hm => exact ⟨m, hm, by simpa using hrun⟩
  · cases hrun

/-- Code with a resumption point that is bound after it is pushed, and a jump back to a label
that is bound before. -/
theorem Program.fields_of_compile_pusher :
    ∃ m, Sample.pusher.compile { mode := .latin1 } "" Sample.heap = .ok m ∧
      m.object.buffer.size < 2 ^ 31 ∧
      (∃ v, m.object.buffer.read32 11 = .ok v ∧ v.toNat = 34) ∧
      (∃ v, m.object.buffer.read32 53 = .ok v ∧ (v.toNat : Int) = (5 - 57) % 2 ^ 32) := by
  obtain ⟨m, hm, hlen⟩ := Sample.exists_compile_pusher
  have hsize : m.object.buffer.size < 2 ^ 31 := by
    rw [hlen]
    decide
  obtain ⟨hfields, -⟩ := fields_of_compile hm hsize
  have h13 : position (Sample.pusher.listing { mode := .latin1 } Sample.heap) ⟨13⟩ = some 34 := by
    decide +kernel
  have h12 : position (Sample.pusher.listing { mode := .latin1 } Sample.heap) ⟨12⟩ = some 5 := by
    decide +kernel
  obtain ⟨target, v, htarget, hread, hv⟩ :=
    hfields 9 (.storeTarget ⟨13⟩) .codeOffset32 ⟨13⟩ (by decide +kernel) rfl
  obtain ⟨target', v', htarget', hread', hv'⟩ :=
    hfields 52 (.branch .jmp ⟨12⟩) .rel32 ⟨12⟩ (by decide +kernel) rfl
  obtain rfl := Option.some.inj (h13.symm.trans htarget)
  obtain rfl := Option.some.inj (h12.symm.trans htarget')
  exact ⟨m, hm, hsize, ⟨v, hread, hv⟩, ⟨v', hread', hv'⟩⟩

end NativeMatcher
