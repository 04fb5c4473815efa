import NativeMatcher.Proofs.Listing

/-!
# Items that can be placed

When emitting a list of items cannot fault. An item goes wrong in four ways: it names a
label that was never declared, it binds a label that has a place, a distance or a code offset
does not fit its field, or the buffer is protected. So a list of items is placed if

* every label is declared before an item names it (`NativeMatcher.Assembly.Scoped`);
* no label is bound twice, neither in the list nor by the items before it
  (`NativeMatcher.Assembly.bindings`);
* the code stays below `2 ^ 31` bytes;
* the buffer is writable, which emission keeps.

`NativeMatcher.Assembler.Emitted.exists_placeAll` puts them together. What a list does to the
label table can then be read off it: which labels it declares, binds and uses.
-/

namespace NativeMatcher

open Assembly Code X64

namespace Assembly

/-! ### What a list of items says about labels -/

/-- How many labels an item declares. -/
def Item.declares : Item → Nat
  | .declare => 1
  | _ => 0

/-- The label an item gives a place. -/
def Item.bound? : Item → Option Label
  | .bind l | .stub l => some l
  | _ => none

/-- The label whose place an item asks for. -/
def Item.target? : Item → Option Label
  | .branch _ l | .storeTarget l => some l
  | _ => none

/-- How many labels a list of items declares. -/
def declares : List Item → Nat
  | [] => 0
  | i :: is => i.declares + declares is

/-- The labels that a list of items gives places. -/
def bindings (items : List Item) : List Label := items.filterMap Item.bound?

/-- The labels whose places a list of items asks for. -/
def targets (items : List Item) : List Label := items.filterMap Item.target?

/-- Every label is declared before an item names it, and `n` labels are declared before. -/
def Scoped : (n : Nat) → List Item → Prop
  | _, [] => True
  | n, i :: is => (∀ l, i.label? = some l → l.index < n) ∧ Scoped (n + i.declares) is

@[simp] theorem declares_nil : declares [] = 0 := rfl

@[simp] theorem declares_cons (i : Item) (is : List Item) :
    declares (i :: is) = i.declares + declares is := rfl

@[simp] theorem declares_append (is js : List Item) :
    declares (is ++ js) = declares is + declares js := by
  induction is with
  | nil => exact (Nat.zero_add _).symm
  | cons i is ih => rw [List.cons_append, declares_cons, declares_cons, ih, Nat.add_assoc]

@[simp] theorem declares_instrs (is : List Instr) : declares (is.map .instr) = 0 := by
  induction is with
  | nil => rfl
  | cons i is ih => simpa [Item.declares] using ih

@[simp] theorem bindings_nil : bindings [] = [] := rfl

@[simp] theorem bindings_cons (i : Item) (is : List Item) :
    bindings (i :: is) = i.bound?.toList ++ bindings is := by
  cases h : i.bound? <;> simp [bindings, h]

@[simp] theorem bindings_append (is js : List Item) :
    bindings (is ++ js) = bindings is ++ bindings js := by
  simp [bindings]

@[simp] theorem bindings_instrs (is : List Instr) : bindings (is.map .instr) = [] := by
  simp [bindings, Item.bound?]

@[simp] theorem targets_nil : targets [] = [] := rfl

@[simp] theorem targets_cons (i : Item) (is : List Item) :
    targets (i :: is) = i.target?.toList ++ targets is := by
  cases h : i.target? <;> simp [targets, h]

@[simp] theorem targets_append (is js : List Item) :
    targets (is ++ js) = targets is ++ targets js := by
  simp [targets]

@[simp] theorem targets_instrs (is : List Instr) : targets (is.map .instr) = [] := by
  simp [targets, Item.target?]

@[simp] theorem scoped_nil (n : Nat) : Scoped n [] := trivial

theorem scoped_cons (n : Nat) (i : Item) (is : List Item) :
    Scoped n (i :: is) ↔
      (∀ l, i.label? = some l → l.index < n) ∧ Scoped (n + i.declares) is := Iff.rfl

@[simp] theorem scoped_instr (n : Nat) (i : Instr) (is : List Item) :
    Scoped n (.instr i :: is) ↔ Scoped n is := by
  simp [scoped_cons, Item.label?, Item.declares]

@[simp] theorem scoped_declare (n : Nat) (is : List Item) :
    Scoped n (.declare :: is) ↔ Scoped (n + 1) is := by
  simp [scoped_cons, Item.label?, Item.declares]

@[simp] theorem scoped_branch (n : Nat) (b : Branch) (l : Label) (is : List Item) :
    Scoped n (.branch b l :: is) ↔ l.index < n ∧ Scoped n is := by
  simp [scoped_cons, Item.label?, Item.declares]

@[simp] theorem scoped_bind (n : Nat) (l : Label) (is : List Item) :
    Scoped n (.bind l :: is) ↔ l.index < n ∧ Scoped n is := by
  simp [scoped_cons, Item.label?, Item.declares]

@[simp] theorem scoped_stub (n : Nat) (l : Label) (is : List Item) :
    Scoped n (.stub l :: is) ↔ l.index < n ∧ Scoped n is := by
  simp [scoped_cons, Item.label?, Item.declares]

@[simp] theorem scoped_storeTarget (n : Nat) (l : Label) (is : List Item) :
    Scoped n (.storeTarget l :: is) ↔ l.index < n ∧ Scoped n is := by
  simp [scoped_cons, Item.label?, Item.declares]

@[simp] theorem scoped_append (n : Nat) (is js : List Item) :
    Scoped n (is ++ js) ↔ Scoped n is ∧ Scoped (n + declares is) js := by
  induction is generalizing n with
  | nil => simp
  | cons i is ih => simp [scoped_cons, ih, and_assoc, Nat.add_assoc]

@[simp] theorem scoped_instrs (n : Nat) (is : List Instr) : Scoped n (is.map .instr) := by
  induction is with
  | nil => trivial
  | cons i is ih => simpa using ih

theorem Item.binds_iff {i : Item} {l : Label} : i.binds l = true ↔ i.bound? = some l := by
  cases i <;> simp [binds, bound?]

theorem Item.label?_of_bound? {i : Item} {l : Label} (h : i.bound? = some l) :
    i.label? = some l :=
  label?_of_binds (binds_iff.mpr h)

theorem Item.target?_eq (i : Item) : i.target? = i.field?.map Prod.snd := by
  cases i <;> rfl

/-- A label has a place exactly if it is bound. -/
theorem isSome_position {items : List Item} {l : Label} :
    (position items l).isSome = true ↔ l ∈ bindings items := by
  rw [position, Option.isSome_map, List.find?_isSome, bindings, List.mem_filterMap]
  constructor
  · rintro ⟨x, hx, hbinds⟩
    exact ⟨x.2, mem_of_mem_placed hx, Item.binds_iff.mp hbinds⟩
  · rintro ⟨i, hi, hbound⟩
    rw [← map_snd_placed 0 items] at hi
    obtain ⟨x, hx, rfl⟩ := List.mem_map.mp hi
    exact ⟨x, hx, Item.binds_iff.mpr hbound⟩

theorem position_eq_none_iff {items : List Item} {l : Label} :
    position items l = none ↔ l ∉ bindings items := by
  rw [← isSome_position]
  cases position items l <;> simp

/-- A label has fields exactly if it is a target. -/
theorem fieldsOf_eq_nil_iff {items : List Item} {l : Label} :
    fieldsOf items l = [] ↔ l ∉ targets items := by
  rw [fieldsOf, List.filterMap_eq_nil_iff, targets, List.mem_filterMap]
  have huse (x : Nat × Item) : x.2.use? l x.1 = none ↔ x.2.target? ≠ some l := by
    rw [Item.target?_eq, Item.use?]
    rcases x.2.field? with _ | ⟨kind, k⟩
    · simp
    · simp
  constructor
  · rintro h ⟨i, hi, htarget⟩
    rw [← map_snd_placed 0 items] at hi
    obtain ⟨x, hx, rfl⟩ := List.mem_map.mp hi
    exact (huse x).mp (h x hx) htarget
  · intro h x hx
    exact (huse x).mpr fun htarget => h ⟨x.2, mem_of_mem_placed hx, htarget⟩

/-- A field lies inside the code. -/
theorem offset_of_mem_fieldsOf {items : List Item} {l : Label} {u : Label.Use}
    (h : u ∈ fieldsOf items l) : u.offset + 4 ≤ codeSize items := by
  obtain ⟨x, hx, huse⟩ := List.mem_filterMap.mp h
  obtain ⟨kind, hfield, rfl⟩ := Item.use?_eq_some huse
  obtain ⟨is, js, rfl, hhere⟩ := exists_append_of_mem_placed hx
  have hsize : x.2.size = x.2.head.length + 4 := by simp [Item.size, hfield]
  simp only [codeSize_append, codeSize_cons]
  omega

end Assembly

/-! ### Fields and buffers -/

theorem Label.signed64_of_lt {n : Nat} (h : n < 2 ^ 31) : signed64 n = n := by
  have hn : n < 9223372036854775808 := by omega
  exact Int.bmod_eq_of_le (by omega) (by omega)

/-- A field of code below `2 ^ 31` bytes holds what its label asks for. -/
theorem Label.FieldKind.exists_resolve (kind : Label.FieldKind) {offset target : Nat}
    (hoffset : offset + 4 < 2 ^ 31) (htarget : target < 2 ^ 31) :
    ∃ v, kind.resolve offset target = .ok v := by
  cases kind with
  | codeOffset32 =>
    refine ⟨UInt32.ofNat target, ?_⟩
    rw [resolve, if_pos (by omega)]
  | rel32 =>
    have hnext : word64 .add (signed64 offset + 4) = .ok ((offset : Int) + 4) := by
      rw [signed64_of_lt (by omega), word64, if_pos (by omega)]
    have hdistance : distance ((offset : Int) + 4) target =
        .ok ((target : Int) - (offset + 4)) := by
      rw [distance, signed64_of_lt htarget, word64, if_pos (by omega)]
    have hrange : -2147483648 ≤ (target : Int) - (offset + 4) ∧
        (target : Int) - (offset + 4) ≤ 2147483647 := by omega
    refine ⟨UInt32.ofInt ((target : Int) - (offset + 4)), ?_⟩
    refine Assembler.bind_eq_ok.mpr ⟨_, hnext, Assembler.bind_eq_ok.mpr ⟨_, hdistance, ?_⟩⟩
    simp only [hrange, and_self, if_true]

namespace Code.Buffer

theorem exists_append {b : Buffer} (h : b.executable = false) (bs : List UInt8) :
    ∃ c, b.append bs = .ok c ∧ c.executable = false := by
  obtain ⟨d, hd, hexec⟩ : ∃ d, b.reserve bs.length = .ok d ∧ d.executable = false := by
    unfold reserve
    split
    · exact ⟨b, rfl, h⟩
    · simp [h]
  refine ⟨{ d with bytes := d.bytes.appendList bs }, ?_, hexec⟩
  simp only [append, hd, hexec, Bind.bind, Except.bind, Bool.false_and, Bool.false_eq_true,
    if_false]
  rfl

/-- A word inside a writable buffer can be patched. -/
theorem exists_patch32 {b : Buffer} (h : b.executable = false) {offset : Nat} (v : UInt32)
    (hsize : b.size < 2 ^ 31) (hoffset : offset + 4 ≤ b.size) :
    ∃ c, b.patch32 offset v = .ok c ∧ c.executable = false ∧ c.size = b.size := by
  have hcheck : Checked.size .add (offset + 4) = .ok (offset + 4) :=
    Checked.size_eq_ok_iff.mpr ⟨by omega, rfl⟩
  refine ⟨{ b with bytes := overwrite b.bytes offset (bytes32 v) }, ?_, h, ?_⟩
  · simp only [patch32, hcheck, h, Nat.not_lt.mpr hoffset, if_false, Bind.bind, Except.bind]
    rfl
  · simp [size]

end Code.Buffer

namespace Assembler

/-- All uses of a label can be patched while the code is shorter than a displacement reaches: then
every distance has a sign and 31 bits. -/
theorem exists_patchUses {b : Buffer} (h : b.executable = false) {target : Nat}
    {uses : List Label.Use} (hsize : b.size < 2 ^ 31) (htarget : target < 2 ^ 31)
    (huses : ∀ u ∈ uses, u.offset + 4 ≤ b.size) :
    ∃ c, patchUses b target uses = .ok c ∧ c.executable = false := by
  induction uses generalizing b with
  | nil => exact ⟨b, rfl, h⟩
  | cons u us ih =>
    rw [List.forall_mem_cons] at huses
    obtain ⟨v, hv⟩ : ∃ v, u.kind.resolve u.offset target = .ok v :=
      u.kind.exists_resolve (by omega) htarget
    obtain ⟨d, hd, hexec, hlen⟩ := Buffer.exists_patch32 h v hsize huses.1
    obtain ⟨c, hc, hexec'⟩ := ih hexec (hlen ▸ hsize) (hlen ▸ huses.2)
    refine ⟨c, ?_, hexec'⟩
    simp only [patchUses, hv, hd, Bind.bind, Except.bind]
    exact hc

/-! ### One item -/

/-- The assembler with the code, the labels, the calls and the stubs of another one. -/
def withCode (a b : Assembler) : Assembler :=
  { a with buffer := b.buffer, labels := b.labels, callSites := b.callSites, stubs := b.stubs }

/-- An assembler after one from which it differs in the code and in what is known of the labels,
and which still has a writable buffer. -/
structure Continues (a b : Assembler) : Prop where
  /-- The buffer is writable. -/
  writable : b.buffer.executable = false
  /-- There are as many labels. -/
  labels : b.labels.size = a.labels.size
  /-- All else is as before. -/
  frame : b = { a with buffer := b.buffer, labels := b.labels }

theorem Continues.calls {a b : Assembler} (h : a.Continues b) : b.callSites = a.callSites := by
  rw [h.frame]

theorem Continues.stubs {a b : Assembler} (h : a.Continues b) : b.stubs = a.stubs := by
  rw [h.frame]

theorem Continues.withCode_eq {a b : Assembler} (h : a.Continues b) : b = a.withCode b :=
  h.frame.trans (by rw [withCode, h.calls, h.stubs])

section Item

variable {n : Nat} {a : Assembler} {items : List Item} (h : Laid n items a)
  (hw : a.buffer.executable = false)

include hw in
theorem exists_append (bs : List UInt8) : ∃ b, a.append bs = .ok b ∧ a.Continues b := by
  obtain ⟨buffer, hbuffer, hexec⟩ := Buffer.exists_append hw bs
  exact ⟨_, bind_eq_ok.mpr ⟨buffer, hbuffer, rfl⟩, ⟨hexec, rfl, rfl⟩⟩

include hw in
/-- A field of a label without a place is emitted and listed. -/
theorem exists_blank {l : Label} {e : Label.Entry} (he : a.labels.entry l = .ok e)
    (hnone : e.pos = none) (bs : List UInt8) (kind : Label.FieldKind) :
    ∃ b, (do
        let a ← a.append bs
        let labels ← a.labels.addUse l ⟨a.buffer.size - 4, kind⟩
        return { a with labels := labels }) = .ok b ∧ a.Continues b := by
  obtain ⟨buffer, hbuffer, hexec⟩ := Buffer.exists_append hw bs
  have hadd : a.labels.addUse l ⟨buffer.size - 4, kind⟩ =
      .ok (a.labels.set l { e with uses := e.uses.push ⟨buffer.size - 4, kind⟩ }) :=
    bind_eq_ok.mpr ⟨e, he, by simp only [hnone]⟩
  refine ⟨_, bind_eq_ok.mpr ⟨_, bind_eq_ok.mpr ⟨buffer, hbuffer, rfl⟩,
    bind_eq_ok.mpr ⟨_, hadd, rfl⟩⟩, ?_⟩
  exact ⟨hexec, Label.Table.size_set .., rfl⟩

include h hw

/-- A label that is not bound yet can be bound. -/
theorem exists_bindLabel {l : Label} (hl : l.index < a.labels.size) (hbound : l ∉ bindings items)
    (hsize : codeSize items < 2 ^ 31) : ∃ b, a.bindLabel l = .ok b ∧ a.Continues b := by
  obtain ⟨e, he⟩ := exists_entry hl
  have hnone : e.pos = none := (h.pos l e he).trans (position_eq_none_iff.mpr hbound)
  have huses : e.uses.toList = fieldsOf items l := by
    rw [h.uses l e he, hnone]
    rfl
  have hbuffer := h.size_buffer
  obtain ⟨buffer, hpatch, hexec⟩ : ∃ c, patchUses a.buffer a.buffer.size e.uses.toList = .ok c ∧
      c.executable = false := by
    refine exists_patchUses hw (by omega) (by omega) fun u hu => ?_
    rw [huses] at hu
    exact hbuffer ▸ offset_of_mem_fieldsOf hu
  have hbind : a.labels.bind l a.buffer.size =
      .ok (a.labels.set l { pos := some a.buffer.size }, e.uses.toList) :=
    bind_eq_ok.mpr ⟨e, he, by simp only [hnone]⟩
  refine ⟨_, bind_eq_ok.mpr ⟨_, hbind, bind_eq_ok.mpr ⟨buffer, hpatch, rfl⟩⟩, ?_⟩
  exact ⟨hexec, Label.Table.size_set .., rfl⟩

/-- A branch can be emitted to any label there is, bound or not. -/
theorem exists_branchTo (br : Branch) {l : Label} (hl : l.index < a.labels.size)
    (hsize : codeSize items < 2 ^ 31) : ∃ b, a.branchTo br l = .ok b ∧ a.Continues b := by
  obtain ⟨e, he⟩ := exists_entry hl
  have hentry : a.labels.pos l = .ok e.pos := by
    rw [Label.Table.pos, he]
    rfl
  cases hpos : e.pos with
  | none =>
    obtain ⟨b, hb, hcont⟩ := exists_blank hw he hpos (Instr.branch br 0).encode .rel32
    exact ⟨b, bind_eq_ok.mpr ⟨none, hpos ▸ hentry, hb⟩, hcont⟩
  | some target =>
    have htarget : target ≤ codeSize items :=
      position_le_codeSize ((h.pos l e he).symm.trans hpos)
    have hlen : br.bytes.length ≤ 2 := by cases br <;> simp [Branch.bytes]
    have hbuffer := h.size_buffer
    obtain ⟨i, hi⟩ : ∃ i, br.between a.buffer.size target = .ok i :=
      Branch.exists_between (by omega) (by omega)
    obtain ⟨b, hb, hcont⟩ := exists_append hw i.encode
    exact ⟨b, bind_eq_ok.mpr ⟨some target, hpos ▸ hentry, bind_eq_ok.mpr ⟨i, hi, hb⟩⟩, hcont⟩

omit h in
/-- So can the store of a resumption point. -/
theorem exists_storeTarget {l : Label} (hl : l.index < a.labels.size) :
    ∃ b, a.storeTarget l = .ok b ∧ a.Continues b := by
  obtain ⟨e, he⟩ := exists_entry hl
  have hentry : a.labels.pos l = .ok e.pos := by
    rw [Label.Table.pos, he]
    rfl
  cases hpos : e.pos with
  | none =>
    obtain ⟨b, hb, hcont⟩ :=
      exists_blank hw he hpos (Instr.storeImm .w32 backtrackSp 0 0).encode .codeOffset32
    exact ⟨b, bind_eq_ok.mpr ⟨none, hpos ▸ hentry, hb⟩, hcont⟩
  | some target =>
    obtain ⟨b, hb, hcont⟩ :=
      exists_append hw (Instr.storeImm .w32 backtrackSp 0 (Int32.ofNat target)).encode
    exact ⟨b, bind_eq_ok.mpr ⟨some target, hpos ▸ hentry, hb⟩, hcont⟩

end Item

/-! ### The invariant of emission -/

/-- An assembler has emitted a list of items, can emit more, and has taken note of the calls
and the stubs among them. -/
structure Emitted (items : List Item) (a : Assembler) : Prop extends
    Laid reservedLabels items a where
  /-- The buffer is writable. -/
  writable : a.buffer.executable = false
  /-- The calls are noted. -/
  calls : ∀ l ∈ a.callSites, .branch .call l ∈ items
  /-- The stubs are noted. -/
  stubs : ∀ l, .stub l ∈ items → l ∈ a.stubs

namespace Emitted

variable {a b : Assembler} {items : List Item}

theorem of_eq (h : Emitted items a) (hbuffer : b.buffer = a.buffer) (hlabels : b.labels = a.labels)
    (hcalls : b.callSites = a.callSites) (hstubs : b.stubs = a.stubs) : Emitted items b :=
  ⟨h.toLaid.of_eq hbuffer hlabels, hbuffer ▸ h.writable, hcalls ▸ h.calls, hstubs ▸ h.stubs⟩

/-- What is left to show after one more item. -/
theorem append_singleton (h : Emitted items a) {i : Item} (hb : a.place i = .ok b)
    (hw : b.buffer.executable = false)
    (hcalls : ∀ l ∈ b.callSites, l ∈ a.callSites ∨ i = .branch .call l)
    (hstubs : ∀ l, l ∈ a.stubs ∨ i = .stub l → l ∈ b.stubs) : Emitted (items ++ [i]) b := by
  refine ⟨h.toLaid.place hb, hw, fun l hl => ?_, fun l hl => hstubs l ?_⟩
  · rcases hcalls l hl with hl | rfl
    · exact List.mem_append_left _ (h.calls l hl)
    · exact List.mem_append_right _ (List.mem_singleton_self _)
  · rcases List.mem_append.mp hl with hl | hl
    · exact .inl (h.stubs l hl)
    · exact .inr (List.mem_singleton.mp hl).symm

/-- Where an item is neither a call nor a stub, nothing is noted. -/
theorem of_continues (h : Emitted items a) {i : Item} (hb : a.place i = .ok b)
    (hcont : a.Continues b) (hstub : ∀ l, i ≠ .stub l) : Emitted (items ++ [i]) b := by
  refine h.append_singleton hb hcont.writable (fun l hl => ?_) (fun l hl => ?_)
  · exact .inl (hcont.calls ▸ hl)
  · exact hcont.stubs ▸ hl.resolve_right (hstub l)

/-- **One item is placed** if its label is declared and not bound before. This is where a fault of
the assembler is ruled out. The cases are those of the item, and of its label having its place
already or not. -/
theorem exists_place (h : Emitted items a) {i : Item}
    (hlabel : ∀ l, i.label? = some l → l.index < a.labels.size)
    (hbound : ∀ l, i.bound? = some l → l ∉ bindings items)
    (hsize : codeSize items < 2 ^ 31) :
    ∃ b, a.place i = .ok b ∧ Emitted (items ++ [i]) b ∧
      b.labels.size = a.labels.size + i.declares ∧ b = a.withCode b := by
  cases i with
  | instr i =>
    obtain ⟨b, hb, hcont⟩ := exists_append h.writable i.encode
    exact ⟨b, hb, h.of_continues hb hcont (by simp), hcont.labels, hcont.withCode_eq⟩
  | branch br l =>
    by_cases hcall : br = .call
    · subst hcall
      have hlaid : Laid reservedLabels items { a with callSites := a.callSites.push l } :=
        h.toLaid.of_eq rfl rfl
      obtain ⟨b, hb, hcont⟩ := exists_branchTo hlaid h.writable .call (hlabel l rfl) hsize
      refine ⟨b, hb, h.append_singleton hb hcont.writable (fun k hk => ?_) (fun k hk => ?_),
        hcont.labels, hcont.withCode_eq⟩
      · rw [hcont.calls, Array.mem_push] at hk
        rcases hk with hk | rfl
        · exact .inl hk
        · exact .inr rfl
      · rw [hcont.stubs]
        exact hk.resolve_right (by simp)
    · obtain ⟨b, hb, hcont⟩ := exists_branchTo h.toLaid h.writable br (hlabel l rfl) hsize
      have hplace : a.place (.branch br l) = .ok b := by
        simpa only [place, hcall, if_false] using hb
      exact ⟨b, hplace, h.of_continues hplace hcont (by simp), hcont.labels, hcont.withCode_eq⟩
  | declare =>
    refine ⟨_, rfl, h.append_singleton rfl h.writable (fun k hk => .inl hk) (fun k hk => ?_),
      Label.Table.size_declare _, rfl⟩
    exact hk.resolve_right (by simp)
  | bind l =>
    obtain ⟨b, hb, hcont⟩ :=
      exists_bindLabel h.toLaid h.writable (hlabel l rfl) (hbound l rfl) hsize
    exact ⟨b, hb, h.of_continues hb hcont (by simp), hcont.labels, hcont.withCode_eq⟩
  | stub l =>
    obtain ⟨c, hc, hcont⟩ :=
      exists_bindLabel h.toLaid h.writable (hlabel l rfl) (hbound l rfl) hsize
    have hw : ({ c with stubs := l :: c.stubs } : Assembler).buffer.executable = false :=
      hcont.writable
    obtain ⟨b, hb, hcont'⟩ := exists_append hw (Instr.aluStore .sub .w64 .rsp 0 codeBase).encode
    have hplace : a.place (.stub l) = .ok b := bind_eq_ok.mpr ⟨c, hc, hb⟩
    refine ⟨b, hplace, h.append_singleton hplace hcont'.writable (fun k hk => ?_) (fun k hk => ?_),
      hcont'.labels.trans hcont.labels, ?_⟩
    · rw [hcont'.calls] at hk
      exact .inl (hcont.calls ▸ hk)
    · rw [hcont'.stubs, List.mem_cons, hcont.stubs]
      rcases hk with hk | hk
      · exact .inr hk
      · exact .inl (Item.stub.inj hk).symm
    · rw [hcont'.withCode_eq, hcont.frame]
      rfl
  | storeTarget l =>
    obtain ⟨b, hb, hcont⟩ := exists_storeTarget h.writable (hlabel l rfl)
    exact ⟨b, hb, h.of_continues hb hcont (by simp), hcont.labels, hcont.withCode_eq⟩

/-- **Items are placed** if their labels are declared in time and bound once, and the code fits. -/
theorem exists_placeAll (h : Emitted items a) {is : List Item} (hscoped : Scoped a.labels.size is)
    (hnodup : (bindings is).Nodup) (hfresh : ∀ l ∈ bindings is, l ∉ bindings items)
    (hsize : codeSize (items ++ is) < 2 ^ 31) :
    ∃ b, a.placeAll is = .ok b ∧ Emitted (items ++ is) b ∧
      b.labels.size = a.labels.size + declares is ∧ b = a.withCode b := by
  induction is generalizing a items with
  | nil => exact ⟨a, rfl, by simpa using h, rfl, rfl⟩
  | cons i is ih =>
    rw [scoped_cons] at hscoped
    rw [bindings_cons] at hnodup hfresh
    obtain ⟨-, hnodup, hne⟩ := List.nodup_append.mp hnodup
    simp only [codeSize_append, codeSize_cons] at hsize
    obtain ⟨b, hb, hemitted, hlabels, hframe⟩ := h.exists_place hscoped.1
      (fun l hl => hfresh l (by simp [hl])) (by omega)
    obtain ⟨c, hc, hemitted', hlabels', hframe'⟩ := ih hemitted (hlabels ▸ hscoped.2)
      hnodup
      (fun l hl => by
        rw [bindings_append, List.mem_append, not_or]
        exact ⟨hfresh l (List.mem_append_right _ hl),
          fun hmem => hne l (by simpa using hmem) l hl rfl⟩)
      (by simp only [codeSize_append, codeSize_cons, codeSize_nil]; omega)
    refine ⟨c, bind_eq_ok.mpr ⟨b, hb, hc⟩, by simpa using hemitted', ?_, ?_⟩
    · rw [hlabels', hlabels, declares_cons, Nat.add_assoc]
    · rw [hframe', hframe]
      rfl

end Emitted

end Assembler

end NativeMatcher
