import NativeMatcher.Assembly.Exec
import NativeMatcher.Proofs.Compiled
import NativeMatcher.Proofs.Encoding

/-!
# Where items lie

The code of a list of items, described without an assembler. An item has a fixed size, so
the code offsets of all items are known in advance (`NativeMatcher.Assembly.placed`), and
with them the place of every label (`NativeMatcher.Assembly.position`) and the contents of
every field that depends on one (`NativeMatcher.Assembly.layout`).

The assembler knows none of this in advance. It emits a field when it meets it, with zeros
if the label has no place yet, and comes back to it when the label gets one. The invariant
`NativeMatcher.Assembler.Laid` says how far it has got: the bytes so far are the layout in
which the labels bound so far have their places and the other fields are blank, and the
label table lists those blank fields. One item keeps it
(`NativeMatcher.Assembler.Laid.place`); the load-bearing case is the binding of a label,
where going through the list of blank fields is the same as laying out the items once more
(`NativeMatcher.Assembler.toList_bytes_patchUses`).
-/

namespace NativeMatcher

open Assembly Code X64

/-! ### Fields -/

namespace Label

/-- What the field at `offset` holds when its label is at `target`. -/
def FieldKind.value (kind : FieldKind) (offset target : Nat) : UInt32 :=
  match kind with
  | .rel32 => UInt32.ofInt ((target : Int) - (offset + 4 : Nat))
  | .codeOffset32 => UInt32.ofNat target

theorem ofInt_eq_of_emod_eq {x y : Int} (h : x % 4294967296 = y % 4294967296) :
    UInt32.ofInt x = UInt32.ofInt y := by
  apply UInt32.toNat_inj.mp
  have hx := toNat_ofInt x
  have hy := toNat_ofInt y
  omega

/-- What is patched into a field is the value its kind prescribes. The checks on the way, that
distances and offsets fit 32 bits, make the wrapped arithmetic exact. -/
theorem eq_value_of_resolve {kind : FieldKind} {offset target : Nat} {v : UInt32}
    (h : kind.resolve offset target = .ok v) : v = kind.value offset target := by
  cases kind with
  | rel32 =>
    obtain ⟨next, hnext, h⟩ := Assembler.bind_eq_ok.mp h
    obtain ⟨d, hd, h⟩ := Assembler.bind_eq_ok.mp h
    have hnext : next = signed64 offset + 4 := by
      unfold word64 at hnext
      split at hnext
      · exact (Except.ok.inj hnext).symm
      · cases hnext
    have hd : d = signed64 target - next := by
      unfold distance word64 at hd
      split at hd
      · exact (Except.ok.inj hd).symm
      · cases hd
    split at h
    · obtain rfl := Except.ok.inj h
      -- The distance was taken between signed words; modulo `2 ^ 32` that makes no difference.
      refine ofInt_eq_of_emod_eq ?_
      have ho := emod_signed64 offset
      have ht := emod_signed64 target
      generalize signed64 offset = o at *
      generalize signed64 target = t at *
      omega
    · cases h
  | codeOffset32 =>
    simp only [FieldKind.resolve] at h
    split at h
    · exact (Except.ok.inj h).symm
    · cases h

end Label

namespace Assembly

/-- How the last four bytes of an item depend on a label. -/
def Item.field? : Item → Option (Label.FieldKind × Label)
  | .branch _ l => some (.rel32, l)
  | .storeTarget l => some (.codeOffset32, l)
  | _ => none

/-- The label an item names. -/
def Item.label? : Item → Option Label
  | .branch _ l | .storeTarget l | .bind l | .stub l => some l
  | .instr _ | .declare => none

/-- The bytes of an item before its field. -/
def Item.head : Item → List UInt8
  | .instr i => i.encode
  | .branch b _ => b.bytes
  | .storeTarget _ => (OpByte.sized 0xC7 .w32).withRm 0 (.mem { base := backtrackSp })
  | .stub _ => (Instr.aluStore .sub .w64 .rsp 0 codeBase).encode
  | .declare | .bind _ => []

/-- The number of bytes of an item. -/
def Item.size (i : Item) : Nat := i.head.length + if i.field?.isSome then 4 else 0

/-- The bytes of an item at code offset `here`, given the places of the labels. The field of a
label without a place is blank. -/
def Item.bytes (pos : Label → Option Nat) (here : Nat) (i : Item) : List UInt8 :=
  i.head ++ match i.field? with
    | some (kind, l) => bytes32 ((pos l).elim 0 (kind.value (here + i.head.length)))
    | none => []

@[simp] theorem Item.length_bytes (pos : Label → Option Nat) (here : Nat) (i : Item) :
    (i.bytes pos here).length = i.size := by
  simp only [bytes, size, List.length_append]
  cases i.field? <;> simp

/-- The field of an item at code offset `here`, if it waits for `l`. -/
def Item.use? (l : Label) (here : Nat) (i : Item) : Option Label.Use :=
  match i.field? with
  | some (kind, k) => if k = l then some ⟨here + i.head.length, kind⟩ else none
  | none => none

theorem Item.label?_of_binds {i : Item} {l : Label} (h : i.binds l = true) :
    i.label? = some l := by
  cases i <;> simp_all [binds, label?]

theorem Item.label?_of_field? {i : Item} {kind : Label.FieldKind} {l : Label}
    (h : i.field? = some (kind, l)) : i.label? = some l := by
  cases i <;> simp_all [field?, label?]

theorem Item.binds_eq_false {i : Item} {l : Label} (h : i.label? ≠ some l) :
    i.binds l = false := by
  cases hb : i.binds l with
  | true => exact absurd (label?_of_binds hb) h
  | false => rfl

theorem Item.field?_eq_none {i : Item} (h : i.label? = none) : i.field? = none := by
  cases hf : i.field? with
  | none => rfl
  | some f => simp [label?_of_field? hf] at h

/-- An item uses only the label that it names. -/
theorem Item.use?_eq_none {i : Item} {l : Label} (h : i.label? ≠ some l) (here : Nat) :
    i.use? l here = none := by
  cases hf : i.field? with
  | none => simp [use?, hf]
  | some f =>
    have hne : f.2 ≠ l := fun heq => h (heq ▸ label?_of_field? hf)
    simp [use?, hf, hne]

/-- A use lies behind the opcode bytes of its item, in the field that the item has. -/
theorem Item.use?_eq_some {i : Item} {l : Label} {here : Nat} {u : Label.Use}
    (h : i.use? l here = some u) :
    ∃ kind, i.field? = some (kind, l) ∧ u = ⟨here + i.head.length, kind⟩ := by
  unfold use? at h
  split at h
  · next kind k hf =>
    split at h
    · next hk => exact ⟨kind, hk ▸ hf, (Option.some.inj h).symm⟩
    · cases h
  · cases h

/-! ### Layouts -/

/-- The number of bytes of a list of items. -/
def codeSize : List Item → Nat
  | [] => 0
  | i :: is => i.size + codeSize is

/-- The items with their code offsets, the first of which is `here`. -/
def placed : (here : Nat) → List Item → List (Nat × Item)
  | _, [] => []
  | here, i :: is => (here, i) :: placed (here + i.size) is

/-- The place of a label: the code offset of the first item that binds it. -/
def position (items : List Item) (l : Label) : Option Nat :=
  ((placed 0 items).find? fun x => x.2.binds l).map Prod.fst

/-- The fields that depend on a label. -/
def fieldsOf (items : List Item) (l : Label) : List Label.Use :=
  (placed 0 items).filterMap fun x => x.2.use? l x.1

/-- The bytes of items that lie at given code offsets. -/
def bytesOf (pos : Label → Option Nat) (items : List (Nat × Item)) : List UInt8 :=
  items.flatMap fun x => x.2.bytes pos x.1

/-- The code of a list of items, given the places of the labels. -/
def layout (pos : Label → Option Nat) (items : List Item) : List UInt8 :=
  bytesOf pos (placed 0 items)

@[simp] theorem codeSize_nil : codeSize [] = 0 := rfl

@[simp] theorem codeSize_cons (i : Item) (is : List Item) :
    codeSize (i :: is) = i.size + codeSize is := rfl

@[simp] theorem codeSize_append (is js : List Item) :
    codeSize (is ++ js) = codeSize is + codeSize js := by
  induction is with
  | nil => exact (Nat.zero_add _).symm
  | cons i is ih => rw [List.cons_append, codeSize_cons, codeSize_cons, ih, Nat.add_assoc]

theorem placed_append (here : Nat) (is js : List Item) :
    placed here (is ++ js) = placed here is ++ placed (here + codeSize is) js := by
  induction is generalizing here with
  | nil => rfl
  | cons i is ih => simp [placed, ih, Nat.add_assoc]

theorem map_snd_placed (here : Nat) (is : List Item) : (placed here is).map Prod.snd = is := by
  induction is generalizing here with
  | nil => rfl
  | cons i is ih => simp [placed, ih]

theorem mem_of_mem_placed {here : Nat} {is : List Item} {x : Nat × Item} (h : x ∈ placed here is) :
    x.2 ∈ is := by
  rw [← map_snd_placed here is]
  exact List.mem_map_of_mem h

theorem length_bytesOf_placed (pos : Label → Option Nat) (here : Nat) (is : List Item) :
    (bytesOf pos (placed here is)).length = codeSize is := by
  induction is generalizing here with
  | nil => rfl
  | cons i is ih => simpa [placed, bytesOf] using ih (here + i.size)

theorem length_layout (pos : Label → Option Nat) (items : List Item) :
    (layout pos items).length = codeSize items :=
  length_bytesOf_placed pos 0 items

theorem layout_append_singleton (pos : Label → Option Nat) (items : List Item) (i : Item) :
    layout pos (items ++ [i]) = layout pos items ++ i.bytes pos (codeSize items) := by
  simp [layout, placed_append, bytesOf, placed]

theorem position_append_of_not_binds {i : Item} {l : Label} (items : List Item)
    (h : i.binds l = false) : position (items ++ [i]) l = position items l := by
  simp [position, placed_append, placed, h]

theorem position_append_of_binds {items : List Item} {i : Item} {l : Label}
    (hnone : position items l = none) (h : i.binds l = true) :
    position (items ++ [i]) l = some (codeSize items) := by
  have hfind : (placed 0 items).find? (fun x => x.2.binds l) = none := by
    simpa [position] using hnone
  simp [position, placed_append, placed, hfind, h]

theorem position_append_of_some {items : List Item} {l : Label} {t : Nat} (is : List Item)
    (h : position items l = some t) : position (items ++ is) l = some t := by
  obtain ⟨x, hx, rfl⟩ := Option.map_eq_some_iff.mp h
  simp [position, placed_append, hx]

theorem fieldsOf_append_singleton (items : List Item) (i : Item) (l : Label) :
    fieldsOf (items ++ [i]) l = fieldsOf items l ++ (i.use? l (codeSize items)).toList := by
  cases h : i.use? l (codeSize items) <;> simp [fieldsOf, placed_append, placed, h]

/-- An item with its offset splits the list: the offset is the size of what stands before. -/
theorem exists_append_of_mem_placed {here : Nat} {items : List Item} {x : Nat × Item}
    (h : x ∈ placed here items) :
    ∃ is js, items = is ++ x.2 :: js ∧ x.1 = here + codeSize is := by
  induction items generalizing here with
  | nil => cases h
  | cons i items ih =>
    rcases List.mem_cons.mp h with rfl | h
    · exact ⟨[], items, rfl, rfl⟩
    · obtain ⟨is, js, rfl, hx⟩ := ih h
      exact ⟨i :: is, js, rfl, by rw [hx, codeSize_cons, Nat.add_assoc]⟩

theorem exists_mem_placed_of_position {items : List Item} {l : Label} {target : Nat}
    (h : position items l = some target) :
    ∃ i, (target, i) ∈ placed 0 items ∧ i.binds l = true := by
  obtain ⟨x, hx, rfl⟩ := Option.map_eq_some_iff.mp h
  have hbinds := List.find?_some hx
  exact ⟨x.2, List.mem_of_find?_eq_some hx, hbinds⟩

theorem position_le_codeSize {items : List Item} {l : Label} {target : Nat}
    (h : position items l = some target) : target ≤ codeSize items := by
  obtain ⟨i, hi, -⟩ := exists_mem_placed_of_position h
  obtain ⟨is, js, rfl, hx⟩ := exists_append_of_mem_placed hi
  simp only [codeSize_append] at hx ⊢
  omega

/-- The bytes of an item lie at its code offset. -/
theorem layout_of_mem_placed (pos : Label → Option Nat) {items : List Item} {here : Nat} {i : Item}
    (h : (here, i) ∈ placed 0 items) :
    ∃ pre post, pre.length = here ∧ layout pos items = pre ++ i.bytes pos here ++ post := by
  obtain ⟨is, js, hitems, hhere⟩ := exists_append_of_mem_placed h
  obtain rfl : here = codeSize is := by simpa using hhere
  refine ⟨layout pos is, bytesOf pos (placed (codeSize is + i.size) js), length_layout pos is, ?_⟩
  simp [layout, hitems, placed_append, placed, bytesOf]

/-- Outside the fields a layout does not depend on the places of the labels. So filling in a field
later changes no other byte. -/
theorem getElem?_bytesOf_of_outside (pos pos' : Label → Option Nat) {here k : Nat}
    {is : List Item} (h : ∀ x ∈ placed here is, x.2.field?.isSome = true →
      here + k < x.1 + x.2.head.length ∨ x.1 + x.2.head.length + 4 ≤ here + k) :
    (bytesOf pos (placed here is))[k]? = (bytesOf pos' (placed here is))[k]? := by
  induction is generalizing here k with
  | nil => rfl
  | cons i is ih =>
    have hcons : ∀ q : Label → Option Nat, bytesOf q (placed here (i :: is)) =
        i.bytes q here ++ bytesOf q (placed (here + i.size) is) := fun q => by
      simp [placed, bytesOf]
    rw [hcons, hcons]
    by_cases hk : k < i.size
    · -- The place is inside the item, and then before its field.
      have hhead : k < i.head.length := by
        unfold Item.size at hk
        split at hk
        · next hf =>
          have := h (here, i) List.mem_cons_self hf
          simp only at this
          omega
        · exact hk
      rw [List.getElem?_append_left (by simpa using hk),
        List.getElem?_append_left (by simpa using hk), Item.bytes, Item.bytes,
        List.getElem?_append_left hhead, List.getElem?_append_left hhead]
    · have hle : i.size ≤ k := Nat.le_of_not_lt hk
      rw [List.getElem?_append_right (by simpa using hle),
        List.getElem?_append_right (by simpa using hle), Item.length_bytes, Item.length_bytes]
      refine ih fun x hx hf => ?_
      have := h x (List.mem_cons_of_mem _ hx) hf
      omega

/-- Two ways to place the labels give the same bytes outside the fields. -/
theorem getElem?_layout_of_outside (pos pos' : Label → Option Nat) {k : Nat} {items : List Item}
    (h : ∀ (here : Nat) (i : Item), (here, i) ∈ placed 0 items → i.field?.isSome = true →
      k < here + i.head.length ∨ here + i.head.length + 4 ≤ k) :
    (layout pos items)[k]? = (layout pos' items)[k]? := by
  refine getElem?_bytesOf_of_outside pos pos' fun x hx hf => ?_
  rw [Nat.zero_add]
  exact h x.1 x.2 hx hf

/-- Without an item that names it, a label has no place. -/
theorem position_eq_none {items : List Item} {l : Label} (h : ∀ i ∈ items, i.label? ≠ some l) :
    position items l = none := by
  rw [position, Option.map_eq_none_iff, List.find?_eq_none]
  intro x hx hbinds
  exact h x.2 (mem_of_mem_placed hx) (Item.label?_of_binds hbinds)

/-- Without an item that names it, no field depends on a label. -/
theorem fieldsOf_eq_nil {items : List Item} {l : Label} (h : ∀ i ∈ items, i.label? ≠ some l) :
    fieldsOf items l = [] := by
  rw [fieldsOf, List.filterMap_eq_nil_iff]
  intro x hx
  exact Item.use?_eq_none (h x.2 (mem_of_mem_placed hx)) x.1

end Assembly

/-! ### Back-patching -/

namespace Assembler

/-- Overwriting replaces the middle of the bytes by as many others. -/
theorem toList_overwrite {pre old post vs : List UInt8} {bytes : Array UInt8}
    (h : bytes.toList = pre ++ old ++ post) (hlen : vs.length = old.length) :
    (Buffer.overwrite bytes pre.length vs).toList = pre ++ vs ++ post := by
  induction vs generalizing pre old bytes with
  | nil =>
    obtain rfl := List.length_eq_zero_iff.mp hlen.symm
    exact h
  | cons v vs ih =>
    obtain ⟨o, old, rfl⟩ := List.exists_cons_of_length_eq_add_one hlen.symm
    have hset : (bytes.setIfInBounds pre.length v).toList = (pre ++ [v]) ++ old ++ post := by
      simp [h]
    have hrest := ih hset (by simpa using hlen)
    rw [List.length_append] at hrest
    simpa [Buffer.overwrite] using hrest

/-- A patch that succeeds overwrites four bytes. -/
theorem bytes_of_patch32 {b c : Buffer} {offset : Nat} {v : UInt32}
    (h : b.patch32 offset v = .ok c) : c.bytes = Buffer.overwrite b.bytes offset (bytes32 v) := by
  obtain ⟨stop, -, h⟩ := bind_eq_ok.mp h
  by_cases hout : b.size < stop
  · simp [hout, throw, throwThe, MonadExceptOf.throw, Bind.bind, Except.bind] at h
  by_cases hexec : b.executable = true
  · simp [hout, hexec, throw, throwThe, MonadExceptOf.throw, Bind.bind, Except.bind] at h
  · simp only [hout, hexec, if_false, Bool.false_eq_true] at h
    obtain rfl := Except.ok.inj h
    rfl

theorem toList_bytes_patch32 {b c : Buffer} {pre post : List UInt8} {v w : UInt32}
    (h : b.patch32 pre.length v = .ok c) (hb : b.bytes.toList = pre ++ bytes32 w ++ post) :
    c.bytes.toList = pre ++ bytes32 v ++ post := by
  rw [bytes_of_patch32 h]
  exact toList_overwrite hb (by simp)

/-- The places of the labels once `l` is at `target`. -/
def bindAt (pos : Label → Option Nat) (l : Label) (target : Nat) (k : Label) : Option Nat :=
  if k = l then some target else pos k

/-- Binding a label changes only the bytes of items that use it. -/
theorem bytes_bindAt_of_use?_eq_none {pos : Label → Option Nat} {l : Label} {here : Nat} {i : Item}
    (target : Nat) (h : i.use? l here = none) :
    i.bytes (bindAt pos l target) here = i.bytes pos here := by
  unfold Item.use? at h
  unfold Item.bytes
  cases hf : i.field? with
  | none => rfl
  | some f =>
    have hne : f.2 ≠ l := by
      rw [hf] at h
      simpa using h
    simp [bindAt, hne]

/-- **Going through the blank fields of a label lays the items out once more**, with the label
in its place. -/
theorem toList_bytes_patchUses {b c : Buffer} {pos : Label → Option Nat} {l : Label}
    {target : Nat} {pre : List UInt8} {is : List Item} (hl : pos l = none)
    (h : patchUses b target ((placed pre.length is).filterMap fun x => x.2.use? l x.1) = .ok c)
    (hb : b.bytes.toList = pre ++ bytesOf pos (placed pre.length is)) :
    c.bytes.toList = pre ++ bytesOf (bindAt pos l target) (placed pre.length is) := by
  induction is generalizing b pre with
  | nil =>
    obtain rfl := Except.ok.inj h
    exact hb
  | cons i is ih =>
    -- Once the first item is settled, it joins what lies before the others.
    have hnext : ∀ d : Buffer,
        patchUses d target ((placed (pre.length + i.size) is).filterMap fun x => x.2.use? l x.1) =
          .ok c →
        d.bytes.toList = pre ++ i.bytes (bindAt pos l target) pre.length ++
          bytesOf pos (placed (pre.length + i.size) is) →
        c.bytes.toList = pre ++ bytesOf (bindAt pos l target) (placed pre.length (i :: is)) := by
      intro d hd hbytes
      have hlen : pre.length + i.size =
          (pre ++ i.bytes (bindAt pos l target) pre.length).length := by simp
      rw [hlen] at hd hbytes
      have hrest := ih hd hbytes
      rw [← hlen] at hrest
      simpa [placed, bytesOf] using hrest
    rw [placed, List.filterMap_cons] at h
    cases huse : i.use? l pre.length with
    | none =>
      rw [huse] at h
      refine hnext b h ?_
      rw [hb, bytes_bindAt_of_use?_eq_none target huse]
      simp [placed, bytesOf]
    | some u =>
      rw [huse] at h
      obtain ⟨v, hv, hpatch⟩ := bind_eq_ok.mp h
      obtain ⟨d, hd, hrest⟩ := bind_eq_ok.mp hpatch
      obtain ⟨kind, hfield, rfl⟩ := Item.use?_eq_some huse
      obtain rfl := Label.eq_value_of_resolve hv
      refine hnext d hrest ?_
      -- The label had no place, so the field was blank.
      rw [← List.length_append] at hd
      have hblank : b.bytes.toList = (pre ++ i.head) ++ bytes32 0 ++
          bytesOf pos (placed (pre.length + i.size) is) := by
        simp [hb, placed, bytesOf, Item.bytes, hfield, hl]
      simp [toList_bytes_patch32 hd hblank, Item.bytes, hfield, bindAt]

/-- Filling in fields changes no byte outside them. -/
theorem getElem?_patchUses_of_outside {b c : Buffer} {target k : Nat} {uses : List Label.Use}
    (h : patchUses b target uses = .ok c)
    (hk : ∀ u ∈ uses, k < u.offset ∨ u.offset + 4 ≤ k) : c.bytes[k]? = b.bytes[k]? := by
  induction uses generalizing b with
  | nil =>
    obtain rfl := Except.ok.inj h
    rfl
  | cons u uses ih =>
    obtain ⟨v, -, h⟩ := bind_eq_ok.mp h
    obtain ⟨d, hd, h⟩ := bind_eq_ok.mp h
    rw [ih h fun w hw => hk w (List.mem_cons_of_mem _ hw), bytes_of_patch32 hd]
    refine Buffer.getElem?_overwrite_of_outside _ _ _ _ ?_
    rw [length_bytes32]
    exact hk u List.mem_cons_self

/-! ### The label table -/

/-- A use can be recorded only for a label without a place, and is added to its list. -/
theorem eq_set_of_addUse {t t' : Label.Table} {l : Label} {u : Label.Use}
    (h : t.addUse l u = .ok t') :
    ∃ e, t.entry l = .ok e ∧ e.pos = none ∧ t' = t.set l { e with uses := e.uses.push u } := by
  obtain ⟨e, he, h⟩ := bind_eq_ok.mp h
  split at h
  · cases h
  · next hpos => exact ⟨e, he, hpos, (Except.ok.inj h).symm⟩

/-- A label is bound only once. It then has its place and hands over the uses it had gathered. -/
theorem eq_set_of_bind {t t' : Label.Table} {l : Label} {offset : Nat} {uses : List Label.Use}
    (h : t.bind l offset = .ok (t', uses)) :
    ∃ e, t.entry l = .ok e ∧ e.pos = none ∧ uses = e.uses.toList ∧
      t' = t.set l { pos := some offset } := by
  obtain ⟨e, he, h⟩ := bind_eq_ok.mp h
  split at h
  · cases h
  · next hpos =>
    obtain ⟨rfl, rfl⟩ := Prod.mk.inj (Except.ok.inj h)
    exact ⟨e, he, hpos, rfl, rfl⟩

theorem lt_size_of_entry {t : Label.Table} {l : Label} {e : Label.Entry} (h : t.entry l = .ok e) :
    l.index < t.size := by
  unfold Label.Table.entry at h
  split at h
  · next he => exact (Array.getElem?_eq_some_iff.mp he).1
  · cases h

theorem exists_entry {t : Label.Table} {l : Label} (h : l.index < t.size) :
    ∃ e, t.entry l = .ok e := by
  have hget : t.entries[l.index]? = some t.entries[l.index] := Array.getElem?_eq_getElem h
  exact ⟨t.entries[l.index], by rw [Label.Table.entry, hget]⟩

/-- The entry of a label in a table with one more label. -/
theorem entry_declare {t : Label.Table} {l : Label} {e : Label.Entry}
    (h : t.declare.1.entry l = .ok e) : t.entry l = .ok e ∨ l.index = t.size ∧ e = {} := by
  simp only [Label.Table.declare, Label.Table.entry, Array.getElem?_push] at h
  split at h
  · next he =>
    obtain rfl := Except.ok.inj h
    split at he
    · next hl => exact .inr ⟨hl, (Option.some.inj he).symm⟩
    · exact .inl (by rw [Label.Table.entry, he])
  · cases h

/-- Without an unresolved label, no label is used and not bound. -/
theorem not_isLinked_of_labelError? {a : Assembler} {l : Label} {e : Label.Entry}
    (h : a.labelError? = none) (he : a.labels.entry l = .ok e) : e.isLinked = false := by
  have hfirst : a.labels.firstUnresolved = none := by
    unfold labelError? at h
    split at h
    · cases h
    · next hnone => exact hnone
  have hnone : a.labels.entries.findIdx? Label.Entry.isLinked = none := by
    simpa [Label.Table.firstUnresolved] using hfirst
  rw [Array.findIdx?_eq_none_iff] at hnone
  refine hnone e ?_
  unfold Label.Table.entry at he
  split at he
  · next hget =>
    obtain rfl := Except.ok.inj he
    exact Array.mem_of_getElem? hget
  · cases he

/-! ### The invariant -/

/-- An assembler has emitted a list of items, and has at least `n` labels. -/
structure Laid (n : Nat) (items : List Item) (a : Assembler) : Prop where
  /-- The number of labels. -/
  size : n ≤ a.labels.size
  /-- The bytes are the layout in which the labels without a place leave their fields blank. -/
  bytes : a.buffer.bytes.toList = layout (position items) items
  /-- The label table knows the places of the labels. -/
  pos : ∀ l e, a.labels.entry l = .ok e → e.pos = position items l
  /-- It lists the fields of a label without a place. -/
  uses : ∀ l e, a.labels.entry l = .ok e →
    e.uses.toList = if e.pos.isSome then [] else fieldsOf items l
  /-- The labels that items name are declared. -/
  declared : ∀ i ∈ items, ∀ l, i.label? = some l → l.index < a.labels.size
  /-- No label gets a place twice. -/
  once : ∀ x ∈ placed 0 items, ∀ l, x.2.binds l = true → position items l = some x.1

namespace Laid

variable {n : Nat} {a b : Assembler} {items : List Item}

theorem size_buffer (h : Laid n items a) : a.buffer.size = codeSize items := by
  rw [← length_layout (position items), ← h.bytes, Array.length_toList]
  rfl

theorem of_eq (h : Laid n items a) (hbuffer : b.buffer = a.buffer) (hlabels : b.labels = a.labels) :
    Laid n items b :=
  ⟨hlabels ▸ h.size, hbuffer ▸ h.bytes, hlabels ▸ h.pos, hlabels ▸ h.uses, hlabels ▸ h.declared,
    h.once⟩

theorem mono {n' : Nat} (h : Laid n items a) (hn : n' ≤ n) : Laid n' items a :=
  ⟨Nat.le_trans hn h.size, h.bytes, h.pos, h.uses, h.declared, h.once⟩

/-- What is left to show after one more item. -/
theorem append_singleton (h : Laid n items a) {i : Item} (hsize : a.labels.size ≤ b.labels.size)
    (hlabel : ∀ l, i.label? = some l → l.index < b.labels.size)
    (hbinds : ∀ l, i.binds l = true → position items l = none)
    (hbytes : b.buffer.bytes.toList = layout (position (items ++ [i])) (items ++ [i]))
    (hpos : ∀ l e, b.labels.entry l = .ok e → e.pos = position (items ++ [i]) l)
    (huses : ∀ l e, b.labels.entry l = .ok e →
      e.uses.toList = if e.pos.isSome then [] else fieldsOf (items ++ [i]) l) :
    Laid n (items ++ [i]) b := by
  refine ⟨Nat.le_trans h.size hsize, hbytes, hpos, huses, ?_, ?_⟩
  · intro j hj l hl
    rcases List.mem_append.mp hj with hj | hj
    · exact Nat.lt_of_lt_of_le (h.declared j hj l hl) hsize
    · obtain rfl := List.mem_singleton.mp hj
      exact hlabel l hl
  · intro x hx l hl
    rw [placed_append, List.mem_append] at hx
    rcases hx with hx | hx
    · exact position_append_of_some [i] (h.once x hx l hl)
    · obtain rfl : x = (codeSize items, i) := by simpa [placed] using hx
      exact position_append_of_binds (hbinds l hl) hl

/-- An item without a label adds its bytes. -/
theorem plain (h : Laid n items a) {i : Item} (hi : i.label? = none) (hlabels : b.labels = a.labels)
    (hbytes : b.buffer.bytes.toList = a.buffer.bytes.toList ++ i.head) :
    Laid n (items ++ [i]) b := by
  have hne : ∀ l, i.label? ≠ some l := fun l hl => by simp [hi] at hl
  have hpos : position (items ++ [i]) = position items :=
    funext fun l => position_append_of_not_binds items (Item.binds_eq_false (hne l))
  refine h.append_singleton (Nat.le_of_eq (congrArg _ hlabels.symm))
    (fun l hl => absurd hl (hne l)) (fun l hl => absurd (Item.label?_of_binds hl) (hne l)) ?_ ?_ ?_
  · rw [hbytes, h.bytes, hpos, layout_append_singleton]
    simp [Item.bytes, Item.field?_eq_none hi]
  · intro l e he
    rw [hpos]
    exact h.pos l e (hlabels ▸ he)
  · intro l e he
    rw [fieldsOf_append_singleton, Item.use?_eq_none (hne l)]
    simpa using h.uses l e (hlabels ▸ he)

/-- A new label has no place, and no item names it. -/
theorem declare (h : Laid n items a) :
    Laid (n + 1) items { a with labels := a.labels.declare.1 } := by
  have hnone : ∀ l : Label, l.index = a.labels.size → ∀ i ∈ items, i.label? ≠ some l := by
    intro l hl i hi hlabel
    have := h.declared i hi l hlabel
    omega
  refine ⟨by simpa using h.size, h.bytes, fun l e he => ?_, fun l e he => ?_,
    fun i hi l hl => ?_, h.once⟩
  · rcases entry_declare he with he | ⟨hl, rfl⟩
    · exact h.pos l e he
    · exact (position_eq_none (hnone l hl)).symm
  · rcases entry_declare he with he | ⟨hl, rfl⟩
    · exact h.uses l e he
    · simp [fieldsOf_eq_nil (hnone l hl)]
  · have := h.declared i hi l hl
    simp only [Label.Table.size_declare]
    omega

section Field

variable {i : Item} {kind : Label.FieldKind} {l : Label} {e : Label.Entry}

theorem position_of_field (items : List Item) (hf : i.field? = some (kind, l)) :
    position (items ++ [i]) = position items := by
  funext k
  refine position_append_of_not_binds items ?_
  cases i <;> simp_all [Item.field?, Item.binds]

theorem binds_of_field (hf : i.field? = some (kind, l)) (k : Label) : i.binds k = false := by
  cases i <;> simp_all [Item.field?, Item.binds]

/-- A field of a label with a place is emitted as it will stay. This is the case of a branch
back. -/
theorem bound (h : Laid n items a) {target : Nat} (hf : i.field? = some (kind, l))
    (he : a.labels.entry l = .ok e) (htarget : e.pos = some target)
    (hlabels : b.labels = a.labels)
    (hbytes : b.buffer.bytes.toList = a.buffer.bytes.toList ++ (i.head ++
      bytes32 (kind.value (a.buffer.size + i.head.length) target))) : Laid n (items ++ [i]) b := by
  have hpos := position_of_field items hf
  have hl : position items l = some target := (h.pos l e he).symm.trans htarget
  refine h.append_singleton (Nat.le_of_eq (congrArg _ hlabels.symm)) (fun k hk => ?_)
    (fun k hk => by simp [binds_of_field hf] at hk) ?_ ?_ ?_
  · obtain rfl : l = k := Option.some.inj ((Item.label?_of_field? hf).symm.trans hk)
    rw [hlabels]
    exact lt_size_of_entry he
  · rw [hbytes, h.bytes, hpos, layout_append_singleton, h.size_buffer]
    simp [Item.bytes, hf, hl]
  · intro k e' he'
    rw [hpos]
    exact h.pos k e' (hlabels ▸ he')
  · intro k e' he'
    rw [hlabels] at he'
    rw [h.uses k e' he']
    split
    · rfl
    · next hnone =>
      -- A label without a place is another one than that of the field.
      have hk : i.label? ≠ some k := by
        intro hk
        obtain rfl : l = k := Option.some.inj ((Item.label?_of_field? hf).symm.trans hk)
        obtain rfl := Except.ok.inj (he.symm.trans he')
        simp [htarget] at hnone
      rw [fieldsOf_append_singleton, Item.use?_eq_none hk]
      simp

/-- A field of a label without a place is emitted blank, and listed. This is the case of a branch
forward. The list is what the binding of the label goes through. -/
theorem blank (h : Laid n items a) (hf : i.field? = some (kind, l))
    (he : a.labels.entry l = .ok e) (hnone : e.pos = none)
    (hlabels : b.labels = a.labels.set l { e with
      uses := e.uses.push ⟨a.buffer.size + i.head.length, kind⟩ })
    (hbytes : b.buffer.bytes.toList = a.buffer.bytes.toList ++ (i.head ++ bytes32 0)) :
    Laid n (items ++ [i]) b := by
  have hpos := position_of_field items hf
  have hl : position items l = none := (h.pos l e he).symm.trans hnone
  have hlt := lt_size_of_entry he
  have hsize : b.labels.size = a.labels.size := by rw [hlabels, Label.Table.size_set]
  refine h.append_singleton (Nat.le_of_eq hsize.symm) (fun k hk => ?_)
    (fun k hk => by simp [binds_of_field hf] at hk) ?_ ?_ ?_
  · obtain rfl : l = k := Option.some.inj ((Item.label?_of_field? hf).symm.trans hk)
    rwa [hsize]
  · rw [hbytes, h.bytes, hpos, layout_append_singleton]
    simp [Item.bytes, hf, hl]
  · intro k e' he'
    rw [hpos]
    rcases Label.Table.entry_set_cases hlt (hlabels ▸ he') with ⟨rfl, rfl⟩ | ⟨-, he'⟩
    · exact h.pos k e he
    · exact h.pos k e' he'
  · intro k e' he'
    rw [fieldsOf_append_singleton]
    rcases Label.Table.entry_set_cases hlt (hlabels ▸ he') with ⟨rfl, rfl⟩ | ⟨hk, he'⟩
    · have huses := h.uses k e he
      rw [hnone] at huses
      simp [hnone, Item.use?, hf, huses, h.size_buffer]
    · have hne : i.label? ≠ some k := by
        intro hlabel
        exact hk (Option.some.inj (hlabel.symm.trans (Item.label?_of_field? hf)))
      rw [Item.use?_eq_none hne, h.uses k e' he']
      simp

end Field

/-- A label gets the current place, and its fields are filled in. The layout for the places known
before, with this one added, is the layout that the bytes show after. -/
theorem binding (h : Laid n items a) {i : Item} {l : Label} {e : Label.Entry} {buffer : Buffer}
    (hi : ∀ k, i.binds k = true ↔ k = l) (hf : i.field? = none)
    (he : a.labels.entry l = .ok e) (hnone : e.pos = none)
    (hpatch : patchUses a.buffer a.buffer.size e.uses.toList = .ok buffer)
    (hlabels : b.labels = a.labels.set l { pos := some a.buffer.size })
    (hbytes : b.buffer.bytes.toList = buffer.bytes.toList ++ i.head) : Laid n (items ++ [i]) b := by
  have hl : position items l = none := (h.pos l e he).symm.trans hnone
  have hlt := lt_size_of_entry he
  have hsize : b.labels.size = a.labels.size := by rw [hlabels, Label.Table.size_set]
  have hpos : position (items ++ [i]) = bindAt (position items) l a.buffer.size := by
    funext k
    by_cases hk : k = l
    · rw [hk, position_append_of_binds hl ((hi l).mpr rfl), h.size_buffer]
      simp [bindAt]
    · have hfalse : i.binds k = false := Bool.eq_false_iff.mpr fun hb => hk ((hi k).mp hb)
      rw [position_append_of_not_binds items hfalse]
      simp [bindAt, hk]
  -- The fields that the table lists are all the fields of the label.
  have hfilled : buffer.bytes.toList =
      layout (bindAt (position items) l a.buffer.size) items := by
    have huses : e.uses.toList = fieldsOf items l := by
      rw [h.uses l e he, hnone]
      rfl
    rw [huses] at hpatch
    exact @toList_bytes_patchUses _ _ _ _ _ [] items hl hpatch h.bytes
  refine h.append_singleton (Nat.le_of_eq hsize.symm) (fun k hk => ?_) (fun k hk => ?_) ?_ ?_ ?_
  · obtain rfl : l = k := Option.some.inj ((Item.label?_of_binds ((hi l).mpr rfl)).symm.trans hk)
    rwa [hsize]
  · exact (hi k).mp hk ▸ hl
  · rw [hbytes, hfilled, hpos, layout_append_singleton]
    simp [Item.bytes, hf]
  · intro k e' he'
    rw [hpos]
    rcases Label.Table.entry_set_cases hlt (hlabels ▸ he') with ⟨rfl, rfl⟩ | ⟨hk, he'⟩
    · simp [bindAt]
    · simp [bindAt, hk, h.pos k e' he']
  · intro k e' he'
    rcases Label.Table.entry_set_cases hlt (hlabels ▸ he') with ⟨rfl, rfl⟩ | ⟨-, he'⟩
    · rfl
    · have huse : i.use? k (codeSize items) = none := by simp [Item.use?, hf]
      rw [fieldsOf_append_singleton, huse, h.uses k e' he']
      simp

theorem eq_of_append {bs : List UInt8} (h : a.append bs = .ok b) :
    ∃ buffer, b = { a with buffer := buffer } ∧
      buffer.bytes.toList = a.buffer.bytes.toList ++ bs := by
  obtain ⟨buffer, hbuffer, h⟩ := bind_eq_ok.mp h
  exact ⟨buffer, (Except.ok.inj h).symm, Buffer.toList_bytes_append hbuffer⟩

/-- Binding a label in the assembler patches all its uses and changes nothing else. -/
theorem eq_of_bindLabel {l : Label} (h : a.bindLabel l = .ok b) :
    ∃ e buffer, a.labels.entry l = .ok e ∧ e.pos = none ∧
      patchUses a.buffer a.buffer.size e.uses.toList = .ok buffer ∧
      b = { a with labels := a.labels.set l { pos := some a.buffer.size }, buffer := buffer } := by
  obtain ⟨⟨labels, uses⟩, hbind, h⟩ := bind_eq_ok.mp h
  obtain ⟨buffer, hbuffer, hb⟩ := bind_eq_ok.mp h
  obtain ⟨e, he, hnone, huses, hlabels⟩ := eq_set_of_bind hbind
  exact ⟨e, buffer, he, hnone, huses ▸ hbuffer, hlabels ▸ (Except.ok.inj hb).symm⟩

theorem exists_entry_of_pos {t : Label.Table} {l : Label} {p : Option Nat}
    (h : t.pos l = .ok p) : ∃ e, t.entry l = .ok e ∧ e.pos = p := by
  unfold Label.Table.pos at h
  cases he : t.entry l with
  | error f => rw [he] at h; cases h
  | ok e => rw [he] at h; exact ⟨e, rfl, Except.ok.inj h⟩

/-- A blank field is emitted first and listed afterwards. -/
theorem append_blank (h : Laid n items a) {i : Item} {kind : Label.FieldKind} {l : Label}
    {a' : Assembler} {e : Label.Entry} {labels : Label.Table} (hf : i.field? = some (kind, l))
    (he : a.labels.entry l = .ok e) (hnone : e.pos = none)
    (happend : a.append (i.head ++ bytes32 0) = .ok a')
    (huse : a'.labels.addUse l ⟨a'.buffer.size - 4, kind⟩ = .ok labels) :
    Laid n (items ++ [i]) { a' with labels := labels } := by
  obtain ⟨buffer, rfl, hbytes⟩ := eq_of_append happend
  obtain ⟨e', he', -, rfl⟩ := eq_set_of_addUse huse
  obtain rfl : e = e' := Except.ok.inj (he.symm.trans he')
  -- The field is the last four bytes of what was appended.
  have hoffset : buffer.size - 4 = a.buffer.size + i.head.length := by
    have hlen := congrArg List.length hbytes
    simp only [List.length_append, length_bytes32, Array.length_toList] at hlen
    simp only [Buffer.size]
    omega
  exact h.blank hf he hnone (by simp only [hoffset]) hbytes

/-- A branch keeps code and layout in step. To a label with a place the field is filled in at once,
and otherwise it is left blank and recorded. -/
theorem branchTo (h : Laid n items a) {br : Branch} {l : Label} (hb : a.branchTo br l = .ok b) :
    Laid n (items ++ [Item.branch br l]) b := by
  obtain ⟨p, hp, hb⟩ := bind_eq_ok.mp hb
  obtain ⟨e, he, rfl⟩ := exists_entry_of_pos hp
  cases hpos : e.pos with
  | some target =>
    rw [hpos] at hb
    obtain ⟨i, hi, hb⟩ := bind_eq_ok.mp hb
    obtain ⟨buffer, rfl, hbytes⟩ := eq_of_append hb
    obtain ⟨disp, rfl, hdisp⟩ := Branch.between_eq hi
    have hvalue : disp =
        Label.FieldKind.rel32.value (a.buffer.size + br.bytes.length) target := by
      apply UInt32.toNat_inj.mp
      have := toNat_ofInt ((target : Int) - (a.buffer.size + br.bytes.length + 4 : Nat))
      simp only [Label.FieldKind.value]
      omega
    exact h.bound rfl he hpos rfl (hvalue ▸ hbytes)
  | none =>
    rw [hpos] at hb
    obtain ⟨a', ha', hb⟩ := bind_eq_ok.mp hb
    obtain ⟨labels, hlabels, hb⟩ := bind_eq_ok.mp hb
    obtain rfl := Except.ok.inj hb
    exact h.append_blank rfl he hpos ha' hlabels

/-- So does the store of a resumption point: the code offset of a label with a place is stored at
once, and that of any other is left blank. -/
theorem storeTarget (h : Laid n items a) {l : Label} (hb : a.storeTarget l = .ok b) :
    Laid n (items ++ [Item.storeTarget l]) b := by
  obtain ⟨p, hp, hb⟩ := bind_eq_ok.mp hb
  obtain ⟨e, he, rfl⟩ := exists_entry_of_pos hp
  cases hpos : e.pos with
  | some target =>
    rw [hpos] at hb
    obtain ⟨buffer, rfl, hbytes⟩ := eq_of_append hb
    exact h.bound rfl he hpos rfl hbytes
  | none =>
    rw [hpos] at hb
    obtain ⟨a', ha', hb⟩ := bind_eq_ok.mp hb
    obtain ⟨labels, hlabels, hb⟩ := bind_eq_ok.mp hb
    obtain rfl := Except.ok.inj hb
    exact h.append_blank rfl he hpos ha' hlabels

/-- **One item keeps the invariant.** An item adds its bytes at the end, and may note a use of a
label, fill in the uses of the label that it binds, or declare a label. Everything about fields
comes from this case analysis. -/
theorem place (h : Laid n items a) {i : Item} (hb : a.place i = .ok b) :
    Laid n (items ++ [i]) b := by
  cases i with
  | instr i =>
    obtain ⟨buffer, rfl, hbytes⟩ := eq_of_append hb
    exact h.plain rfl rfl hbytes
  | branch br l =>
    simp only [Assembler.place] at hb
    split at hb
    · have hcalls : Laid n items { a with callSites := a.callSites.push l } := h.of_eq rfl rfl
      exact hcalls.branchTo hb
    · exact h.branchTo hb
  | declare =>
    obtain rfl := Except.ok.inj hb
    exact (h.declare.mono (Nat.le_succ n)).plain rfl rfl (by simp [Item.head])
  | bind l =>
    obtain ⟨e, buffer, he, hnone, hpatch, rfl⟩ := eq_of_bindLabel hb
    exact h.binding (by simp [Item.binds, eq_comm]) rfl he hnone hpatch rfl (by simp [Item.head])
  | stub l =>
    obtain ⟨a', ha', hb⟩ := bind_eq_ok.mp hb
    obtain ⟨e, buffer, he, hnone, hpatch, rfl⟩ := eq_of_bindLabel ha'
    obtain ⟨buffer', rfl, hbytes⟩ := eq_of_append hb
    exact h.binding (by simp [Item.binds, eq_comm]) rfl he hnone hpatch rfl hbytes
  | storeTarget l => exact h.storeTarget hb

/-- Any number of items keep the invariant. -/
theorem placeAll (h : Laid n items a) {is : List Item} (hb : a.placeAll is = .ok b) :
    Laid n (items ++ is) b := by
  induction is generalizing a items with
  | nil =>
    obtain rfl := Except.ok.inj hb
    simpa using h
  | cons i is ih =>
    obtain ⟨a', ha', hb⟩ := bind_eq_ok.mp hb
    simpa using ih (h.place ha') hb

/-- Any number of labels may be declared. -/
theorem declareMany (h : Laid n items a) (k : Nat) :
    Laid (n + k) items { a with labels := a.labels.declareMany k } := by
  induction k generalizing a n with
  | zero => simpa using h
  | succ k ih =>
    rw [Label.Table.declareMany_succ, ← Nat.add_assoc, Nat.add_right_comm]
    exact ih h.declare

/-- Nothing is emitted into an empty buffer with no labels. -/
theorem nil (hbytes : a.buffer.bytes = #[]) (hlabels : a.labels = {}) : Laid 0 [] a := by
  have hentry : ∀ l e, a.labels.entry l ≠ .ok e := by
    intro l e he
    simpa [hlabels, Label.Table.size] using lt_size_of_entry he
  refine ⟨Nat.zero_le _, by rw [hbytes]; rfl, ?_, ?_, ?_, ?_⟩
  · exact fun l e he => absurd he (hentry l e)
  · exact fun l e he => absurd he (hentry l e)
  · simp
  · simp [placed]

end Laid

end Assembler

end NativeMatcher
