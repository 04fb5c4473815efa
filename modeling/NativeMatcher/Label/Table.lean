import NativeMatcher.Label

/-!
# The label table

The positions and the pending uses of every label of one assembly. A label is
declared, used any number of times while it has no position, and bound once;
binding hands the pending uses back so that their fields can be patched.
-/

namespace NativeMatcher.Label

/-- What is known of one label. -/
structure Entry where
  /-- The code offset, once bound. -/
  pos : Option Nat := none
  /-- The fields that wait for the offset, in the order they were emitted. -/
  uses : Array Use := #[]
  deriving DecidableEq, Repr

/-- Whether the label is used and not bound. -/
def Entry.isLinked (e : Entry) : Bool := e.pos.isNone && !e.uses.isEmpty

/-- The labels of one assembly, by index. -/
structure Table where
  /-- The entries, in the order the labels were declared. -/
  entries : Array Entry := #[]
  deriving Repr

namespace Table

/-- The number of labels. -/
def size (t : Table) : Nat := t.entries.size

/-- Declares the next label. -/
def declare (t : Table) : Table × Label :=
  (⟨t.entries.push {}⟩, ⟨t.entries.size⟩)

/-- Declares `n` labels. -/
def declareMany (t : Table) (n : Nat) : Table := ⟨t.entries ++ Array.replicate n ({} : Entry)⟩

/-- The entry of a label, or a fault when there is none. -/
def entry (t : Table) (l : Label) : Except Fault Entry :=
  match t.entries[l.index]? with
  | some e => .ok e
  | none => .error (.indexOutOfBounds t.entries.size l.index)

/-- The code offset of a label, if it is bound. -/
def pos (t : Table) (l : Label) : Except Fault (Option Nat) :=
  Entry.pos <$> t.entry l

/-- Whether a label is bound. -/
def isBound (t : Table) (l : Label) : Except Fault Bool :=
  (·.pos.isSome) <$> t.entry l

/-- Whether a label is used and not bound. -/
def isLinked (t : Table) (l : Label) : Except Fault Bool :=
  Entry.isLinked <$> t.entry l

/-- Replaces the entry of a label. -/
def set (t : Table) (l : Label) (e : Entry) : Table :=
  ⟨t.entries.setIfInBounds l.index e⟩

/-- Records a field that waits for `l`. -/
def addUse (t : Table) (l : Label) (u : Use) : Except Fault Table := do
  let e ← t.entry l
  match e.pos with
  | some _ => .error (.useOfBoundLabel l.index)
  | none => .ok (t.set l { e with uses := e.uses.push u })

/-- Gives `l` its offset and hands back the fields that waited for it. -/
def bind (t : Table) (l : Label) (offset : Nat) : Except Fault (Table × List Use) := do
  let e ← t.entry l
  match e.pos with
  | some _ => .error (.labelBoundTwice l.index)
  | none => .ok (t.set l { pos := some offset }, e.uses.toList)

/-- The first label that is used and not bound. -/
def firstUnresolved (t : Table) : Option Label :=
  (t.entries.findIdx? Entry.isLinked).map Label.mk

/-- Forgets every pending use. -/
def clearUses (t : Table) : Table :=
  ⟨t.entries.map fun e => { e with uses := #[] }⟩

@[simp] theorem size_declare (t : Table) : t.declare.1.size = t.size + 1 := by
  simp [declare, size]

/-- Declaring no label changes nothing. -/
@[simp] theorem declareMany_zero (t : Table) : t.declareMany 0 = t := by
  simp [declareMany]

/-- Declaring many labels is declaring them one after the other. -/
theorem declareMany_succ (t : Table) (n : Nat) :
    t.declareMany (n + 1) = t.declare.1.declareMany n := by
  have h (e : Entry) : Array.replicate (n + 1) e = #[e] ++ Array.replicate n e := by
    apply Array.ext'
    simp [List.replicate_succ]
  simp only [declareMany, declare, h, ← Array.append_assoc, Array.push_eq_append]

@[simp] theorem size_set (t : Table) (l : Label) (e : Entry) : (t.set l e).size = t.size := by
  simp [set, size]

/-- A replaced entry is found. -/
theorem entry_set_self {t : Table} {l : Label} (e : Entry) (h : l.index < t.size) :
    (t.set l e).entry l = .ok e := by
  have h' : l.index < t.entries.size := h
  simp [entry, set, h']

/-- Replacing an entry leaves the others alone. -/
theorem entry_set_of_ne {t : Table} {l k : Label} (e : Entry) (h : k ≠ l) :
    (t.set l e).entry k = t.entry k := by
  have hi : l.index ≠ k.index := fun hcon => h (by cases k; cases l; simp_all)
  simp [entry, set, Array.getElem?_setIfInBounds_ne hi]

theorem entry_set_cases {t : Table} {l k : Label} {e e' : Entry} (hl : l.index < t.size)
    (h : (t.set l e).entry k = .ok e') : k = l ∧ e = e' ∨ k ≠ l ∧ t.entry k = .ok e' := by
  by_cases hk : k = l
  · rw [hk, entry_set_self e hl] at h
    exact .inl ⟨hk, Except.ok.inj h⟩
  · rw [entry_set_of_ne e hk] at h
    exact .inr ⟨hk, h⟩

/-- A declared label has no position and no uses. -/
theorem entry_declare_self (t : Table) : t.declare.1.entry t.declare.2 = .ok {} := by
  simp [entry, declare]

end Table

end NativeMatcher.Label
