import NativeMatcher.Fault

/-!
# Frame layouts

A layout assigns every slot its offset from the frame pointer. The slots *above*
follow the frame pointer at increasing addresses, beginning with the word it
points at; the slots *below* go down from the word under it; and the capture
registers go further down from there.
-/

namespace NativeMatcher.Frame

/-- The order of a matcher's frame. -/
structure Layout where
  /-- Bytes per word. -/
  wordSize : Int32
  /-- The slots from the frame pointer upwards. -/
  above : List Slot
  /-- The slots from the word under the frame pointer downwards. -/
  below : List Slot
  deriving DecidableEq, Repr

namespace Layout

/-- The first member of a list that occurs in it again. -/
def firstRepeated : List Slot → Option Slot
  | [] => none
  | s :: rest => if s ∈ rest then some s else firstRepeated rest

/-- The layout of the given slots, which have to be distinct. -/
def new (wordSize : Int32) (above below : List Slot) : Except Fault Layout :=
  match firstRepeated (above ++ below) with
  | some s => .error (.slotListedTwice s)
  | none => .ok ⟨wordSize, above, below⟩

/-- The place of a slot in words above the frame pointer, if the layout lists it. -/
def place? (l : Layout) (s : Slot) : Option Int :=
  match l.above.idxOf? s with
  | some i => some i
  | none => (l.below.idxOf? s).map fun i => -(i + 1 : Int)

/-- The offset of a slot from the frame pointer, if the layout lists it. -/
def tryOffset (l : Layout) (s : Slot) : Except Fault (Option Int32) :=
  match l.place? s with
  | some p => some <$> Checked.mul (Int32.ofInt p) l.wordSize
  | none => .ok none

/-- The offset of a slot that the layout lists. -/
def offset (l : Layout) (s : Slot) : Except Fault Int32 := do
  match ← l.tryOffset s with
  | some o => return o
  | none => throw (.missingSlot s)

/-- The place of capture register `index` in words above the frame pointer. -/
def registerPlace (l : Layout) (index : Nat) : Int := -(l.below.length + 1 + index : Nat)

/-- The offset of capture register `index` from the frame pointer. -/
def registerOffset (l : Layout) (index : Nat) : Except Fault Int32 := do
  let n ← Checked.size .add (l.below.length + 1 + index)
  let p ← Checked.neg (Int32.ofNat n)
  Checked.mul p l.wordSize

/-- The word size as a 64-bit size. -/
def wordBytes (l : Layout) : Nat := (l.wordSize.toInt % 18446744073709551616).toNat

/-- Bytes from the frame pointer down to the lowest slot. -/
def fixedBelowSize (l : Layout) : Except Fault Nat :=
  Checked.size .mul (l.below.length * l.wordBytes)

/-- Bytes that `n` capture registers occupy. -/
def registerFileSize (l : Layout) (n : Nat) : Except Fault Nat :=
  Checked.size .mul (n * l.wordBytes)

/-- Nothing is repeated exactly when the members are distinct. -/
theorem firstRepeated_eq_none_iff {l : List Slot} : firstRepeated l = none ↔ l.Nodup := by
  induction l with
  | nil => simp [firstRepeated]
  | cons s rest ih =>
    rw [firstRepeated, List.nodup_cons]
    split
    · next h => simp [h]
    · next h => simp [h, ih]

/-- A layout exists exactly for distinct slots. -/
theorem isOk_new_iff {w : Int32} {above below : List Slot} :
    (∃ l, new w above below = .ok l) ↔ (above ++ below).Nodup := by
  rw [← firstRepeated_eq_none_iff, new]
  split
  · next s h => simp [h]
  · next h => simp [h]

end Layout

end NativeMatcher.Frame
