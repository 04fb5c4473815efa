import NativeMatcher.Memory

/-!
# The backtrack stack

The memory a matcher keeps its resumption points in. It grows down from its top, in
entries of 32 bits, and a place in it is given by its *depth*, the distance below the
top in bytes: depth zero is the empty stack. Depths survive a growth, addresses would
not.

The memory is a row of cells counted from the top; a cell that was never written is
zero. A full stack doubles up to a maximum, keeping the live entries
(`NativeMatcher.Backtrack.Stack.grow`). The last `slack` entries are kept free by the
limit check, so that a few pushes may go without one.
-/

namespace NativeMatcher.Backtrack

/-- The memory of the backtrack stack. -/
structure Stack where
  /-- The size of the memory in entries. -/
  capacity : Nat
  /-- The largest size in bytes. -/
  maxBytes : Nat
  /-- The entries that the limit check keeps free. -/
  slack : Nat
  /-- The cells written so far, from the top down. -/
  cells : Array UInt32 := #[]
  deriving Repr

namespace Stack

/-- A stack of `initialBytes`, rounded down to whole entries. -/
def new (initialBytes maxBytes slack : Nat) : Except Fault Stack := do
  Memory.request (initialBytes / 4 * 4)
  return { capacity := initialBytes / 4, maxBytes := maxBytes, slack := slack }

/-- The size of the memory in bytes. -/
def size (s : Stack) : Nat := s.capacity * 4

/-- The lowest address of the memory; a stack without memory has the lowest address that an
entry can have. -/
def base (s : Stack) : Nat := if s.capacity = 0 then 4 else Memory.heap

/-- The address of the empty stack. -/
def top (s : Stack) : Nat := s.base + s.size

/-- The depth at which a checked push grows the stack. -/
def limit (s : Stack) : Int := (s.size : Int) - (s.slack * 4 : Nat)

/-- The limit as the distance of its address from the top, in a word. -/
def limitDistance (s : Stack) : Except Fault Int64 := do
  let bytes ← Checked.size .mul (s.slack * 4)
  let _ ← Checked.size .add (s.base + bytes)
  return Int64.ofInt s.limit

/-- The cell `i` entries below the top. -/
def cell (s : Stack) (i : Nat) : UInt32 := s.cells.getD i 0

/-- The cells with cell `i` replaced. -/
def setCell (cells : Array UInt32) (i : Nat) (v : UInt32) : Array UInt32 :=
  if i < cells.size then cells.setIfInBounds i v
  else (cells ++ Array.replicate (i - cells.size) 0).push v

/-- Whether a whole entry lies at a depth. -/
def inside (s : Stack) (depth : Int) : Bool := 4 ≤ depth && depth ≤ s.size

/-- The entry that lies across two cells: past the lower `low` bits of the cell `below` it,
and on into the cell above. -/
def across (low below above : UInt32) : UInt32 := (below >>> low) ||| (above <<< (32 - low))

/-- The cell below an entry `v` that lies across two cells: its lower `low` bits stay. -/
def setBelow (low below v : UInt32) : UInt32 :=
  ((below <<< (32 - low)) >>> (32 - low)) ||| (v <<< low)

/-- The cell above an entry `v` that lies across two cells: all but its lower `low` bits
stay. -/
def setAbove (low above v : UInt32) : UInt32 := ((above >>> low) <<< low) ||| (v >>> (32 - low))

/-- The entry at a depth. An entry that is not aligned takes part in two cells, and one that
reaches past the top is zero there. -/
def read (s : Stack) (depth : Int) : Option UInt32 :=
  if s.inside depth then
    let q := depth.toNat / 4
    match depth.toNat % 4 with
    | 0 => some (s.cell (q - 1))
    | r => some (across (8 * UInt32.ofNat (4 - r)) (s.cell q) (s.cell (q - 1)))
  else if 0 < depth ∧ depth < 4 ∧ depth ≤ s.size then
    some (across (8 * UInt32.ofNat (4 - depth.toNat)) (s.cell 0) 0)
  else none

/-- The stack with the entry at a depth replaced. -/
def write (s : Stack) (depth : Int) (v : UInt32) : Option Stack :=
  if s.inside depth then
    let q := depth.toNat / 4
    match depth.toNat % 4 with
    | 0 => some { s with cells := setCell s.cells (q - 1) v }
    | r =>
      let low := 8 * UInt32.ofNat (4 - r)
      let cells := setCell s.cells (q - 1) (setAbove low (s.cell (q - 1)) v)
      some { s with cells := setCell cells q (setBelow low (s.cell q) v) }
  else none

/-- Whether the stack is empty at a depth: its address is not below the top. That is so above
the top, and again where the depth reaches below address zero. -/
def isEmptyAt (s : Stack) (depth : Int) : Bool := depth ≤ 0 || s.top < depth

/-- Bytes in use at a depth. -/
def used (s : Stack) (depth : Int) : Except Fault Nat :=
  if depth < 0 ∨ s.top < depth then .error (.overflow .sub) else .ok depth.toNat

/-- Whether a checked push that led to this depth has to grow the stack. -/
def needsGrowth (s : Stack) (depth : Int) : Bool := s.limit ≤ depth

/-- Doubles the stack and keeps the entries above `depth`; the result is the new depth.
There is none once the doubled size exceeds the maximum, or for a depth outside the
memory. -/
def grow (s : Stack) (depth : Int) : Option (Stack × Int) :=
  let doubled := s.size * 2
  if doubled < 18446744073709551616 ∧ doubled ≤ s.maxBytes ∧ 0 ≤ depth ∧ depth ≤ s.size then
    let live := depth.toNat / 4
    some ({ s with capacity := s.capacity * 2, cells := s.cells.extract 0 live }, (live * 4 : Nat))
  else none

/-! ### Lemmas -/

/-- A cell that was set reads back what was stored, and every other cell is as before. Cells that
were never stored are not kept in the array, so a store beyond its end has to fill the gap with
zeros, which is what they read as anyway. -/
theorem getD_setCell (cells : Array UInt32) (i j : Nat) (v : UInt32) :
    (setCell cells i v).getD j 0 = if j = i then v else cells.getD j 0 := by
  unfold setCell
  simp only [Array.getD_eq_getD_getElem?]
  split
  · next h =>
    rw [Array.getElem?_setIfInBounds]
    by_cases hij : i = j
    · subst hij; simp [h]
    · simp [hij, Ne.symm hij]
  · next h =>
    have h' : cells.size ≤ i := Nat.le_of_not_lt h
    by_cases hij : j = i
    · subst hij
      have hs : (cells ++ Array.replicate (j - cells.size) 0).size = j := by simp; omega
      rw [Array.getElem?_push, if_pos hs.symm]
      simp
    · rw [Array.getElem?_push, if_neg (by simp; omega), if_neg hij]
      by_cases hj : j < cells.size
      · rw [Array.getElem?_append_left hj]
      · rw [Array.getElem?_append_right (Nat.le_of_not_lt hj), Array.getElem?_replicate,
          Array.getElem?_eq_none (Nat.le_of_not_lt hj)]
        split <;> rfl

/-- Growing doubles the memory. -/
theorem size_grow {s t : Stack} {d e : Int} (h : s.grow d = some (t, e)) :
    t.size = s.size * 2 := by
  unfold grow at h
  simp only at h
  split at h
  · obtain ⟨rfl, -⟩ := Prod.mk.inj (Option.some.inj h)
    simp only [size]
    omega
  · cases h

/-- Growing keeps the cells of the live entries. -/
theorem cell_grow {s t : Stack} {d e : Int} {i : Nat} (h : s.grow d = some (t, e))
    (hi : i < d.toNat / 4) : t.cell i = s.cell i := by
  unfold grow at h
  simp only at h
  split at h
  · obtain ⟨rfl, -⟩ := Prod.mk.inj (Option.some.inj h)
    simp only [cell, Array.getD_eq_getD_getElem?, Array.getElem?_extract]
    by_cases hs : i < s.cells.size
    · rw [if_pos (by omega)]
      simp
    · rw [if_neg (by omega), Array.getElem?_eq_none (Nat.le_of_not_lt hs)]
  · cases h

/-- The entry at an aligned depth is its cell. -/
theorem read_aligned (s : Stack) {n : Nat} (h : s.inside ((4 * (n + 1) : Nat) : Int) = true) :
    s.read ((4 * (n + 1) : Nat) : Int) = some (s.cell n) := by
  have hq : (4 * (n + 1)) / 4 = n + 1 := by omega
  have hr : (4 * (n + 1)) % 4 = 0 := by omega
  simp only [read, h, if_true, Int.toNat_natCast, hq, hr, Nat.add_sub_cancel]

/-- A write at an aligned depth replaces its cell. -/
theorem write_aligned (s : Stack) {n : Nat} (v : UInt32)
    (h : s.inside ((4 * (n + 1) : Nat) : Int) = true) :
    s.write ((4 * (n + 1) : Nat) : Int) v = some { s with cells := setCell s.cells n v } := by
  have hq : (4 * (n + 1)) / 4 = n + 1 := by omega
  have hr : (4 * (n + 1)) % 4 = 0 := by omega
  simp only [write, h, if_true, Int.toNat_natCast, hq, hr, Nat.add_sub_cancel]

/-- What was written at an aligned depth is read back, and the other entries stay. -/
theorem cell_write_aligned {s t : Stack} {n i : Nat} {v : UInt32}
    (h : s.write ((4 * (n + 1) : Nat) : Int) v = some t) :
    t.cell i = if i = n then v else s.cell i := by
  by_cases hin : s.inside ((4 * (n + 1) : Nat) : Int) = true
  · rw [write_aligned s v hin] at h
    obtain rfl := Option.some.inj h
    exact getD_setCell s.cells n i v
  · rw [write, if_neg hin] at h
    cases h

/-- The two parts of an entry that lies across two cells make up the entry. -/
theorem across_set (below above v : UInt32) {low : UInt32} (h : low = 8 ∨ low = 16 ∨ low = 24) :
    across low (setBelow low below v) (setAbove low above v) = v := by
  unfold across setBelow setAbove
  rcases h with rfl | rfl | rfl <;>
  · apply UInt32.eq_of_toBitVec_eq
    ext i hi
    simp
    grind

/-- What the cells hold does not change where entries lie. -/
theorem inside_withCells (s : Stack) (cells : Array UInt32) (depth : Int) :
    inside { s with cells := cells } depth = s.inside depth := rfl

/-- Where an entry that is not aligned starts in its cell, in bits. -/
theorem bits_cases {n : Nat} (hn : n % 4 ≠ 0) : 8 * UInt32.ofNat (4 - n % 4) = 8 ∨
    8 * UInt32.ofNat (4 - n % 4) = 16 ∨ 8 * UInt32.ofNat (4 - n % 4) = 24 := by
  obtain h | h | h : n % 4 = 1 ∨ n % 4 = 2 ∨ n % 4 = 3 := by omega
  · exact Or.inr (Or.inr (by rw [h]; rfl))
  · exact Or.inr (Or.inl (by rw [h]; rfl))
  · exact Or.inl (by rw [h]; rfl)

/-- What was written at a depth, aligned or not, is read back there. -/
theorem read_write_self {s t : Stack} {depth : Int} {v : UInt32} (h : s.write depth v = some t) :
    t.read depth = some v := by
  by_cases hin : s.inside depth = true
  · have hd : 4 ≤ depth.toNat := by
      simp only [inside, Bool.and_eq_true, decide_eq_true_eq] at hin
      omega
    have hq : depth.toNat / 4 - 1 ≠ depth.toNat / 4 := by omega
    rw [write, if_pos hin] at h
    simp only at h
    split at h
    · next hr =>
      obtain rfl := Option.some.inj h
      simp only [read, inside_withCells, if_pos hin, hr, cell, getD_setCell, if_pos]
    · next hr =>
      obtain rfl := Option.some.inj h
      simp only [read, inside_withCells, if_pos hin, cell, getD_setCell, if_pos, if_neg hq]
      rw [across_set _ _ _ (bits_cases hr)]
  · rw [write, if_neg hin] at h
    cases h

end Stack

end NativeMatcher.Backtrack
