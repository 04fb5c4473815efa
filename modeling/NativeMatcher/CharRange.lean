/-!
# Character ranges

Inclusive ranges of 32-bit characters, and the *boundary list* a compiled
matcher uses to look a character up in many ranges at once. The boundaries of a
list of ranges are the first character of each range and the character after
its last one; a character lies in one of sorted, disjoint ranges exactly when an
odd number of boundaries is at or below it.
-/

namespace NativeMatcher

/-- The characters from `first` to `last`, both included. -/
structure CharRange where
  /-- The lowest character of the range. -/
  first : UInt32
  /-- The highest character of the range. -/
  last : UInt32
  deriving DecidableEq, Repr

namespace CharRange

/-- The range of one character. -/
def singleton (c : UInt32) : CharRange := ⟨c, c⟩

/-- Whether `c` lies in the range. -/
def contains (r : CharRange) (c : UInt32) : Bool :=
  r.first ≤ c && c ≤ r.last

/-- Ranges are ordered by their first character, then by their last one. -/
def compare (r s : CharRange) : Ordering :=
  (Ord.compare r.first.toNat s.first.toNat).then (Ord.compare r.last.toNat s.last.toNat)

/-- The character after `c`, or `c` itself for the largest word. -/
def after (c : UInt32) : UInt32 :=
  if c = 0xFFFFFFFF then c else c + 1

/-- The boundary list of `ranges`. -/
def boundaries (ranges : List CharRange) : List UInt32 :=
  ranges.flatMap fun r => [r.first, after r.last]

/-- Membership by parity: whether an odd number of the ascending `bounds` is at
or below `c`. -/
def memBoundaries (bounds : List UInt32) (c : UInt32) : Bool :=
  (bounds.takeWhile (· ≤ c)).length % 2 == 1

theorem contains_iff {r : CharRange} {c : UInt32} :
    r.contains c = true ↔ r.first ≤ c ∧ c ≤ r.last := by
  simp [contains]

/-- A singleton contains its own character only. -/
theorem contains_singleton_iff {c d : UInt32} : (singleton c).contains d = true ↔ d = c := by
  rw [contains_iff]
  exact ⟨fun h => UInt32.le_antisymm h.2 h.1, fun h => h ▸ ⟨UInt32.le_refl _, UInt32.le_refl _⟩⟩

@[simp] theorem boundaries_nil : boundaries [] = [] := rfl

@[simp] theorem boundaries_cons (r : CharRange) (rs : List CharRange) :
    boundaries (r :: rs) = r.first :: after r.last :: boundaries rs := rfl

@[simp] theorem length_boundaries (rs : List CharRange) :
    (boundaries rs).length = 2 * rs.length := by
  induction rs with
  | nil => rfl
  | cons r rs ih => simp only [boundaries_cons, List.length_cons, ih]; omega

end CharRange

end NativeMatcher
