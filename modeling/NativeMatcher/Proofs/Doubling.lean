import NativeMatcher.Proofs.LiveEntries

/-!
# Growing at a pointer

A host that is asked to grow the backtrack stack is given a pointer, an address, and answers with
another one. What is live lies between the pointer and the top, so it is at the high end of the
memory, and it has to get to the high end of another memory, which is twice as long
(`NativeMatcher.Backtrack.Stack.memory_grow`). Counted from the top nothing moves: the pointer is as
far from it as before, and the entry `i` below it is the same
(`NativeMatcher.Backtrack.Stack.doubled_of_grow`).

A request is refused for one of three reasons, and then there is no other memory
(`NativeMatcher.Backtrack.Stack.grow_eq_none_iff`). So requests may follow each other, granted or
not, at pointers of their own: an entry that is live at all of them stays
(`NativeMatcher.Backtrack.Stack.entry_afterGrowths`).
-/

namespace NativeMatcher.Backtrack.Stack

/-- The entry `i` entries below the top. -/
def entry (s : Stack) (i : Nat) : Option UInt32 := s.read ((4 * (i + 1) : Nat) : Int)

/-- The entries of the memory, from its lowest address up. -/
def memory (s : Stack) : List UInt32 := ((List.range s.capacity).map s.cell).reverse

/-- The distance of an address below the top. -/
def depthOf (s : Stack) (sp : Nat) : Int := s.top - sp

/-- What a request to grow leaves: the new memory, or the memory as it was. -/
def afterGrow (s : Stack) (depth : Int) : Stack := ((s.grow depth).map Prod.fst).getD s

/-- What requests leave, one after the other. -/
def afterGrowths (s : Stack) (depths : List Int) : Stack := depths.foldl afterGrow s

/-- The memory has doubled around a pointer: `t` is the new memory, and `depth'` the distance of the
new pointer below its top. -/
structure Doubled (s t : Stack) (depth depth' : Int) : Prop where
  /-- The size doubles. -/
  size : t.size = s.size * 2
  /-- The pointer is as far from the top as before. -/
  distance : depth' = depth
  /-- Every live entry is where it was, counted from the top. -/
  entries : ∀ i < depth.toNat / 4, ∃ v, s.entry i = some v ∧ t.entry i = some v
  /-- The new memory is the live part of the old one, with zeros below it. -/
  memory : t.memory = List.replicate (t.capacity - depth.toNat / 4) 0 ++
    s.memory.drop (s.capacity - depth.toNat / 4)

section Request

variable {s t : Stack} {depth depth' : Int} {sp i : Nat}

/-- The top is at a whole number of entries. -/
theorem dvd_top (s : Stack) : 4 ∣ s.top := by
  have hheap : Memory.heap = 4 * 26388279066624 := rfl
  unfold top base size
  split <;> omega

/-- An entry inside the memory is its cell. -/
theorem entry_eq_cell (h : 4 * (i + 1) ≤ s.size) : s.entry i = some (s.cell i) := by
  refine read_aligned s ?_
  simp only [inside, Bool.and_eq_true, decide_eq_true_eq]
  omega

/-- **A request is refused for one of three reasons**: the size cannot be doubled, it would be more
than the maximum, or the pointer is not in the memory. -/
theorem grow_eq_none_iff : s.grow (s.depthOf sp) = none ↔
    2 ^ 64 ≤ s.size * 2 ∨ s.maxBytes < s.size * 2 ∨ sp < s.base ∨ s.top < sp := by
  have htop : s.top = s.base + s.size := rfl
  unfold grow depthOf
  simp only [ite_eq_right_iff, reduceCtorEq, imp_false]
  omega

theorem afterGrow_of_none (h : s.grow depth = none) : s.afterGrow depth = s := by
  rw [afterGrow, h]
  rfl

theorem afterGrow_of_some (h : s.grow depth = some (t, depth')) : s.afterGrow depth = t := by
  rw [afterGrow, h]
  rfl

/-- Below the live entries the new memory is empty. -/
theorem cell_grow_of_le (h : s.grow depth = some (t, depth')) (hi : depth.toNat / 4 ≤ i) :
    t.cell i = 0 := by
  unfold grow at h
  simp only at h
  split at h
  · obtain ⟨rfl, -⟩ := Prod.mk.inj (Option.some.inj h)
    rw [cell, Array.getD_eq_getD_getElem?, Array.getElem?_extract, if_neg (by omega)]
    rfl
  · cases h

/-- **A growth copies the live part of the memory to the high end of the new one.** The part below
it is new and zero. The other results about the memory after a growth are read off this equation. -/
theorem memory_grow (h : s.grow depth = some (t, depth')) :
    t.memory = List.replicate (t.capacity - depth.toNat / 4) 0 ++
      s.memory.drop (s.capacity - depth.toNat / 4) := by
  obtain ⟨-, hle, -⟩ := depth_grow h
  have hsize := size_grow h
  unfold size at hle hsize
  obtain ⟨free, hfree⟩ := Nat.exists_eq_add_of_le (show depth.toNat / 4 ≤ t.capacity by omega)
  have hlive : (List.range (depth.toNat / 4)).map t.cell =
      (List.range (depth.toNat / 4)).map s.cell :=
    List.map_congr_left fun i hi => cell_grow h (List.mem_range.mp hi)
  have hempty : (List.range free).map (fun i => t.cell (depth.toNat / 4 + i)) =
      List.replicate free 0 := by
    refine List.eq_replicate_iff.mpr ⟨by rw [List.length_map, List.length_range], fun c hc => ?_⟩
    obtain ⟨i, -, rfl⟩ := List.mem_map.mp hc
    exact cell_grow_of_le h (Nat.le_add_right _ i)
  have hdrop : s.memory.drop (s.capacity - depth.toNat / 4) =
      ((List.range (depth.toNat / 4)).map s.cell).reverse := by
    rw [memory, List.drop_reverse, List.length_map, List.length_range, ← List.map_take,
      List.take_range]
    congr 3
    omega
  rw [hdrop, ← hlive, memory, hfree, Nat.add_sub_cancel_left, List.range_add, List.map_append,
    List.reverse_append, List.map_map]
  exact congrArg (· ++ _) ((congrArg List.reverse hempty).trans List.reverse_replicate)

/-- **A growth doubles the memory around the pointer**, if this is at a whole number of entries. -/
theorem doubled_of_grow (h : s.grow depth = some (t, depth')) (hdepth : 4 ∣ depth) :
    Doubled s t depth depth' := by
  obtain ⟨hpos, hle, rfl⟩ := depth_grow h
  have hsize := size_grow h
  refine ⟨hsize, by omega, fun i hi => ⟨s.cell i, entry_eq_cell (by omega), ?_⟩, memory_grow h⟩
  rw [entry_eq_cell (by omega), cell_grow h hi]

/-- A request doubles the memory or leaves its size. -/
theorem size_afterGrow (s : Stack) (depth : Int) :
    (s.afterGrow depth).size = s.size * 2 ∨ s.afterGrow depth = s := by
  cases h : s.grow depth with
  | none => exact Or.inr (afterGrow_of_none h)
  | some p =>
    rw [afterGrow_of_some h]
    exact Or.inl (size_grow h)

/-- A request leaves the entries that are live at it. -/
theorem entry_afterGrow (hi : i < depth.toNat / 4) : (s.afterGrow depth).entry i = s.entry i := by
  cases h : s.grow depth with
  | none => rw [afterGrow_of_none h]
  | some p =>
    obtain ⟨-, hle, -⟩ := depth_grow h
    have hsize := size_grow h
    rw [afterGrow_of_some h, entry_eq_cell (by omega), entry_eq_cell (by omega), cell_grow h hi]

/-- However many requests are made, the memory has doubled with each that was granted. -/
theorem size_afterGrowths (s : Stack) (depths : List Int) :
    ∃ n ≤ depths.length, (s.afterGrowths depths).size = s.size * 2 ^ n := by
  induction depths generalizing s with
  | nil => exact ⟨0, Nat.le_refl 0, (Nat.mul_one _).symm⟩
  | cons depth depths ih =>
    obtain ⟨n, hn, hsize⟩ := ih (s.afterGrow depth)
    rw [List.length_cons]
    rcases size_afterGrow s depth with hdouble | hsame
    · refine ⟨n + 1, by omega, hsize.trans ?_⟩
      rw [hdouble, Nat.mul_assoc, Nat.pow_succ']
    · rw [hsame] at hsize
      refine ⟨n, by omega, ?_⟩
      rw [afterGrowths, List.foldl_cons, hsame]
      exact hsize

/-- **An entry that is live at all requests stays**, whether they are granted or not. -/
theorem entry_afterGrowths {depths : List Int} (hlive : ∀ depth ∈ depths, i < depth.toNat / 4) :
    (s.afterGrowths depths).entry i = s.entry i := by
  induction depths generalizing s with
  | nil => rfl
  | cons depth depths ih =>
    obtain ⟨hfirst, hrest⟩ := List.forall_mem_cons.mp hlive
    exact (ih hrest).trans (entry_afterGrow hfirst)

/-- **Growing at a pointer**: a request is refused exactly if the doubled size does not fit a word,
or exceeds the maximum, or the pointer lies outside the memory, and then it leaves everything as it
was. Otherwise the size doubles, the pointer keeps its distance from the top, and every live entry
is the same as before. And however many requests follow each other, the entries that are live at all
of them are the same, and the size has doubled with each that was granted. -/
theorem grow_preserves_live (s : Stack) {sp : Nat} (hsp : 4 ∣ sp) :
    (s.grow (s.depthOf sp) = none ↔
      2 ^ 64 ≤ s.size * 2 ∨ s.maxBytes < s.size * 2 ∨ sp < s.base ∨ s.top < sp) ∧
    (s.grow (s.depthOf sp) = none → s.afterGrow (s.depthOf sp) = s) ∧
    (∀ t depth, s.grow (s.depthOf sp) = some (t, depth) → Doubled s t (s.depthOf sp) depth) ∧
    ∀ depths : List Int,
      (∃ n ≤ depths.length, (s.afterGrowths depths).size = s.size * 2 ^ n) ∧
      ∀ i, (∀ depth ∈ depths, i < depth.toNat / 4) →
        (s.afterGrowths depths).entry i = s.entry i := by
  have hdepth : 4 ∣ s.depthOf sp := by
    have htop := s.dvd_top
    unfold depthOf
    omega
  exact ⟨grow_eq_none_iff, afterGrow_of_none, fun t depth h => doubled_of_grow h hdepth,
    fun depths => ⟨size_afterGrowths s depths, fun i => entry_afterGrowths⟩⟩

/-- A full stack of two entries whose pointer is at its base grows twice, and both entries are still
there. -/
theorem grow_preserves_live_full : 4 ∣ Memory.heap ∧
    ∃ s t : Stack, s = { capacity := 2, maxBytes := 32, slack := 0, cells := #[7, 9] } ∧
      s.depthOf Memory.heap = 8 ∧ s.grow 8 = some (t, 8) ∧ Doubled s t 8 8 ∧
      t.memory = [0, 0, 9, 7] ∧ (s.afterGrowths [8, 8, 8]).size = 32 ∧
      (s.afterGrowths [8, 8, 8]).entry 1 = some 9 := by
  have hsp : 4 ∣ Memory.heap := by decide
  obtain ⟨-, -, hsome, hall⟩ := grow_preserves_live
    { capacity := 2, maxBytes := 32, slack := 0, cells := #[7, 9] } hsp
  obtain ⟨-, hentry⟩ := hall [8, 8, 8]
  exact ⟨hsp, _, _, rfl, rfl, rfl, hsome _ _ rfl, by decide, by decide,
    (hentry 1 (by decide)).trans (by decide)⟩

end Request

end NativeMatcher.Backtrack.Stack
