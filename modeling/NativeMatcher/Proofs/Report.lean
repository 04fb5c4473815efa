import NativeMatcher.Engine
import NativeMatcher.Proofs.Position

/-!
# What a match reports

A match stores the registers it reports into the output, as indices from the start of the
subject (`NativeMatcher.Task.reported`). In a global mode one match stores after the other, and
a search takes the output apart again (`NativeMatcher.Engine.captureSets`). Here the two are put
together: after a report the output holds the capture sets it held, and one more
(`NativeMatcher.Task.captureSets_storeCaptures`).
-/

namespace NativeMatcher

/-! ### Storing -/

namespace Task

variable (k : Task)

/-- The registers a match reports, as indices. -/
def reported (count : Nat) (regs : Array Int64) : List Int32 :=
  (List.range count).map fun i => k.captureIndex (regs.getD i 0)

@[simp] theorem length_reported (count : Nat) (regs : Array Int64) :
    (k.reported count regs).length = count := by
  simp [reported]

/-- A report of two registers or more begins with the ends of the match. -/
theorem exists_reported {count : Nat} (h : 2 ≤ count) (regs : Array Int64) :
    ∃ rest, k.reported count regs =
      k.captureIndex (regs.getD 0 0) :: k.captureIndex (regs.getD 1 0) :: rest := by
  obtain ⟨n, rfl⟩ := Nat.exists_eq_add_of_le' h
  refine ⟨(List.range n).map fun i => k.captureIndex (regs.getD (i + 2) 0), ?_⟩
  simp only [reported, List.range_succ_eq_map, List.map_cons, List.map_map]
  rfl

theorem storeCaptures_succ (count base : Nat) (regs : Array Int64) (output : Array Int32) :
    k.storeCaptures (count + 1) base regs output =
      (k.storeCaptures count base regs output).setIfInBounds (base + count)
        (k.captureIndex (regs.getD count 0)) := by
  simp only [storeCaptures, List.range_succ, List.foldl_append, List.foldl_cons, List.foldl_nil]

@[simp] theorem size_storeCaptures (count base : Nat) (regs : Array Int64)
    (output : Array Int32) : (k.storeCaptures count base regs output).size = output.size := by
  induction count with
  | zero => rfl
  | succ n ih => rw [storeCaptures_succ, Array.size_setIfInBounds, ih]

/-- A report leaves alone what is before it. -/
theorem getElem?_storeCaptures_of_lt {count base n : Nat} (regs : Array Int64)
    (output : Array Int32) (h : n < base) :
    (k.storeCaptures count base regs output)[n]? = output[n]? := by
  induction count with
  | zero => rfl
  | succ c ih => rw [storeCaptures_succ, Array.getElem?_setIfInBounds_ne (by omega), ih]

/-- A report holds the registers as indices. -/
theorem getElem?_storeCaptures {count base i : Nat} (regs : Array Int64) {output : Array Int32}
    (h : base + count ≤ output.size) (hi : i < count) :
    (k.storeCaptures count base regs output)[base + i]? =
      some (k.captureIndex (regs.getD i 0)) := by
  induction count with
  | zero => cases hi
  | succ c ih =>
    rw [storeCaptures_succ]
    rcases Nat.lt_or_eq_of_le (Nat.le_of_lt_succ hi) with hlt | rfl
    · rw [Array.getElem?_setIfInBounds_ne (by omega), ih (by omega) hlt]
    · rw [Array.getElem?_setIfInBounds_self_of_lt (by rw [size_storeCaptures]; omega)]

/-- A report replaces the registers from its place on, and no others. -/
theorem toList_storeCaptures {count base : Nat} (regs : Array Int64) {output : Array Int32}
    (h : base + count ≤ output.size) :
    (k.storeCaptures count base regs output).toList =
      output.toList.take base ++ k.reported count regs ++ output.toList.drop (base + count) := by
  induction count with
  | zero => simp [storeCaptures, reported]
  | succ n ih =>
    have hlen : (output.toList.take base ++ k.reported n regs).length = base + n := by
      simp
      omega
    rw [storeCaptures_succ, Array.toList_setIfInBounds, ih (by omega), ← hlen,
      List.set_append_right _ _ (Nat.le_refl _)]
    rw [Nat.sub_self, hlen, List.drop_eq_getElem_cons (by simp; omega), List.set_cons_zero]
    simp only [reported, List.range_succ, List.map_append, List.map_cons, List.map_nil,
      List.append_assoc, List.cons_append, List.nil_append, Nat.add_assoc]

end Task

/-! ### Taking apart -/

namespace Engine

/-- A capture set more. -/
theorem captureSets_succ (saved n : Nat) (regs : List Int32) :
    captureSets saved (n + 1) regs =
      captureSets saved n regs ++ [Captures.ofRegisters ((regs.drop (n * saved)).take saved)] := by
  induction n generalizing regs with
  | zero => simp [captureSets]
  | succ n ih =>
    rw [captureSets, ih, captureSets, List.cons_append, List.drop_drop, Nat.succ_mul,
      Nat.add_comm saved]

theorem append_concat (found : Array Captures) (sets : List Captures) (last : Captures) :
    found ++ (sets ++ [last]) = (found ++ sets).push last :=
  Array.ext' (by simp)

/-- Capture sets are a matter of the registers they are made of. -/
theorem captureSets_congr {saved n : Nat} {regs regs' : List Int32}
    (h : regs.take (n * saved) = regs'.take (n * saved)) :
    captureSets saved n regs = captureSets saved n regs' := by
  induction n generalizing regs regs' with
  | zero => rfl
  | succ n ih =>
    have hfirst : regs.take saved = regs'.take saved := by
      have htake := congrArg (List.take saved) h
      rwa [List.take_take, List.take_take, Nat.min_eq_left (Nat.le_mul_of_pos_left _ n.succ_pos)]
        at htake
    have hrest : (regs.drop saved).take (n * saved) = (regs'.drop saved).take (n * saved) := by
      have hdrop := congrArg (List.drop saved) h
      rwa [List.drop_take, List.drop_take, Nat.succ_mul, Nat.add_sub_cancel] at hdrop
    rw [captureSets, captureSets, hfirst, ih hrest]

end Engine

namespace Task

variable (k : Task)

/-- **After a report the output holds one capture set more.** The sets before it are as they were,
since the report is stored behind them. -/
theorem captureSets_storeCaptures {saved n : Nat} (regs : Array Int64) {output : Array Int32}
    (h : n * saved + saved ≤ output.size) :
    Engine.captureSets saved (n + 1) (k.storeCaptures saved (n * saved) regs output).toList =
      Engine.captureSets saved n output.toList ++
        [Captures.ofRegisters (k.reported saved regs)] := by
  have hlen : (output.toList.take (n * saved)).length = n * saved := by
    simp
    omega
  rw [Engine.captureSets_succ, toList_storeCaptures k regs h]
  congr 1
  · refine Engine.captureSets_congr ?_
    rw [List.append_assoc, List.take_append_of_le_length (Nat.le_of_eq hlen.symm), List.take_take,
      Nat.min_self]
  · rw [List.append_assoc, List.drop_append, hlen, Nat.sub_self, List.drop_zero,
      List.drop_eq_nil_of_le (Nat.le_of_eq hlen), List.nil_append,
      List.take_append_of_le_length (by simp), List.take_of_length_le (by simp)]

/-- The report of one match on its own. -/
theorem toList_storeCaptures_replicate (saved : Nat) (regs : Array Int64) :
    (k.storeCaptures saved 0 regs (Array.replicate saved (-1))).toList = k.reported saved regs := by
  rw [toList_storeCaptures k regs (by simp)]
  simp

theorem getD_storeCaptures_replicate {saved i : Nat} (regs : Array Int64) (hi : i < saved) :
    (k.storeCaptures saved 0 regs (Array.replicate saved (-1))).getD i 0 =
      k.captureIndex (regs.getD i 0) := by
  rw [Array.getD_eq_getD_getElem?, ← Array.getElem?_toList, toList_storeCaptures_replicate,
    reported, List.getElem?_map, List.getElem?_range hi]
  rfl

end Task

end NativeMatcher
