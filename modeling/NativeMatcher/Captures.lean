/-!
# Captures

A match is reported as registers, a start and an end index for each group; minus one
stands for a group that took no part in the match. Group zero is the whole match.
-/

namespace NativeMatcher

/-- The spans of one match, by group. -/
structure Captures where
  /-- The start and the end of each group that took part in the match. -/
  spans : List (Option (Nat × Nat))
  deriving DecidableEq, Repr

namespace Captures

/-- The span of two registers, if neither is negative. -/
def spanOf (start stop : Int32) : Option (Nat × Nat) :=
  if 0 ≤ start.toInt ∧ 0 ≤ stop.toInt then some (start.toInt.toNat, stop.toInt.toNat) else none

/-- The spans of registers, two by two. -/
def pairs : List Int32 → List (Option (Nat × Nat))
  | a :: b :: rest => spanOf a b :: pairs rest
  | _ => []

/-- The captures of registers; one without a partner is left out. -/
def ofRegisters (regs : List Int32) : Captures := ⟨pairs regs⟩

/-- The span of a group. -/
def get (c : Captures) (group : Nat) : Option (Nat × Nat) := c.spans[group]?.join

/-- The span of the whole match, the empty one at the start if it is not set. -/
def span (c : Captures) : Nat × Nat := (c.get 0).getD (0, 0)

/-- The number of groups. -/
def size (c : Captures) : Nat := c.spans.length

/-- Whether there are no groups. -/
def isEmpty (c : Captures) : Bool := c.spans.isEmpty

theorem length_pairs (regs : List Int32) : (pairs regs).length = regs.length / 2 := by
  fun_induction pairs regs with
  | case1 a b rest ih => simp only [List.length_cons, ih]; omega
  | case2 regs h =>
    match regs with
    | [] => rfl
    | [_] => simp
    | a :: b :: rest => exact absurd rfl (h a b rest)

end Captures

end NativeMatcher
