/-!
# The status of a run

Generated code returns one number: how many capture sets it stored, zero for none, or
one of three negative statuses.
-/

namespace NativeMatcher

/-- How a run of generated code ended. -/
inductive Status where
  /-- Capture sets were stored; there is only one outside the global modes. -/
  | success (count : Nat)
  /-- Nothing matched. -/
  | failure
  /-- The backtrack stack or the native stack is exhausted. -/
  | exception
  /-- The host has to handle its interrupts and run the matcher again. -/
  | retry
  /-- Too many backtracks; another engine may do better. -/
  | fallback
  deriving DecidableEq, Repr

namespace Status

/-- The number a status is returned as. -/
def raw : Status → Int
  | success n => n
  | failure => 0
  | exception => -1
  | retry => -2
  | fallback => -3

/-- The status of a returned number; a count fits 32 bits. -/
def ofRaw (n : Int) : Option Status :=
  if n = 0 then some failure
  else if n = -1 then some exception
  else if n = -2 then some retry
  else if n = -3 then some fallback
  else if 0 < n ∧ n ≤ 4294967295 then some (success n.toNat)
  else none

/-- The status of a run that stored `n` capture sets. -/
def ofCount (n : Nat) : Status := if n = 0 then failure else success n

/-- A count that fits 32 bits is read back as it was returned. -/
theorem ofRaw_raw {s : Status} (h : ∀ n, s = success n → 0 < n ∧ n ≤ 4294967295) :
    ofRaw s.raw = some s := by
  cases s with
  | success n =>
    obtain ⟨h0, h1⟩ := h n rfl
    have hn : (n : Int).toNat = n := Int.toNat_natCast n
    change ofRaw (n : Int) = some (success n)
    rw [ofRaw, if_neg (by omega), if_neg (by omega), if_neg (by omega), if_neg (by omega),
      if_pos (by omega), hn]
  | failure => rfl
  | exception => rfl
  | retry => rfl
  | fallback => rfl

/-- A count of zero is read back as a failure, and a count that does not fit as nothing; all else is
read back as it was returned. -/
theorem ofRaw_raw_cases (s : Status) :
    ofRaw s.raw = some s ∨ s = success 0 ∧ ofRaw s.raw = some failure ∨
      ∃ n, s = success n ∧ 4294967295 < n ∧ ofRaw s.raw = none := by
  cases s with
  | success n =>
    rcases Nat.eq_zero_or_pos n with rfl | hpos
    · exact Or.inr (Or.inl ⟨rfl, rfl⟩)
    · rcases Nat.lt_or_ge 4294967295 n with hlarge | hsmall
      · refine Or.inr (Or.inr ⟨n, rfl, hlarge, ?_⟩)
        change ofRaw (n : Int) = none
        rw [ofRaw, if_neg (by omega), if_neg (by omega), if_neg (by omega), if_neg (by omega),
          if_neg (by omega)]
      · refine Or.inl (ofRaw_raw fun k hk => ?_)
        obtain rfl := success.inj hk
        exact ⟨hpos, hsmall⟩
  | _ => exact Or.inl rfl

end Status

end NativeMatcher
