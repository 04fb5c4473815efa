/-!
# Configuration

The sizes and limits of an engine. A configuration is valid if the backtrack stack has
room past the entries that may go unchecked, can reach its initial size, and the
matches of a search are asked for at least one at a time.
-/

namespace NativeMatcher

/-- The sizes and limits of an engine. -/
structure Config where
  /-- Bytes of backtrack stack at the start. -/
  initialStack : Nat := 4096
  /-- Bytes of backtrack stack at most. -/
  maxStack : Nat := 67108864
  /-- Bytes of native stack a matcher may use. -/
  nativeBudget : Nat := 524288
  /-- How often a matcher that asks for it is run again. -/
  maxRetries : Nat := 8
  /-- Whether the code moves at every poll. -/
  stress : Bool := false
  /-- How many capture sets a search for all matches asks for at once. -/
  batch : Nat := 16
  deriving DecidableEq, Repr

/-- What is wrong with a configuration. -/
inductive ConfigError where
  /-- The initial backtrack stack is too small. -/
  | initialTooSmall (bytes : Nat)
  /-- The maximum is below the initial size. -/
  | maxBelowInitial (max initial : Nat)
  /-- No capture sets are asked for. -/
  | emptyBatch
  deriving DecidableEq, Repr

namespace Config

/-- The least initial size of the backtrack stack. -/
def minStack : Nat := 1024

/-- The first thing that is wrong with a configuration. -/
def error? (c : Config) : Option ConfigError :=
  if c.initialStack < minStack then some (.initialTooSmall c.initialStack)
  else if c.maxStack < c.initialStack then some (.maxBelowInitial c.maxStack c.initialStack)
  else if c.batch = 0 then some .emptyBatch
  else none

/-- The configuration as one line of text. -/
def describe (c : Config) : String :=
  "RuntimeConfig \x7b initial_backtrack_stack_size: " ++ toString c.initialStack
    ++ ", max_backtrack_stack_size: " ++ toString c.maxStack
    ++ ", native_stack_budget: " ++ toString c.nativeBudget
    ++ ", max_retries: " ++ toString c.maxRetries
    ++ ", stress_relocation: " ++ (if c.stress then "true" else "false")
    ++ ", global_batch_size: " ++ toString c.batch ++ " \x7d"

/-- A valid configuration, in one line. -/
theorem error?_eq_none_iff {c : Config} :
    c.error? = none ↔ minStack ≤ c.initialStack ∧ c.initialStack ≤ c.maxStack ∧ c.batch ≠ 0 := by
  unfold error?
  split
  · simp; omega
  · split
    · simp; omega
    · split
      · simp_all
      · simp_all

end Config

/-- The wording of a configuration error. -/
def ConfigError.message : ConfigError → String
  | initialTooSmall n =>
    s!"initial backtrack stack of {n} bytes is below the minimum of {Config.minStack}"
  | maxBelowInitial m i =>
    s!"maximum backtrack stack ({m}) is smaller than the initial size ({i})"
  | emptyBatch => "global batch size must be positive"

end NativeMatcher
