import NativeMatcher.Matching.Step

/-!
# Runs

A thread runs by taking steps until it is done (`NativeMatcher.Task.run`). A program may
loop for ever, and then the run has no ending. What a thread does in a given number of
steps is `NativeMatcher.Task.steps`; the two fit together step by step
(`NativeMatcher.Task.run_eq_steps`), so that a run ends as it does after enough steps.

An *attempt* is a run from the entry of the matcher: a poll, the start, and then the
program (`NativeMatcher.Task.attempt`).
-/

namespace NativeMatcher

/-- The native stack pointer of the host as it calls a matcher, a multiple of 16. Only distances
from it matter. -/
def hostFrame : Nat := 140737488355328

/-- Bytes of a matcher's frame: the return address, the saved frame pointer, the fifteen
fixed slots and the registers. -/
def frameBytes (registers : Nat) : Nat := 8 * (17 + registers)

/-- Bytes that the call of the host from a firing poll takes below the frame: the return address
of the stub, the word that keeps the stack pointer, the return address of the call, and one more
word where the frame leaves the stack pointer at no multiple of 16. -/
def pollBytes (registers : Nat) : Nat := if registers % 2 = 0 then 32 else 24

/-- The native stack pointer of a matcher at a poll. -/
def nativePointer (registers : Nat) : UInt64 := UInt64.ofNat (hostFrame - frameBytes registers)

/-- The lowest address of the native stack that a budget allows. The host measures the budget from
a place in its own frame, `gap` bytes above its stack pointer at the call. -/
def nativeLimit (gap budget : Nat) : UInt64 := UInt64.ofNat (hostFrame + gap - budget)

/-- How a run ended. -/
inductive Ending where
  /-- It is done. -/
  | done (status : Status) (t : Thread)
  /-- It went astray. -/
  | stray

/-- Runs on with a thread that goes on. -/
def Outcome.ending (o : Outcome) (run : Thread → Option Ending) : Option Ending :=
  match o with
  | .next t => run t
  | .done s t => some (.done s t)
  | .stray => some .stray

namespace Task

/-- Takes steps until the thread does not go on; there is no ending if it always does. -/
def run (k : Task) (t : Thread) : Option Ending :=
  match k.step t with
  | .next t => k |>.run t
  | .done s t => some (.done s t)
  | .stray => some .stray
partial_fixpoint

/-- Takes up to `n` steps. -/
def steps (k : Task) : (n : Nat) → Thread → Outcome
  | 0, t => .next t
  | n + 1, t => (k.step t).andThen (steps k n)

/-- The task of running a matcher on a subject. -/
def ofMatcher (m : Matcher) (subject : Subject) (origin : CallOrigin) : Task where
  matcher := m
  places := m.program.places
  subject := subject
  origin := origin
  sp := nativePointer m.object.registers

/-- The thread at the entry of the matcher, to try from character `start` on. -/
def enter (k : Task) (start : Nat) (output : Array Int32) (stack : Backtrack.Stack)
    (guard : Guard) : Thread where
  pc := 0
  pos := Int64.ofNat (start * k.mode.charSize) - k.length
  char := 0
  regs := #[]
  depth := 0
  backtracks := 0
  captures := 0
  outBase := 0
  remaining := output.size
  output := output
  limit := guard.interruptLimit
  stack := stack
  guard := guard
  polls := 0
  relocations := 0
  growths := 0

/-- A run from the entry of the matcher. -/
def attempt (k : Task) (t : Thread) : Option Ending :=
  ((k.poll t).andThen k.restart).ending k.run

/-- A run is a step and a run from there. -/
theorem run_eq (k : Task) (t : Thread) : k.run t = (k.step t).ending k.run := by
  rw [run.eq_1]
  rfl

/-- Going on is going on: `m + n` steps are `m` steps followed by `n`. -/
theorem steps_add (k : Task) (m n : Nat) (t : Thread) :
    k.steps (m + n) t = (k.steps m t).andThen (k.steps n) := by
  induction m generalizing t with
  | zero => simp [steps, Outcome.andThen]
  | succ m ih =>
    rw [Nat.add_right_comm, steps, steps]
    cases k.step t with
    | next t => exact ih t
    | done s t => rfl
    | stray => rfl

/-- A run does what a number of steps does, and runs on from there. -/
theorem run_eq_steps (k : Task) (n : Nat) (t : Thread) : k.run t = (k.steps n t).ending k.run := by
  induction n generalizing t with
  | zero => rfl
  | succ n ih =>
    rw [run_eq, steps]
    cases k.step t with
    | next t => exact ih t
    | done s t => rfl
    | stray => rfl

end Task

end NativeMatcher
