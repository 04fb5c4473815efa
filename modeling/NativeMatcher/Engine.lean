import NativeMatcher.Captures
import NativeMatcher.Config
import NativeMatcher.Matching.Run
import NativeMatcher.Permission
import NativeMatcher.Store

/-!
# The engine

The engine compiles programs and runs them. It owns what outlives a match: the
compiled programs, the backtrack stack with whatever earlier matches left in it, the
pending interrupts, the permissions, and the counters.

A match is one or more *attempts*. The first is a direct call; if a poll makes it
unwind, the engine handles a pending termination and otherwise runs the matcher again,
now servicing interrupts in place, up to a number of times
(`NativeMatcher.Engine.attempts`).

A search for all matches asks for them in batches and goes on after the last match of
a full batch (`NativeMatcher.Engine.findAll`).

A program may loop for ever. Then the operation that runs it has no result, which is
`none`.
-/

namespace NativeMatcher

open Permission (Scope)

/-! ### Errors -/

/-- Why an engine could not be made, or a program not be compiled. -/
inductive EngineError where
  /-- The program gives no code. -/
  | compile (e : CompileError)
  /-- A denied capability. -/
  | permissionDenied (scope : Scope)
  /-- A configuration that is not valid. -/
  | config (e : ConfigError)
  deriving DecidableEq, Repr

/-- The wording of an engine error. -/
def EngineError.message : EngineError → String
  | compile e => e.message
  | permissionDenied s => s!"permission denied for {s.name}"
  | config e => s!"invalid configuration: {e.message}"

/-- Why a match has no answer. -/
inductive MatchError where
  /-- The backtrack stack or the native stack is exhausted. -/
  | stackOverflow
  /-- An interrupt ended the match. -/
  | aborted
  /-- Too many backtracks. -/
  | fallback
  /-- The subject has another encoding. -/
  | modeMismatch (expected found : Mode)
  /-- The start lies past the end of the subject. -/
  | startOutOfBounds (index size : Nat)
  /-- The output cannot hold one match. -/
  | outputTooSmall (need got : Nat)
  /-- The handle is dead. -/
  | invalidHandle
  /-- All matches are asked for, but the program stops at the first. -/
  | notGlobal
  /-- A denied capability. -/
  | permissionDenied (scope : Scope)
  /-- Generated code returned a number that is no status. -/
  | unexpectedStatus (raw : Int)
  /-- The run went astray: nothing is said about such a program. -/
  | stray
  deriving DecidableEq, Repr

/-- The wording of a match error. -/
def MatchError.message : MatchError → String
  | stackOverflow => "backtrack stack overflow"
  | aborted => "match aborted by an interrupt"
  | fallback => "backtrack limit exceeded; retry with a fallback engine"
  | modeMismatch expected found =>
    s!"subject is {found.name} but the code was compiled for {expected.name}"
  | startOutOfBounds index size =>
    s!"start index {index} is past the end of a subject of length {size}"
  | outputTooSmall need got => s!"output holds {got} registers, {need} needed"
  | invalidHandle => "code handle does not name a live code object"
  | notGlobal => "code was compiled without global mode"
  | permissionDenied s => s!"permission denied for {s.name}"
  | unexpectedStatus raw => s!"native code returned unexpected status {raw}"
  | stray => "the run went astray"

/-! ### The state -/

/-- The counters of an engine. -/
structure Stats where
  /-- Attempts. -/
  executions : Nat := 0
  /-- Polls that fired. -/
  polls : Nat := 0
  /-- How often code moved. -/
  relocations : Nat := 0
  /-- How often the backtrack stack grew. -/
  stackGrowths : Nat := 0
  /-- Attempts that had to be repeated. -/
  retries : Nat := 0
  deriving DecidableEq, Repr

/-- What outlives a match. -/
structure Engine where
  /-- The sizes and limits. -/
  config : Config
  /-- How far above the native stack pointer of a call the place is that the native budget is
  measured from. The compiler that made the host chose it. -/
  gap : Nat
  /-- The permissions. -/
  permissions : Permissions := {}
  /-- The compiled programs. -/
  store : Store := {}
  /-- The backtrack stack. -/
  stack : Backtrack.Stack
  /-- The pending interrupts. -/
  guard : Guard
  /-- The counters. -/
  stats : Stats := {}

namespace Engine

/-- An engine with nothing compiled, for a host whose calls leave this gap. -/
def new (c : Config) (gap : Nat) : Except Fault (Except EngineError Engine) :=
  match c.error? with
  | some e => .ok (.error (.config e))
  | none => do
    let stack ← Backtrack.Stack.new c.initialStack c.maxStack Assembler.stackLimitSlack
    return .ok { config := c, gap := gap, stack := stack, guard := { stress := c.stress } }

/-- Compiles a program, its tables where the heap puts them, or finds it compiled already. -/
def compile (e : Engine) (p : Program) (o : Options) (source : String) (heap : Nat → UInt64) :
    Except Fault (Engine × Except EngineError Handle) :=
  if !e.permissions.isGranted .codeGeneration source then
    .ok (e, .error (.permissionDenied .codeGeneration))
  else match e.store.lookup source p o with
    | some h => .ok (e, .ok h)
    | none =>
      match p.compile o source heap with
      | .ok m =>
        let (store, h) := e.store.insert m
        .ok ({ e with store := store }, .ok h)
      | .error (.error err) => .ok (e, .error (.compile err))
      | .error (.fault f) => .error f

/-- Removes a compiled program, and tells whether it was live. -/
def remove (e : Engine) (h : Handle) : Engine × Bool :=
  let (store, m) := e.store.remove h
  ({ e with store := store }, m.isSome)

/-- Asks the next poll to handle interrupts. -/
def requestInterrupt (e : Engine) (flags : UInt32) : Engine :=
  { e with guard := e.guard.request flags }

/-- Moves all code, and tells how many programs moved. Moves that fail are left out
(`NativeMatcher.Store.relocateAll`). -/
def collectGarbage (e : Engine) : Engine × Nat :=
  let moved := e.store.size
  ({ e with
    store := e.store.relocateAll
    stats := { e.stats with relocations := e.stats.relocations + moved } }, moved)

/-! ### One match -/

/-- The compiled program of a handle, after all that has to hold before it is run. -/
def check (e : Engine) (h : Handle) (subject : Subject) (start outputSize : Nat) :
    Except MatchError Matcher :=
  match e.store.get? h with
  | none => .error .invalidHandle
  | some m =>
    if !e.permissions.isGranted .nativeExecution m.object.source then
      .error (.permissionDenied .nativeExecution)
    else if subject.mode ≠ m.object.mode then
      .error (.modeMismatch m.object.mode subject.mode)
    else if subject.size < start then .error (.startOutOfBounds start subject.size)
    else if outputSize < m.object.saved then .error (.outputTooSmall m.object.saved outputSize)
    else .ok m

/-- The engine at the start of an attempt. -/
def beginAttempt (e : Engine) : Engine :=
  { e with
    guard := e.guard.setNativeLimit (nativeLimit e.gap e.config.nativeBudget)
    stats := { e.stats with executions := e.stats.executions + 1 } }

/-- The engine after a thread of the program at `h` is done. -/
def absorb (e : Engine) (h : Handle) (t : Thread) : Engine :=
  { e with
    store := if t.relocations = 0 then e.store else e.store.relocate h
    stack := t.stack
    guard := t.guard
    stats := { e.stats with
      polls := e.stats.polls + t.polls
      relocations := e.stats.relocations + t.relocations
      stackGrowths := e.stats.stackGrowths + t.growths } }

/-- The engine after an attempt that has to be repeated, and whether a termination was
pending. -/
def countRetry (e : Engine) : Engine × Bool :=
  let (hit, guard) := e.guard.take Interrupt.terminate
  ({ e with guard := guard, stats := { e.stats with retries := e.stats.retries + 1 } }, hit)

/-- What a match leaves behind. -/
structure Result (α : Type) where
  /-- The engine. -/
  engine : Engine
  /-- The output registers. -/
  output : Array Int32
  /-- The answer. -/
  answer : Except MatchError α

/-- The status of the number that generated code returned. -/
def statusOf (raw : Int) : Except MatchError Status :=
  match Status.ofRaw raw with
  | some status => .ok status
  | none => .error (.unexpectedStatus raw)

/-- Attempts a match until one does not have to be repeated. -/
def attempts (h : Handle) (m : Matcher) (subject : Subject) (start : Nat) :
    (retries : Nat) → CallOrigin → Engine → Array Int32 → Option (Result Status)
  | retries, origin, e, output =>
    let e' := e.beginAttempt
    let task := Task.ofMatcher m subject origin
    match task.attempt (task.enter start output e'.stack e'.guard) with
    | none => none
    | some .stray => some ⟨e, output, .error .stray⟩
    | some (.done ended t) =>
      let e := e'.absorb h t
      match statusOf ended.raw with
      | .error err => some ⟨e, t.output, .error err⟩
      | .ok .retry =>
        let (e, terminated) := e.countRetry
        if terminated then some ⟨e, t.output, .error .aborted⟩
        else match retries with
          | 0 => some ⟨e, t.output, .error .aborted⟩
          | n + 1 => attempts h m subject start n .runtime e t.output
      | .ok status => some ⟨e, t.output, .ok status⟩

/-- The number of capture sets a status stands for. -/
def countOf : Status → Except MatchError Nat
  | .success n => .ok n
  | .failure => .ok 0
  | .exception => .error .stackOverflow
  | .fallback => .error .fallback
  | .retry => .error .aborted

/-- Runs a compiled program on a subject from character `start` on. The captures go to the
output, and the answer is the number of capture sets. -/
def exec (e : Engine) (h : Handle) (subject : Subject) (start : Nat) (output : Array Int32) :
    Option (Result Nat) :=
  match e.check h subject start output.size with
  | .error err => some ⟨e, output, .error err⟩
  | .ok m =>
    (attempts h m subject start e.config.maxRetries .direct e output).map fun r =>
      ⟨r.engine, r.output, r.answer.bind countOf⟩

/-! ### Searches -/

/-- The first match from character `start` on. -/
def find (e : Engine) (h : Handle) (subject : Subject) (start : Nat) :
    Option (Engine × Except MatchError (Option Captures)) :=
  match e.store.get? h with
  | none => some (e, .error .invalidHandle)
  | some m =>
    (e.exec h subject start (Array.replicate m.object.saved (-1))).map fun r =>
      (r.engine, r.answer.map fun n =>
        if n = 0 then none else some (Captures.ofRegisters r.output.toList))

/-- The first `count` capture sets of `saved` registers each. -/
def captureSets (saved : Nat) : (count : Nat) → List Int32 → List Captures
  | 0, _ => []
  | n + 1, regs => .ofRegisters (regs.take saved) :: captureSets saved n (regs.drop saved)

/-- Where a search goes on after a full batch: at the end of the last match, or one character
on if that match is empty. -/
def resumeIndex (subject : Subject) (unicode : Bool) (start : Nat) (last : Option Captures) : Nat :=
  let (first, stop) := (last.map Captures.span).getD (start, start)
  if stop = first then subject.step stop unicode else stop

/-- Collects matches batch by batch. -/
def findFrom (h : Handle) (subject : Subject) (m : Matcher) (e : Engine) (start : Nat)
    (output : Array Int32) (found : Array Captures) :
    Option (Engine × Except MatchError (List Captures)) :=
  if subject.size < start then some (e, .ok found.toList)
  else
    match e.exec h subject start output with
    | none => none
    | some ⟨e', _, .error err⟩ => some (e', .error err)
    | some ⟨e', output, .ok n⟩ =>
      let found := found ++ captureSets m.object.saved n output.toList
      if n < e.config.batch then some (e', .ok found.toList)
      else
        let start := resumeIndex subject (m.object.globalMode = .unicode) start found.back?
        e' |>.findFrom h subject m start output found
partial_fixpoint

/-- Every match of a program compiled in a global mode, from left to right. -/
def findAll (e : Engine) (h : Handle) (subject : Subject) :
    Except Fault (Option (Engine × Except MatchError (List Captures))) :=
  match e.store.get? h with
  | none => .ok (some (e, .error .invalidHandle))
  | some m =>
    if !m.object.globalMode.isGlobal then .ok (some (e, .error .notGlobal))
    else do
      let size ← Checked.size .mul (m.object.saved * e.config.batch)
      Memory.request (4 * size)
      return findFrom h subject m e 0 (Array.replicate size (-1)) #[]

end Engine

end NativeMatcher
