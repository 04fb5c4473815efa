import NativeMatcher.Proofs.BacktrackLimit
import NativeMatcher.Proofs.WideStep

/-!
# Matches in two encodings

A program compiled for one byte per character and for two, on the same characters. Wherever the
runs of the one are fair, the two cannot be told apart by what a match shows: its answer, its
output and the size of the memory it leaves behind (`NativeMatcher.Engine.exec_widened`).

The steps are matched by `NativeMatcher.Task.Widened.step_widens`. From there on it is bookkeeping:
a run goes step by step, so both end alike or neither does
(`NativeMatcher.Task.Widened.run_widens`); an attempt is a poll, a start and a run
(`NativeMatcher.Attempt.Widened.ending_widens`); and a match makes its attempts one after the other
(`NativeMatcher.Engine.attempts_widened`).
-/

namespace NativeMatcher

open Backtrack

/-! ### A whole run -/

/-- Two ways to end in the two encodings. -/
def Ending.Widens : Ending → Ending → Prop
  | .done s t, .done s' u => s' = s ∧ u = t.widened u.stack ∧ t.stack.SameShape u.stack
  | .stray, .stray => True
  | _, _ => False

namespace Outcome.Widens

variable {k k' : Task} {kinds : Thread → List Kind} {o' : Outcome}

/-- If the one goes on, so does the other. -/
theorem exists_next {t : Thread} (h : (Outcome.next t).Widens k k' kinds o') :
    ∃ u, o' = .next u ∧ t.Widens k k' (kinds t) u := by
  cases o' with
  | next u => exact ⟨u, rfl, h⟩
  | done s u => exact h.elim
  | stray => exact h.elim

/-- If the one ends, so does the other. -/
theorem exists_ending {e : Ending} (h : e.outcome.Widens k k' kinds o') :
    ∃ e' : Ending, o' = e'.outcome ∧ e.Widens e' := by
  cases e with
  | done s t =>
    cases o' with
    | done s' u => exact ⟨.done s' u, rfl, h⟩
    | next u => exact h.elim
    | stray => exact h.elim
  | stray =>
    cases o' with
    | stray => exact ⟨.stray, rfl, trivial⟩
    | next u => exact h.elim
    | done s' u => exact h.elim

end Outcome.Widens

namespace Task.Widened

variable {k k' : Task} {bytes : Array UInt8} {t t₀ u₀ : Thread} (h : k.Widened k' bytes)
  (h₀ : t₀.Widens k k' [] u₀) (hf : ∀ t kinds, k.Records t₀ t kinds → k.Fair kinds t)

include h h₀ hf

/-- **Wherever a fair run gets, the other one gets too**, and makes the same step there. By
induction on the number of steps, with the kinds of the live entries carried along. -/
theorem steps_widen {n : Nat} (hn : k.steps n t₀ = .next t) :
    ∃ u kinds, k'.steps n u₀ = .next u ∧
      (k.step t).Widens k k' (k.kindsAfter kinds t) (k'.step u) := by
  have hinv : ∃ u, k'.steps n u₀ = .next u ∧ ∃ kinds, k.Records t₀ t kinds ∧
      t.Widens k k' kinds u := by
    refine steps_simulation (R := fun t u => ∃ kinds, k.Records t₀ t kinds ∧
      t.Widens k k' kinds u) ?_ ⟨[], .start, h₀⟩ hn
    rintro t u t' ⟨kinds, hr, hw⟩ hs
    have hstep := h.step_widens hw (hf t kinds hr)
    rw [hs] at hstep
    obtain ⟨u', hs', hw'⟩ := hstep.exists_next
    exact ⟨u', hs', _, hr.step hs, hw'⟩
  obtain ⟨u, hu, kinds, hr, hw⟩ := hinv
  exact ⟨u, kinds, hu, h.step_widens hw (hf t kinds hr)⟩

/-- **A fair run ends as the other one does**, or neither ends. That neither ends is part of the
relation: both sides are undefined then. -/
theorem run_widens : Option.Rel Ending.Widens (k.run t₀) (k'.run u₀) := by
  cases hr : k.run t₀ with
  | none =>
    have hnone : k'.run u₀ = none := run_eq_none_of_steps hr fun hn => by
      obtain ⟨u, -, hu, -⟩ := h.steps_widen h₀ hf hn
      exact ⟨u, hu⟩
    rw [hnone]
    exact .none
  | some ending =>
    obtain ⟨n, t, hn, hlast⟩ := exists_last_step hr
    obtain ⟨u, kinds, hu, hstep⟩ := h.steps_widen h₀ hf hn
    rw [hlast] at hstep
    obtain ⟨ending', hlast', hends⟩ := hstep.exists_ending
    rw [run_of_last_step hu hlast']
    exact .some hends

end Task.Widened

/-! ### Attempts -/

namespace Attempt

/-- Wherever the attempt gets, its thread is fair. -/
def Fair (a : Attempt) : Prop :=
  ∀ t₀ t kinds, a.begin = .next t₀ → a.task.Records t₀ t kinds → a.task.Fair kinds t

/-- The second attempt is the first one in the other encoding. -/
structure Widened (a a' : Attempt) (bytes : Array UInt8) : Prop where
  /-- What is run. -/
  task : a.task.Widened a'.task bytes
  /-- They enter alike. -/
  entry : a'.entry = a.entry.widened a'.entry.stack
  /-- Their memories have the same size. -/
  shape : a.entry.stack.SameShape a'.entry.stack
  /-- Nothing is on the stack. -/
  depth : a.entry.depth = 0
  /-- The position is near the end of the subject. -/
  near : Within (2 ^ 29) a.entry.pos
  /-- The character before it belongs to the subject, if there is one. -/
  reads : ∀ place ∈ a.task.restartReads a.entry.pos, a.task.Covers place

namespace Widened

variable {a a' : Attempt} {bytes : Array UInt8} (h : a.Widened a' bytes)

include h

/-- An attempt begins with an empty stack, the start position and registers that are unset; all of
these double. -/
theorem begin_widens : a.begin.Widens a.task a'.task (fun _ => []) a'.begin := by
  have hstays := Task.staysAt_poll (k := a.task) a.entry
  rw [begin, begin, h.entry, h.task.poll_widened]
  cases hpoll : a.task.poll a.entry with
  | stray => trivial
  | done s u =>
    rw [hpoll] at hstays
    refine ⟨rfl, rfl, ?_⟩
    rw [show u.stack = a.entry.stack from hstays]
    exact h.shape
  | next u =>
    rw [hpoll] at hstays
    obtain ⟨hcursor, hstack⟩ := hstays
    have hpos : u.pos = a.entry.pos := congrArg Cursor.pos hcursor
    have hrestart : (a.task.restart u).Widens a.task a'.task (fun v => [].take v.entries)
        (a'.task.restart (u.widened a'.entry.stack)) :=
      h.task.restart_widens (by rw [hstack]; exact h.shape)
        ((congrArg Cursor.depth hcursor).trans h.depth)
        (by rw [hpos]; exact h.near.mono (by decide)) (by rw [hpos]; exact h.reads)
    simp only [List.take_nil] at hrestart
    exact hrestart

/-- **A fair attempt ends as the other one does**, or neither ends. An attempt starts with an empty
stack, for which nothing is asked of the entries. -/
theorem ending_widens (hf : a.Fair) : Option.Rel Ending.Widens a.ending a'.ending := by
  have hbegin := h.begin_widens
  change Option.Rel _ (a.begin.ending a.task.run) (a'.begin.ending a'.task.run)
  cases hb : a.begin with
  | next t₀ =>
    rw [hb] at hbegin
    obtain ⟨u₀, hb', hw⟩ := hbegin.exists_next
    rw [hb']
    exact h.task.run_widens hw fun t kinds hr => hf t₀ t kinds hb hr
  | done s t =>
    rw [hb] at hbegin
    obtain ⟨ending, hb', hends⟩ := Outcome.Widens.exists_ending (e := .done s t) hbegin
    rw [hb', Outcome.ending_outcome rfl]
    exact .some hends
  | stray =>
    rw [hb] at hbegin
    obtain ⟨ending, hb', hends⟩ := Outcome.Widens.exists_ending (e := .stray) hbegin
    rw [hb', Outcome.ending_outcome rfl]
    exact .some hends

end Widened

end Attempt

/-! ### Matches -/

namespace Engine

/-- What a match shows to its caller, and the size of the memory it leaves behind. -/
def Result.shown {α : Type} (r : Result α) : Except MatchError α × Array Int32 × Nat :=
  (r.answer, r.output, r.engine.stack.size)

/-- Two engines of one host have the same configuration, interrupts and memories of the same size.
What they have compiled, and what is left in the memory, may differ. -/
structure Twins (e e' : Engine) : Prop where
  /-- The configuration. -/
  config : e'.config = e.config
  /-- The gap. -/
  gap : e'.gap = e.gap
  /-- The pending interrupts. -/
  guard : e'.guard = e.guard
  /-- The memory of the backtrack stack. -/
  shape : e.stack.SameShape e'.stack

namespace Twins

variable {e e' : Engine} (ht : e.Twins e')

include ht

theorem beginAttempt : e.beginAttempt.Twins e'.beginAttempt := by
  refine ⟨ht.config, ht.gap, ?_, ht.shape⟩
  simp only [Engine.beginAttempt, ht.config, ht.gap, ht.guard]

theorem absorb (h h' : Handle) {t u : Thread} (hu : u = t.widened u.stack)
    (hshape : t.stack.SameShape u.stack) : (e.absorb h t).Twins (e'.absorb h' u) := by
  refine ⟨ht.config, ht.gap, ?_, hshape⟩
  simp only [Engine.absorb]
  rw [hu]
  rfl

theorem countRetry :
    e.countRetry.1.Twins e'.countRetry.1 ∧ e'.countRetry.2 = e.countRetry.2 := by
  refine ⟨⟨ht.config, ht.gap, ?_, ht.shape⟩, ?_⟩
  · simp only [Engine.countRetry, ht.guard]
  · simp only [Engine.countRetry, ht.guard]

theorem shown_eq {α : Type} (output : Array Int32) (answer : Except MatchError α) :
    Result.shown ⟨e', output, answer⟩ = Result.shown ⟨e, output, answer⟩ := by
  simp only [Result.shown, ht.shape.size]

end Twins

section Attempts

variable {m m' : Matcher} {bytes : Array UInt8} {start : Nat} (h h' : Handle)
  (hk : ∀ origin, (Task.ofMatcher m (.latin1 bytes) origin).Widened
    (Task.ofMatcher m' (.uc16 (widen bytes)) origin) bytes)
  (hstart : start ≤ bytes.size)

include hk hstart

/-- The next attempts of twins. -/
theorem widened_nextAttempt {e e' : Engine} (ht : e.Twins e') (origin : CallOrigin)
    (output : Array Int32) :
    (e.nextAttempt m (.latin1 bytes) start origin output).Widened
      (e'.nextAttempt m' (.uc16 (widen bytes)) start origin output) bytes := by
  have hw := hk origin
  have hsize := hw.size
  have hplace := hw.toInt_position hstart
  refine ⟨hw, ?_, ht.shape, rfl, ?_, fun place hread => ?_⟩
  · have hpos := hw.position_eq start
    simp only [Task.position] at hpos
    simp only [nextAttempt, Task.enter, hpos, ht.beginAttempt.guard, Thread.widened,
      Array.map_empty]
  · change Within _ ((Task.ofMatcher m (.latin1 bytes) origin).position start)
    rw [Within, hplace]
    omega
  · exact hw.covers_of_mem_restartReads hstart hread

/-- **The attempts of a match show the same in both encodings.** By induction on the number of
repetitions; the engines after an attempt are twins again, since the stacks have grown alike. -/
theorem attempts_widened {retries : Nat} {origin : CallOrigin} {e e' : Engine}
    {output : Array Int32} (ht : e.Twins e')
    (hfair : ∀ a ∈ history h m (.latin1 bytes) start retries origin e output, a.Fair) :
    (attempts h' m' (.uc16 (widen bytes)) start retries origin e' output).map Result.shown =
      (attempts h m (.latin1 bytes) start retries origin e output).map Result.shown := by
  induction retries using Nat.strong_induction_on generalizing origin e e' output with
  | _ retries ih =>
  have hwide := widened_nextAttempt hk hstart ht origin output
  rw [history.eq_1] at hfair
  have hends := hwide.ending_widens (hfair _ List.mem_cons_self)
  rw [attempts_eq, attempts_eq]
  generalize hending : (e.nextAttempt m (.latin1 bytes) start origin output).ending = x
    at hends hfair
  generalize (e'.nextAttempt m' (.uc16 (widen bytes)) start origin output).ending = x' at hends
  cases hends with
  | none => rfl
  | @some ending ending' hends =>
    cases ending with
    | stray =>
      cases ending' with
      | stray => exact congrArg some (ht.shown_eq output (.error .stray))
      | done s u => exact hends.elim
    | done s t =>
      cases ending' with
      | stray => exact hends.elim
      | done s' u =>
        obtain ⟨rfl, hu, hshape⟩ := hends
        have houtput : u.output = t.output := by
          rw [hu]
          rfl
        have habsorb := ht.beginAttempt.absorb h h' hu hshape
        cases s' with
        | retry =>
          obtain ⟨hcount, hhit⟩ := habsorb.countRetry
          simp only [houtput, hhit]
          split
          · exact congrArg some (hcount.shown_eq _ _)
          · next hgo =>
            cases retries with
            | zero => exact congrArg some (hcount.shown_eq _ _)
            | succ r =>
              refine ih r (Nat.lt_succ_self r) hcount fun a ha =>
                hfair a (List.mem_cons_of_mem _ ?_)
              simp only [if_neg hgo]
              exact ha
        | _ =>
          simp only [houtput]
          exact congrArg some (habsorb.shown_eq _ _)

end Attempts

/-- The tasks of a program that was compiled for both encodings. -/
theorem widened_ofMatcher {c c' : Config} {e e' : Engine} {h h' : Handle} {m m' : Matcher}
    {bytes : Array UInt8} (he : e.Reachable c) (he' : e'.Reachable c')
    (hget : e.store.get? h = some m) (hget' : e'.store.get? h' = some m')
    (hprogram : m'.program = m.program) (hmode : m.options.mode = .latin1)
    (hoptions : m'.options = { m.options with mode := .uc16 })
    (hcode : m.object.buffer.size ≤ Memory.maxBlock)
    (hcode' : m'.object.buffer.size ≤ Memory.maxBlock)
    (hneutral : ∀ op ∈ m.program.opcodes, op.IsNeutral) (hsize : bytes.size < 2 ^ 29)
    (origin : CallOrigin) :
    (Task.ofMatcher m (.latin1 bytes) origin).Widened
      (Task.ofMatcher m' (.uc16 (widen bytes)) origin) bytes := by
  have hm := he.sane.compiled h m hget
  have hm' := he'.sane.compiled h' m' hget'
  rw [hprogram] at hm'
  have hloads : ∀ op ∈ m.program.opcodes, op.LoadsOne := fun op hop => (hneutral op hop).loadsOne
  have hregisters : m'.object.registers = m.object.registers :=
    hm'.registers_eq.trans hm.registers_eq.symm
  refine ⟨rfl, rfl, hsize, hmode, hoptions, hprogram, hneutral, ?_, hregisters, ?_, ?_, rfl, ?_⟩
  · exact congrArg Program.places hprogram
  · exact (hm'.size_offsets hcode' hloads).trans (hm.size_offsets hcode hloads).symm
  · intro i x x' hx hx'
    rw [hm.opcodeAt?_offset hcode hloads _ _ hx, hm'.opcodeAt?_offset hcode' hloads _ _ hx']
  · exact congrArg nativePointer hregisters

/-- The two pass the same checks. Bounds are in characters on both sides, and each matcher has the
encoding of its subject. -/
theorem check_widened {c c' : Config} {e e' : Engine} {h h' : Handle} {m m' : Matcher}
    (he : e.Reachable c) (he' : e'.Reachable c')
    (hget : e.store.get? h = some m) (hget' : e'.store.get? h' = some m')
    (hprogram : m'.program = m.program) (hmode : m.options.mode = .latin1)
    (hmode' : m'.options.mode = .uc16)
    (hgranted : e'.permissions.isGranted .nativeExecution m'.object.source =
      e.permissions.isGranted .nativeExecution m.object.source)
    (bytes : Array UInt8) (start n : Nat) :
    (∃ err, e.check h (.latin1 bytes) start n = .error err ∧
      e'.check h' (.uc16 (widen bytes)) start n = .error err) ∨
    (e.check h (.latin1 bytes) start n = .ok m ∧
      e'.check h' (.uc16 (widen bytes)) start n = .ok m' ∧ start ≤ bytes.size) := by
  obtain ⟨comp, hs⟩ := (he.sane.compiled h m hget).shape
  obtain ⟨comp', hs'⟩ := (he'.sane.compiled h' m' hget').shape
  have hobject : ¬(Subject.latin1 bytes).mode ≠ m.object.mode := by
    rw [hs.mode, hmode]
    exact fun hcon => hcon rfl
  have hobject' : ¬(Subject.uc16 (widen bytes)).mode ≠ m'.object.mode := by
    rw [hs'.mode, hmode']
    exact fun hcon => hcon rfl
  have hsaved : m'.object.saved = m.object.saved := by rw [hs.saved, hs'.saved, hprogram]
  have hlength : (Subject.latin1 bytes).size = bytes.size := rfl
  have hlength' : (Subject.uc16 (widen bytes)).size = bytes.size := size_widen bytes
  simp only [check, hget, hget', hgranted, if_neg hobject, if_neg hobject', hsaved, hlength,
    hlength']
  split
  · exact Or.inl ⟨_, rfl, rfl⟩
  · split
    · exact Or.inl ⟨_, rfl, rfl⟩
    · next hstart =>
      split
      · exact Or.inl ⟨_, rfl, rfl⟩
      · exact Or.inr ⟨rfl, rfl, Nat.le_of_not_lt hstart⟩

/-- **A match does not depend on the encoding of its subject.** Take a program that was compiled for
one byte per character and, with the same options otherwise, for two. It moves by less than `2 ^ 29`
characters at a time, loads one character at a time, and neither computes with registers, nor reads
or writes the stack pointer, nor ignores case in a back reference, nor tests for whitespace; both
codes fit in a block of memory. Take a subject of fewer than `2 ^ 29` characters below 256 on which
every attempt of the match is fair: it pops a position or a register where one was pushed, and
resumes where a label was; a greedy loop meets a position or nothing; every character read belongs
to the subject; and the position stays within `2 ^ 29` characters of the end. Then the match on the
bytes and the match on the same characters in two bytes each, from the same start and with the same
output, have the same answer or the same error, leave the same output, and leave a backtrack stack
of the same size; or both run for ever. -/
theorem exec_widened {c : Config} {e e' : Engine} {h h' : Handle} {m m' : Matcher}
    {bytes : Array UInt8} (he : e.Reachable c) (he' : e'.Reachable c) (ht : e.Twins e')
    (hget : e.store.get? h = some m) (hget' : e'.store.get? h' = some m')
    (hprogram : m'.program = m.program)
    (hgranted : e'.permissions.isGranted .nativeExecution m'.object.source =
      e.permissions.isGranted .nativeExecution m.object.source)
    (hmode : m.options.mode = .latin1) (hoptions : m'.options = { m.options with mode := .uc16 })
    (hcode : m.object.buffer.size ≤ Memory.maxBlock)
    (hcode' : m'.object.buffer.size ≤ Memory.maxBlock)
    (hneutral : ∀ op ∈ m.program.opcodes, op.IsNeutral) (hsize : bytes.size < 2 ^ 29)
    (start : Nat) (output : Array Int32)
    (hfair : e.check h (.latin1 bytes) start output.size = .ok m →
      ∀ a ∈ e.tries h m (.latin1 bytes) start output, a.Fair) :
    (e'.exec h' (.uc16 (widen bytes)) start output).map Result.shown =
      (e.exec h (.latin1 bytes) start output).map Result.shown := by
  have hmode' : m'.options.mode = .uc16 := by rw [hoptions]
  rcases check_widened he he' hget hget' hprogram hmode hmode' hgranted bytes start output.size with
    ⟨err, hcheck, hcheck'⟩ | ⟨hcheck, hcheck', hstart⟩
  · rw [exec, exec, hcheck, hcheck']
    exact congrArg some (ht.shown_eq output (.error err))
  · have hk := widened_ofMatcher he he' hget hget' hprogram hmode hoptions hcode hcode' hneutral
      hsize
    have hshown := attempts_widened h h' hk hstart ht (hfair hcheck)
    have hcounted : Result.shown ∘ Result.counted =
        (fun v => (v.1.bind countOf, v.2)) ∘ Result.shown := rfl
    rw [exec_of_check hcheck, exec_of_check hcheck', Option.map_map, Option.map_map, hcounted,
      ← Option.map_map, ← Option.map_map, ht.config, hshown]

end Engine

/-! ### One character in two encodings -/

namespace Sample

/-- Looks at a character and reports its place, which goes through the stack. -/
def taker : Program where
  opcodes := #[.load 0 none false 1, .writePosition 0 0, .pushRegister 0 false, .popRegister 0,
    .succeed]
  labels := 0
  saved := 1

/-- The sample program compiles in both modes, and so its runs can be compared. -/
theorem exists_compile_taker (mode : Mode) :
    ∃ m, taker.compile { mode := mode } "" Sample.heap = .ok m ∧
      m.object.buffer.size ≤ Memory.maxBlock := by
  obtain ⟨m, hm, -, hsize⟩ := Program.exists_compile (p := taker) (o := { mode := mode }) (n := 40)
    (by cases mode <;> decide +kernel) (by decide) (by simp [taker, Opcode.InRange, InReach])
    (by cases mode <;> decide) "" Sample.heap
  exact ⟨m, hm, Nat.le_trans (Nat.le_of_lt hsize) (by decide)⟩

theorem isNeutral_taker : ∀ op ∈ taker.opcodes, op.IsNeutral := by
  intro op hop
  simp only [taker, List.mem_toArray, List.mem_cons, List.not_mem_nil, or_false] at hop
  rcases hop with rfl | rfl | rfl | rfl | rfl
  all_goals simp only [Opcode.IsNeutral]
  all_goals decide

/-- Where a run of the program is, on the second of two characters: the position stays, and what
is popped was pushed. -/
structure Taking (k : Task) (t : Thread) (kinds : List Kind) : Prop where
  /-- It is at one of the opcodes. -/
  pc : t.pc < 5
  /-- The position is that of the character. -/
  pos : t.pos = k.position 1
  /-- A register was pushed before it is popped. -/
  pushed : t.pc = 3 → kinds.getLast? = some .word

section Run

variable {k : Task} (hprogram : k.matcher.program = taker)
  (hmode : k.matcher.options.mode = .latin1) (hglobal : k.matcher.options.globalMode = .notGlobal)
  (hsubject : k.subject = .latin1 #[98, 97]) {t u : Thread} {kinds : List Kind}

include hprogram

/-- The five opcodes of the sample program, one for each value of the program counter. -/
theorem opcode?_taker (hpc : t.pc < 5) :
    (t.pc = 0 ∧ k.opcode? t = some (.load 0 none false 1)) ∨
      (t.pc = 1 ∧ k.opcode? t = some (.writePosition 0 0)) ∨
      (t.pc = 2 ∧ k.opcode? t = some (.pushRegister 0 false)) ∨
      (t.pc = 3 ∧ k.opcode? t = some (.popRegister 0)) ∨
      (t.pc = 4 ∧ k.opcode? t = some .succeed) := by
  have hcases : t.pc = 0 ∨ t.pc = 1 ∨ t.pc = 2 ∨ t.pc = 3 ∨ t.pc = 4 := by omega
  rw [Task.opcode?, hprogram]
  rcases hcases with h | h | h | h | h <;> simp [h, taker]

include hglobal

/-- The opcodes of the sample program one by one: what is on the stack, and that the position
stays. -/
theorem Taking.step (h : Taking k t kinds) (hs : k.step t = .next u) :
    Taking k u (k.kindsAfter kinds t u) := by
  obtain ⟨hpc, hpos, -⟩ := h
  -- All but the push and the last opcode go on to the next one, where the position is the same.
  have hgo : u.pc = t.pc + 1 → u.pos = t.pos → t.pc ≠ 2 → t.pc ≠ 4 →
      Taking k u (k.kindsAfter kinds t u) := fun hpc' hpos' h2 h4 =>
    ⟨by omega, hpos'.trans hpos, fun hcon => absurd hcon (by omega)⟩
  have hstep : ∀ op, k.opcode? t = some op → k.perform op t = .next u := by
    intro op hop
    rw [Task.step, show k.matcher.program.opcodes[t.pc]? = some op from hop] at hs
    exact hs
  rcases opcode?_taker hprogram hpc with ⟨hpc', hop⟩ | ⟨hpc', hop⟩ | ⟨hpc', hop⟩ | ⟨hpc', hop⟩ |
    ⟨hpc', hop⟩
  · have hload : k.load 0 1 t = .next u := hstep _ hop
    unfold Task.load at hload
    split at hload
    · obtain rfl := Outcome.next.inj hload
      exact hgo rfl rfl (by omega) (by omega)
    · cases hload
  · obtain rfl := Outcome.next.inj (hstep _ hop)
    exact hgo rfl rfl (by omega) (by omega)
  · have heffect : k.effect t = .pushes .word := by
      rw [Task.effect, hop]
      rfl
    have hpush : t.push (lowWord (t.reg 0)) false = .next u := hstep _ hop
    simp only [Thread.push, Bool.false_and, Bool.false_eq_true, if_false] at hpush
    split at hpush
    · cases hpush
    · obtain rfl := Outcome.next.inj hpush
      refine ⟨by simp only; omega, hpos, fun _ => ?_⟩
      simp only [Task.kindsAfter, heffect, List.getLast?_append, List.getLast?_singleton,
        Option.some_or]
  · have hpop : (t.pop fun v t => t.setReg 0 v) = .next u := hstep _ hop
    unfold Thread.pop at hpop
    split at hpop
    · cases hpop
    · obtain rfl := Outcome.next.inj hpop
      exact hgo rfl rfl (by omega) (by omega)
  · have hsucceed : k.succeed t = .next u := hstep _ hop
    simp only [Task.succeed, hglobal, GlobalMode.isGlobal] at hsucceed
    cases hsucceed

include hmode hsubject

/-- So a run of the sample program meets all conditions of the comparison: it reads one character of
the subject, pops one word that it pushed, and has no loop. -/
theorem Taking.fair (h : Taking k t kinds) : k.Fair kinds t := by
  obtain ⟨hpc, hpos, hpushed⟩ := h
  have hplace : t.pos = -1 := by
    rw [hpos]
    simp only [Task.position, Task.length, Task.mode, hmode, hsubject]
    decide
  have hunit : k.mode.charSize = 1 := by
    rw [Task.mode, hmode]
    rfl
  have hbytes : k.bytes 0 = 0 := by
    rw [Task.bytes, hunit]
    rfl
  have hcases := opcode?_taker hprogram hpc
  refine ⟨?_, fun op hop hpops => hpushed ?_, fun dest hop => ?_, fun depth u hmove _ => ?_,
    fun place hread => ?_⟩
  · rw [hplace, hunit]
    constructor <;> decide
  · rcases hcases with ⟨-, hop'⟩ | ⟨-, hop'⟩ | ⟨-, hop'⟩ | ⟨hpc', -⟩ | ⟨-, hop'⟩
    all_goals first
      | exact hpc'
      | (cases hop'.symm.trans hop
         cases hpops)
  · rcases hcases with ⟨-, hop'⟩ | ⟨-, hop'⟩ | ⟨-, hop'⟩ | ⟨-, hop'⟩ | ⟨-, hop'⟩
    all_goals cases hop'.symm.trans hop
  · unfold Task.move at hmove
    rcases hcases with ⟨-, hop⟩ | ⟨-, hop⟩ | ⟨-, hop⟩ | ⟨-, hop⟩ | ⟨-, hop⟩
    all_goals rw [hop] at hmove
    · change k.loadMove 0 1 t = _ at hmove
      unfold Task.loadMove at hmove
      split at hmove <;> cases hmove
    · cases hmove
    · cases hmove
    · simp only [Task.opcodeMove, Task.popMove] at hmove
      split at hmove <;> cases hmove
    · cases hmove
  · unfold Task.reads at hread
    rcases hcases with ⟨-, hop⟩ | ⟨-, hop⟩ | ⟨-, hop⟩ | ⟨-, hop⟩ | ⟨-, hop⟩
    all_goals rw [hop] at hread
    · change place ∈ [t.pos + k.bytes 0] at hread
      rw [List.mem_singleton, hplace, hbytes] at hread
      rw [hread, Task.Covers, hunit, hsubject]
      decide
    · cases hread
    · cases hread
    · cases hread
    · simp [hglobal, GlobalMode.isGlobal] at hread

end Run

end Sample

/-- The program finds the second of two characters, whether they are written in one byte each or
in two. -/
theorem Engine.exec_widened_taker :
    ∃ (e : Engine) (m m' : Matcher), e.Reachable {} ∧ e.store.get? ⟨0⟩ = some m ∧
      e.store.get? ⟨1⟩ = some m' ∧ m.program = Sample.taker ∧ m'.program = Sample.taker ∧
      m.options = { mode := .latin1 } ∧ m'.options = { mode := .uc16 } ∧
      (∀ a ∈ e.tries ⟨0⟩ m (.latin1 #[98, 97]) 1 #[7], a.Fair) ∧
      (e.exec ⟨1⟩ (.uc16 (widen #[98, 97])) 1 #[7]).map Engine.Result.shown =
        (e.exec ⟨0⟩ (.latin1 #[98, 97]) 1 #[7]).map Engine.Result.shown := by
  obtain ⟨m, hm, hcode⟩ := Sample.exists_compile_taker .latin1
  obtain ⟨m', hm', hcode'⟩ := Sample.exists_compile_taker .uc16
  obtain ⟨comp, hs⟩ := Compiled.shape_of_compile hm
  obtain ⟨comp', hs'⟩ := Compiled.shape_of_compile hm'
  obtain ⟨e, he, -, -, -, hperm, hget, hget'⟩ := Sample.exists_engine_pair hm hm' (by decide)
  have hfair : ∀ a ∈ e.tries ⟨0⟩ m (.latin1 #[98, 97]) 1 #[7], a.Fair := by
    intro a ha t₀ t kinds hb hr
    obtain ⟨e₁, origin, output, -, rfl⟩ := Engine.exists_kept_of_mem_history ha
    have hglobal : m.options.globalMode = .notGlobal := by rw [hs.options]
    have hmode : m.options.mode = .latin1 := by rw [hs.options]
    have htaking : Sample.Taking (Task.ofMatcher m (.latin1 #[98, 97]) origin) t kinds := by
      induction hr with
      | start =>
        obtain ⟨v, hpoll⟩ := Attempt.exists_poll_of_begin hb
        have hpos : v.pos = _ := congrArg Cursor.pos (Task.cursor_of_poll hpoll)
        rw [Attempt.begin_of_opened hpoll] at hb
        rcases Task.restart_cases _ v with hstray | ⟨char, hnext⟩
        · rw [hstray] at hb
          cases hb
        · rw [hnext] at hb
          obtain rfl := Outcome.next.inj hb
          exact ⟨Nat.zero_lt_succ 4, hpos, fun hcon => by cases hcon⟩
      | step _ hstep ih => exact Sample.Taking.step hs.program hglobal ih hstep
    exact Sample.Taking.fair hs.program hmode hglobal rfl htaking
  refine ⟨e, m, m', he, hget, hget', hs.program, hs'.program, hs.options, hs'.options, hfair, ?_⟩
  refine Engine.exec_widened he he ⟨rfl, rfl, rfl, ⟨rfl, rfl, rfl⟩⟩ hget hget' ?_ ?_ ?_ ?_ hcode
    hcode' ?_ (by decide) 1 #[7] fun _ => hfair
  · exact hs'.program.trans hs.program.symm
  · rw [hperm]
    rfl
  · rw [hs.options]
  · rw [hs.options, hs'.options]
  · rw [hs.program]
    exact Sample.isNeutral_taker

end NativeMatcher
