import NativeMatcher.Proofs.CodeSize
import NativeMatcher.Proofs.Discipline
import NativeMatcher.Proofs.Session

/-!
# Attempts

A match makes one attempt or two, whatever number of repetitions it is allowed. This file
writes the attempts of a match down (`NativeMatcher.Engine.tries`) and shows why.

A direct attempt does not get past a raised limit: it asks to be repeated at its first poll,
before it has stored or pushed anything (`NativeMatcher.Engine.ending_of_raised`). The
attempt that follows is run by the runtime. Its first poll takes a pending relocation, and
what is then still raised is nothing that a poll of the runtime would unwind for: the thread
is settled (`NativeMatcher.Engine.exists_opened_of_raised`), and a settled run never asks to
be repeated. The same holds of a direct attempt if nothing is raised.

The count of attempts, and how the counters of the engine grow, is
`NativeMatcher.Engine.exec_attempts`.
-/

namespace NativeMatcher

/-! ### The attempts of a match -/

/-- An attempt of a match: what is run, and the thread at the entry. -/
structure Attempt where
  /-- What is run. -/
  task : Task
  /-- The thread at the entry. -/
  entry : Thread

namespace Attempt

variable (a : Attempt)

/-- What the first poll and the start make of the thread at the entry. -/
def begin : Outcome := (a.task.poll a.entry).andThen a.task.restart

/-- How the attempt ends. -/
def ending : Option Ending := a.task.attempt a.entry

/-- The attempt passes a thread, with a number of pushes since the last limit check. -/
def Passes (t : Thread) (unchecked : Nat) : Prop :=
  ∃ t₀, a.begin = .next t₀ ∧ a.task.Passes t₀ t unchecked

/-- The attempt makes a push with a limit check that leaves `live` entries. -/
def PushesAt (live : Nat) : Prop :=
  ∃ t unchecked, a.Passes t unchecked ∧ a.task.pushesChecked t = true ∧ live = t.entries + 1

/-- The discipline of the backtrack stack is kept throughout the attempt. -/
def Orderly : Prop := ∀ t unchecked, a.Passes t unchecked → a.task.Orderly unchecked t

/-- The attempt ends after `n` more polls than the one at its entry. -/
def PassesPolls (n : Nat) : Prop :=
  ∃ t₀ count, a.begin = .next t₀ ∧ (∀ u, a.task.steps count t₀ ≠ .next u) ∧
    a.task.pollCount count t₀ = n

end Attempt

/-- The frame of a matcher, and what a firing poll pushes below it, fit into the native budget of an
engine. -/
def Matcher.Fits (m : Matcher) (e : Engine) : Prop :=
  e.gap + frameBytes m.object.registers + pollBytes m.object.registers < e.config.nativeBudget

/-- The counters of attempts, repetitions, polls and moves grew by these amounts. -/
def Stats.Grew (s s' : Stats) (executions retries polls relocations : Nat) : Prop :=
  s'.executions = s.executions + executions ∧ s'.retries = s.retries + retries ∧
    s'.polls = s.polls + polls ∧ s'.relocations = s.relocations + relocations

namespace Engine

/-- The attempt that an engine makes next. -/
def nextAttempt (e : Engine) (m : Matcher) (subject : Subject) (start : Nat) (origin : CallOrigin)
    (output : Array Int32) : Attempt :=
  let task := Task.ofMatcher m subject origin
  ⟨task, task.enter start output e.beginAttempt.stack e.beginAttempt.guard⟩

/-- The attempts of a match, one after the other. -/
def history (h : Handle) (m : Matcher) (subject : Subject) (start : Nat) :
    (retries : Nat) → CallOrigin → Engine → Array Int32 → List Attempt
  | retries, origin, e, output =>
    let a := e.nextAttempt m subject start origin output
    a :: match a.ending with
      | some (.done .retry t) =>
        let (e, terminated) := (e.beginAttempt.absorb h t).countRetry
        if terminated then []
        else match retries with
          | 0 => []
          | n + 1 => history h m subject start n .runtime e t.output
      | _ => []

/-- The attempts that a match of a compiled program makes. -/
def tries (e : Engine) (h : Handle) (m : Matcher) (subject : Subject) (start : Nat)
    (output : Array Int32) : List Attempt :=
  history h m subject start e.config.maxRetries .direct e output

end Engine

/-! ### Room on the native stack -/

/-- The words a firing poll pushes end at its return slot. -/
theorem returnSlot_nativePointer {registers : Nat} (hr : registers ≤ maxRegister + 1) :
    returnSlot (nativePointer registers) =
      UInt64.ofNat (hostFrame - (frameBytes registers + pollBytes registers)) := by
  have hmax : maxRegister = 65535 := rfl
  have hframe : frameBytes registers = 8 * (17 + registers) := rfl
  have hhost : hostFrame = 140737488355328 := rfl
  have hword : UInt64.size = 18446744073709551616 := rfl
  rw [returnSlot, nativePointer, UInt64.toNat_ofNat_of_lt' (by omega)]
  congr 1
  unfold pollBytes
  split <;> omega

/-- The host refuses no poll of a matcher that fits: the return slot lies above the limit. -/
theorem Matcher.Fits.nativeLimit_lt {m : Matcher} {e : Engine} (h : m.Fits e)
    (hr : m.object.registers ≤ maxRegister + 1) :
    nativeLimit e.gap e.config.nativeBudget < returnSlot (nativePointer m.object.registers) := by
  unfold Matcher.Fits at h
  have hmax : maxRegister = 65535 := rfl
  have hframe : frameBytes m.object.registers = 8 * (17 + m.object.registers) := rfl
  have hpoll : pollBytes m.object.registers ≤ 32 := by
    unfold pollBytes
    split <;> omega
  have hhost : hostFrame = 140737488355328 := rfl
  have hword : UInt64.size = 18446744073709551616 := rfl
  rw [returnSlot_nativePointer hr, UInt64.lt_iff_toNat_lt, nativeLimit,
    UInt64.toNat_ofNat_of_lt' (by omega), UInt64.toNat_ofNat_of_lt' (by omega)]
  omega

/-- Its polls do not fire by themselves either. -/
theorem nativeLimit_lt_nativePointer {e : Engine} {registers : Nat}
    (h : nativeLimit e.gap e.config.nativeBudget < returnSlot (nativePointer registers)) :
    nativeLimit e.gap e.config.nativeBudget < nativePointer registers :=
  UInt64.lt_of_lt_of_le h (returnSlot_le _)

/-! ### One attempt -/

namespace Attempt

variable {a : Attempt} {t t' : Thread} {s : Status}

theorem begin_of_opened (hp : a.task.poll a.entry = .next t') : a.begin = a.task.restart t' := by
  rw [begin, hp]
  rfl

/-- An attempt that begins got past its first poll. -/
theorem exists_poll_of_begin {t₀ : Thread} (hb : a.begin = .next t₀) :
    ∃ t, a.task.poll a.entry = .next t := by
  obtain ⟨t, hpoll, -⟩ := Outcome.andThen_eq_next.mp hb
  exact ⟨t, hpoll⟩

/-- It begins at the first opcode, with all registers unset. -/
theorem begin_eq_next {t₀ : Thread} (hb : a.begin = .next t₀) :
    ∃ t c, a.task.poll a.entry = .next t ∧ t₀ = { t with
      char := c
      regs := Array.replicate a.task.matcher.object.registers a.task.before
      pc := 0 } := by
  obtain ⟨t, hpoll, hstart⟩ := Outcome.andThen_eq_next.mp hb
  rcases a.task.restart_cases t with hstray | ⟨c, hnext⟩
  · rw [hstray] at hstart
    cases hstart
  · exact ⟨t, c, hpoll, Outcome.next.inj (hstart.symm.trans hnext)⟩

theorem ending_of_begin {t₀ : Thread} (hb : a.begin = .next t₀) : a.ending = a.task.run t₀ := by
  change a.begin.ending a.task.run = _
  rw [hb]
  rfl

theorem ending_of_stray (hb : a.begin = .stray) : a.ending = some .stray := by
  change a.begin.ending a.task.run = _
  rw [hb]
  rfl

/-- **An attempt that its first poll leaves settled does not ask to be repeated**, and its
later polls only count. -/
theorem host_of_ending (hp : a.task.poll a.entry = .next t') (ht' : a.task.Settled t')
    (h : a.ending = some (.done s t)) :
    s ≠ .retry ∧ ∃ n, a.PassesPolls n ∧ (t'.afterPolls n).SameHost t := by
  have hstart := Task.leavesHost_restart (k := a.task) t'
  have hbegin := begin_of_opened hp
  cases hb : a.begin with
  | next t₀ =>
    rw [← hbegin, hb] at hstart
    have hsame : t'.SameHost t₀ := hstart
    rw [ending_of_begin hb] at h
    obtain ⟨n, u, hn, hu⟩ := Task.exists_last_step h
    have hlast : a.task.steps (n + 1) t₀ = .done s t := by
      rw [Task.steps_succ, hn]
      exact hu
    have hhost := Task.steps_of_settled (ht'.of_sameHost hsame) (n + 1)
    rw [hlast] at hhost
    refine ⟨hhost.1, _, ⟨t₀, n + 1, hb, fun v hv => ?_, rfl⟩,
      (hsame.afterPolls _).trans hhost.2⟩
    rw [hlast] at hv
    cases hv
  | done s' u =>
    -- The start goes on or goes astray; it is never the end.
    rcases a.task.restart_cases t' with hrestart | ⟨c, hrestart⟩
    · rw [← hbegin, hb] at hrestart
      cases hrestart
    · rw [← hbegin, hb] at hrestart
      cases hrestart
  | stray =>
    rw [ending_of_stray hb] at h
    cases h

end Attempt

namespace Engine

variable {e : Engine} {m : Matcher} (subject : Subject) (start : Nat) (origin : CallOrigin)
  (output : Array Int32)

theorem room_nextAttempt (hr : m.object.registers ≤ maxRegister + 1) (hfits : m.Fits e) :
    (e.nextAttempt m subject start origin output).entry.guard.nativeLimit <
      returnSlot (e.nextAttempt m subject start origin output).task.sp :=
  hfits.nativeLimit_lt hr

/-- If nothing is raised, the first poll of an attempt does nothing. -/
theorem opened_of_quiet
    (hroom : nativeLimit e.gap e.config.nativeBudget < nativePointer m.object.registers)
    (hquiet : e.guard.isRaised = false) :
    let a := e.nextAttempt m subject start origin output
    a.task.poll a.entry = .next a.entry ∧ a.task.Settled a.entry := by
  intro a
  have hset : a.task.Settled a.entry := by
    refine ⟨rfl, hroom, fun hraised => ?_⟩
    have hno : a.entry.guard.isRaised = false := hquiet
    rw [hno] at hraised
    cases hraised
  refine ⟨?_, hset⟩
  have hlimit : a.entry.limit < a.task.sp := by
    have hno : a.entry.guard.isRaised = false := hquiet
    rw [hset.limit, Guard.interruptLimit, hno]
    exact hset.room
  rw [Task.poll, if_pos hlimit]

/-- A raised limit makes the first poll fire. -/
theorem not_limit_lt_of_raised (hraised : e.guard.isRaised = true) :
    let a := e.nextAttempt m subject start origin output
    ¬a.entry.limit < a.task.sp := by
  exact Guard.not_interruptLimit_lt (g := e.beginAttempt.guard) hraised _

/-- **A direct attempt does not get past a raised limit.** It asks to be repeated at its first
poll, as it entered. -/
theorem ending_of_raised (hr : m.object.registers ≤ maxRegister + 1)
    (hfits : m.Fits e) (hraised : e.guard.isRaised = true) :
    let a := e.nextAttempt m subject start .direct output
    a.task.poll a.entry = .done .retry { a.entry with polls := 1 } ∧
      a.ending = some (.done .retry { a.entry with polls := 1 }) := by
  intro a
  have hroom : ¬returnSlot a.task.sp ≤ a.entry.guard.nativeLimit :=
    UInt64.not_le.mpr (room_nextAttempt subject start .direct output hr hfits)
  have hpoll : a.task.poll a.entry = .done .retry { a.entry with polls := 1 } := by
    have hanswer : a.entry.guard.answer a.task.origin (returnSlot a.task.sp) = .unwind .retry :=
      Guard.answer_direct_of_isRaised hraised hroom
    have hlimit : ¬a.entry.limit < a.task.sp :=
      not_limit_lt_of_raised subject start .direct output hraised
    have hzero : a.entry.polls + 1 = 1 := rfl
    simp only [Task.poll, if_neg hlimit, hanswer, hzero]
  refine ⟨hpoll, ?_⟩
  change ((a.task.poll a.entry).andThen a.task.restart).ending a.task.run = _
  rw [hpoll]
  rfl

/-- The first poll of an attempt under the runtime takes a pending relocation, and leaves the
thread settled. -/
theorem exists_opened_of_raised (hr : m.object.registers ≤ maxRegister + 1)
    (hfits : m.Fits e) (hraised : e.guard.isRaised = true)
    (hterm : e.guard.intersects Interrupt.terminate = false) :
    let a := e.nextAttempt m subject start .runtime output
    ∃ t, a.task.poll a.entry = .next t ∧ a.task.Settled t ∧
      t.guard = (a.entry.guard.take Interrupt.relocate).2 ∧ t.polls = 1 ∧
      t.relocations = (e.guard.intersects Interrupt.relocate || e.guard.stress).toNat ∧
      ∃ guard limit polls relocations, t = { a.task.enter start output e.stack guard with
        limit := limit, polls := polls, relocations := relocations } := by
  intro a
  have hroom := room_nextAttempt subject start .runtime output hr hfits
  have hnotroom : ¬returnSlot a.task.sp ≤ a.entry.guard.nativeLimit := UInt64.not_le.mpr hroom
  have hlimit : ¬a.entry.limit < a.task.sp :=
    not_limit_lt_of_raised subject start .runtime output hraised
  have hanswer : a.entry.guard.answer a.task.origin (returnSlot a.task.sp) =
      .serviced (a.entry.guard.take Interrupt.relocate).2
        (e.guard.intersects Interrupt.relocate || e.guard.stress) := by
    have hterm' : a.entry.guard.intersects Interrupt.terminate = false := hterm
    have horigin : a.task.origin = .runtime := rfl
    simp only [Guard.answer, if_neg hnotroom, horigin, hterm', Bool.false_eq_true, if_false]
    rfl
  have hpoll : a.task.poll a.entry = .next { a.entry with
      polls := 1
      guard := (a.entry.guard.take Interrupt.relocate).2
      limit := (a.entry.guard.take Interrupt.relocate).2.interruptLimit
      relocations := (e.guard.intersects Interrupt.relocate || e.guard.stress).toNat } := by
    simp only [Task.poll, if_neg hlimit, hanswer]
    cases e.guard.intersects Interrupt.relocate || e.guard.stress <;> rfl
  refine ⟨_, hpoll, ⟨rfl, nativeLimit_lt_nativePointer hroom, fun _ => ⟨rfl, ?_, ?_, hroom⟩⟩, rfl,
    rfl, rfl, (a.entry.guard.take Interrupt.relocate).2, _, _, _, rfl⟩
  · exact Guard.not_intersects_take (g := a.entry.guard) hterm
  · exact Guard.intersects_take a.entry.guard Interrupt.relocate

/-! ### From one attempt to the next -/

/-- What a match tells of its last attempt: the number of capture sets. -/
def Result.counted (r : Result Status) : Result Nat :=
  ⟨r.engine, r.output, r.answer.bind countOf⟩

@[simp] theorem Result.engine_counted (r : Result Status) : r.counted.engine = r.engine := rfl

/-- What becomes of a match whose attempt does not have to be repeated. -/
def conclude (e : Engine) (h : Handle) (output : Array Int32) :
    Option Ending → Option (Result Status)
  | none => none
  | some .stray => some ⟨e, output, .error .stray⟩
  | some (.done s t) => some ⟨e.beginAttempt.absorb h t, t.output, statusOf s.raw⟩

/-- What a match answers if its last attempt ends with this status. -/
def answerOf (s : Status) : Except MatchError Nat := (statusOf s.raw).bind countOf

/-- A status comes out as it went in, but for a count that does not fit; a count of zero counts as a
failure. -/
theorem statusOf_raw_cases (s : Status) :
    statusOf s.raw = .ok s ∨ s = .success 0 ∧ statusOf s.raw = .ok .failure ∨
      ∃ n, s = .success n ∧ 4294967295 < n ∧ statusOf s.raw = .error (.unexpectedStatus n) := by
  rcases Status.ofRaw_raw_cases s with h | ⟨rfl, -⟩ | ⟨n, rfl, hn, h⟩
  · exact Or.inl (by simp only [statusOf, h])
  · exact Or.inr (Or.inl ⟨rfl, rfl⟩)
  · refine Or.inr (Or.inr ⟨n, rfl, hn, ?_⟩)
    simp only [statusOf, h]
    rfl

/-- **What a match answers**: the count of its last attempt or its error, unless the count does not
fit the number that generated code returns it as. -/
theorem answerOf_cases (s : Status) :
    answerOf s = countOf s ∨
      ∃ n, s = .success n ∧ 4294967295 < n ∧ answerOf s = .error (.unexpectedStatus n) := by
  rcases statusOf_raw_cases s with h | ⟨rfl, -⟩ | ⟨n, rfl, hn, h⟩
  · refine Or.inl ?_
    rw [answerOf, h]
    rfl
  · exact Or.inl rfl
  · refine Or.inr ⟨n, rfl, hn, ?_⟩
    rw [answerOf, h]
    rfl

/-- A match answers no other count than the one its last attempt ends with. -/
theorem countOf_of_answerOf {s : Status} {n : Nat} (h : answerOf s = .ok n) :
    countOf s = .ok n := by
  rcases answerOf_cases s with heq | ⟨k, -, -, herr⟩
  · rw [← heq, h]
  · rw [herr] at h
    cases h

/-- A match overflows its stack just if its last attempt does. -/
theorem answerOf_eq_stackOverflow_iff {s : Status} :
    answerOf s = .error .stackOverflow ↔ s = .exception := by
  refine ⟨fun h => ?_, fun h => by rw [h]; rfl⟩
  rcases answerOf_cases s with heq | ⟨n, -, -, herr⟩
  · rw [heq] at h
    cases s with
    | exception => rfl
    | _ => cases h
  · rw [herr] at h
    cases h

/-- A number of capture sets that fits the 32 bits of a status is the answer of the match; with none
the matcher returns the status of a failure, which also answers zero. -/
theorem answerOf_ofCount {n : Nat} (hn : n ≤ 4294967295) : answerOf (.ofCount n) = .ok n := by
  rcases answerOf_cases (.ofCount n) with heq | ⟨k, hk, hlarge, -⟩
  · rw [heq]
    cases n <;> rfl
  · cases n with
    | zero => cases hk
    | succ n =>
      obtain rfl := Status.success.inj hk
      omega

/-- A larger number is no status. The host then refuses the answer, though the output has been
written by that time. -/
theorem answerOf_ofCount_of_lt {n : Nat} (hn : 4294967295 < n) :
    answerOf (.ofCount n) = .error (.unexpectedStatus n) := by
  have hpos : Status.ofCount n = .success n := if_neg (by omega)
  have hnone : Status.ofRaw (n : Int) = none := by
    rw [Status.ofRaw, if_neg (by omega), if_neg (by omega), if_neg (by omega), if_neg (by omega),
      if_neg (by omega)]
  rw [hpos, answerOf]
  simp only [statusOf, Status.raw, hnone]
  rfl

/-- A match that has a result goes astray with its attempt, or takes over what that leaves. -/
theorem conclude_cases {h : Handle} {output : Array Int32} {ending : Option Ending}
    {r : Result Status} (hr : e.conclude h output ending = some r) :
    ending = some .stray ∧ r = ⟨e, output, .error .stray⟩ ∨
      ∃ s t, ending = some (.done s t) ∧
        r = ⟨e.beginAttempt.absorb h t, t.output, statusOf s.raw⟩ := by
  cases ending with
  | none => cases hr
  | some ending =>
    cases ending with
    | stray => exact Or.inl ⟨rfl, (Option.some.inj hr).symm⟩
    | done s t => exact Or.inr ⟨s, t, rfl, (Option.some.inj hr).symm⟩

/-- The engine after a direct attempt that met a raised limit. -/
def afterRetry (e : Engine) : Engine :=
  { e with
    guard := (e.beginAttempt.guard.take Interrupt.terminate).2
    stats := { e.stats with
      executions := e.stats.executions + 1
      polls := e.stats.polls + 1
      retries := e.stats.retries + 1 } }

/-- The attempts of a match, by how the first one ends. This is the loop of the host taken apart
once; what follows argues about attempts and not about the loop. -/
theorem attempts_eq (h : Handle) (m : Matcher) (subject : Subject) (start retries : Nat)
    (origin : CallOrigin) (e : Engine) (output : Array Int32) :
    attempts h m subject start retries origin e output =
      match (e.nextAttempt m subject start origin output).ending with
      | none => none
      | some .stray => some ⟨e, output, .error .stray⟩
      | some (.done .retry t) =>
        let (e, terminated) := (e.beginAttempt.absorb h t).countRetry
        if terminated then some ⟨e, t.output, .error .aborted⟩
        else match retries with
          | 0 => some ⟨e, t.output, .error .aborted⟩
          | n + 1 => attempts h m subject start n .runtime e t.output
      | some (.done s t) => some ⟨e.beginAttempt.absorb h t, t.output, statusOf s.raw⟩ := by
  have hending : (Task.ofMatcher m subject origin).attempt ((Task.ofMatcher m subject origin).enter
      start output e.beginAttempt.stack e.beginAttempt.guard) =
      (e.nextAttempt m subject start origin output).ending := rfl
  rw [attempts.eq_1, hending]
  cases (e.nextAttempt m subject start origin output).ending with
  | none => rfl
  | some ending =>
    cases ending with
    | stray => rfl
    | done s t =>
      cases s with
      | success n =>
        -- Read back, it is a success, a failure or no status, and never asks for a repetition.
        rcases statusOf_raw_cases (.success n) with hok | ⟨-, hok⟩ | ⟨_, -, -, herr⟩
        · simp only [hok]
        · simp only [hok]
        · simp only [herr]
      | _ => rfl

variable {subject : Subject} {start : Nat} {origin : CallOrigin} {output : Array Int32}
  (h : Handle) (retries : Nat)

/-- An attempt that does not ask to be repeated is the last. -/
theorem attempts_of_ne_retry
    (hne : ∀ t, (e.nextAttempt m subject start origin output).ending ≠ some (.done .retry t)) :
    attempts h m subject start retries origin e output =
        e.conclude h output (e.nextAttempt m subject start origin output).ending ∧
      history h m subject start retries origin e output =
        [e.nextAttempt m subject start origin output] := by
  rw [attempts_eq, history.eq_1]
  cases hend : (e.nextAttempt m subject start origin output).ending with
  | none => exact ⟨rfl, rfl⟩
  | some ending =>
    cases ending with
    | stray => exact ⟨rfl, rfl⟩
    | done s t =>
      cases s with
      | retry => exact absurd hend (hne t)
      | _ => exact ⟨rfl, rfl⟩

variable (subject start output) in
/-- After a direct attempt that met a raised limit, a pending termination ends the match, and
so does the lack of repetitions; otherwise the runtime makes the next attempt. -/
theorem attempts_of_raised (hr : m.object.registers ≤ maxRegister + 1)
    (hfits : m.Fits e) (hraised : e.guard.isRaised = true) :
    attempts h m subject start retries .direct e output =
        (if e.guard.intersects Interrupt.terminate then
          some ⟨e.afterRetry, output, .error .aborted⟩
        else match retries with
          | 0 => some ⟨e.afterRetry, output, .error .aborted⟩
          | n + 1 => attempts h m subject start n .runtime e.afterRetry output) ∧
      history h m subject start retries .direct e output =
        e.nextAttempt m subject start .direct output ::
          (if e.guard.intersects Interrupt.terminate then []
          else match retries with
            | 0 => []
            | n + 1 => history h m subject start n .runtime e.afterRetry output) := by
  have hend := (ending_of_raised subject start output hr hfits hraised).2
  rw [attempts_eq, history.eq_1, hend]
  -- What such an attempt leaves behind is the engine as it was, but for the counters.
  cases retries with
  | zero => exact ⟨rfl, rfl⟩
  | succ n => exact ⟨rfl, rfl⟩

/-- Without a pending termination the interrupts are pending still at the second attempt. -/
theorem guard_afterRetry (hterm : e.guard.intersects Interrupt.terminate = false) :
    e.afterRetry.guard = e.beginAttempt.guard := by
  have hnot : e.beginAttempt.guard.intersects Interrupt.terminate = false := hterm
  simp only [afterRetry, Guard.take_of_not_intersects hnot]

variable (subject start output) in
/-- **The second attempt is the last.** The host enters it itself, and a poll of such an attempt
serves what is pending instead of asking for a repetition – unless that is a termination, and there
is none. -/
theorem ne_retry_afterRetry (hr : m.object.registers ≤ maxRegister + 1)
    (hfits : m.Fits e) (hraised : e.guard.isRaised = true)
    (hterm : e.guard.intersects Interrupt.terminate = false) (t : Thread) :
    (e.afterRetry.nextAttempt m subject start .runtime output).ending ≠ some (.done .retry t) := by
  have hguard := guard_afterRetry hterm
  obtain ⟨t', hp, hset, -⟩ := exists_opened_of_raised (e := e.afterRetry) subject start output hr
    hfits (by rw [hguard]; exact hraised) (by rw [hguard]; exact hterm)
  intro hend
  exact (Attempt.host_of_ending hp hset hend).1 rfl

variable (subject start origin output) in
/-- With room on the native stack and nothing raised no poll fires, so that an attempt never asks to
be repeated. -/
theorem ne_retry_of_quiet
    (hroom : nativeLimit e.gap e.config.nativeBudget < nativePointer m.object.registers)
    (hquiet : e.guard.isRaised = false) (t : Thread) :
    (e.nextAttempt m subject start origin output).ending ≠ some (.done .retry t) := by
  obtain ⟨hp, hset⟩ := opened_of_quiet subject start origin output hroom hquiet
  intro hend
  exact (Attempt.host_of_ending hp hset hend).1 rfl

/-! ### The counters -/

variable {h}

/-- What a call that passes the check has. -/
theorem of_check {n : Nat} (hcheck : e.check h subject start n = .ok m) :
    e.store.get? h = some m ∧ subject.mode = m.object.mode ∧ m.object.saved ≤ n := by
  unfold check at hcheck
  split at hcheck
  · cases hcheck
  · next m' hm' =>
    split at hcheck
    · cases hcheck
    · split at hcheck
      · cases hcheck
      · next hmode =>
        split at hcheck
        · cases hcheck
        · split at hcheck
          · cases hcheck
          · next hsaved =>
            obtain rfl := Except.ok.inj hcheck
            exact ⟨hm', not_not.mp hmode, Nat.le_of_not_lt hsaved⟩

theorem Sane.registers_le {c : Config} (hs : e.Sane c) {h : Handle} {n : Nat}
    (hcheck : e.check h subject start n = .ok m) : m.object.registers ≤ maxRegister + 1 :=
  (hs.compiled h m (of_check hcheck).1).registers_le

/-- The check of a permitted live handle is a matter of its program and options. -/
theorem check_of_permitted {c : Config} (hs : e.Sane c) (hget : e.store.get? h = some m)
    (hgranted : e.permissions.isGranted .nativeExecution m.object.source = true)
    (subject : Subject) (start n : Nat) :
    e.check h subject start n =
      if subject.mode ≠ m.options.mode then .error (.modeMismatch m.options.mode subject.mode)
      else if subject.size < start then .error (.startOutOfBounds start subject.size)
      else if n < m.program.saved then .error (.outputTooSmall m.program.saved n)
      else .ok m := by
  obtain ⟨comp, hshape⟩ := (hs.compiled h m hget).shape
  simp only [check, hget, hgranted, hshape.mode, hshape.saved, Bool.not_true, Bool.false_eq_true,
    if_false]

/-- What an attempt that asks to be repeated does to the engine and the output, a match has done
before each of its attempts, if it can be done one after the other. -/
theorem history_induct {R : Engine × Array Int32 → Engine × Array Int32 → Prop}
    (hrefl : ∀ x, R x x) (htrans : ∀ x y z, R x y → R y z → R x z)
    (hretry : ∀ origin e output t,
      (e.nextAttempt m subject start origin output).ending = some (.done .retry t) →
        R (e, output) ((e.beginAttempt.absorb h t).countRetry.1, t.output))
    {a : Attempt} {retries : Nat} (ha : a ∈ history h m subject start retries origin e output) :
    ∃ origin' e' output', R (e, output) (e', output') ∧
      a = e'.nextAttempt m subject start origin' output' := by
  induction retries using Nat.strong_induction_on generalizing origin e output with
  | _ retries ih =>
  rw [history.eq_1] at ha
  rcases List.mem_cons.mp ha with rfl | ha
  · exact ⟨origin, e, output, hrefl _, rfl⟩
  · split at ha
    · next t ht =>
      simp only at ha
      split at ha
      · cases ha
      · cases retries with
        | zero => cases ha
        | succ n =>
          obtain ⟨origin', e', output', hR, rfl⟩ := ih n (Nat.lt_succ_self n) ha
          exact ⟨origin', e', output', htrans _ _ _ (hretry _ _ _ t ht) hR, rfl⟩
    · cases ha

/-- Every attempt of a match is the next one of an engine that the match went through. -/
theorem exists_kept_of_mem_history {a : Attempt} {retries : Nat}
    (ha : a ∈ history h m subject start retries origin e output) :
    ∃ e' origin' output', Kept e e' ∧ a = e'.nextAttempt m subject start origin' output' := by
  obtain ⟨origin', e', output', hk, rfl⟩ := history_induct (R := fun x y => Kept x.1 y.1)
    (fun x => .refl x.1) (fun _ _ _ hxy hyz => hxy.trans hyz)
    (fun _ e _ _ ht => ((kept_beginAttempt e).trans
      (kept_absorb rfl rfl rfl (Task.grown_of_attempt ht))).trans (kept_countRetry _)) ha
  exact ⟨e', origin', output', hk, rfl⟩

/-- Every attempt of a match runs its program. -/
theorem matcher_of_mem_tries {a : Attempt} (ha : a ∈ e.tries h m subject start output) :
    a.task.matcher = m := by
  obtain ⟨e', origin', output', -, rfl⟩ := exists_kept_of_mem_history ha
  rfl

/-- A match runs its attempts once its arguments pass the check. -/
theorem exec_of_check {h : Handle} (hcheck : e.check h subject start output.size = .ok m) :
    e.exec h subject start output =
      (attempts h m subject start e.config.maxRetries .direct e output).map Result.counted := by
  rw [exec, hcheck]
  rfl

/-- What a match leaves of pending interrupts and counters, after an attempt that its first
poll left settled. -/
theorem counters_of_conclude {a : Attempt} {t' : Thread} {h : Handle} {r : Result Status}
    (hp : a.task.poll a.entry = .next t') (hset : a.task.Settled t')
    (hr : e.conclude h output a.ending = some r) (hstray : r.answer ≠ .error .stray) :
    ∃ n, a.PassesPolls n ∧ r.engine.guard = t'.guard ∧
      e.stats.Grew r.engine.stats 1 0 (t'.polls + n * t'.guard.isRaised.toNat)
        (t'.relocations + n * t'.guard.stress.toNat) := by
  rcases conclude_cases hr with ⟨-, rfl⟩ | ⟨s, t, hend, rfl⟩
  · exact absurd rfl hstray
  · obtain ⟨-, n, hn, hhost⟩ := Attempt.host_of_ending hp hset hend
    refine ⟨n, hn, hhost.guard, rfl, rfl, ?_, ?_⟩
    · exact congrArg (e.stats.polls + ·) hhost.polls
    · exact congrArg (e.stats.relocations + ·) hhost.relocations

theorem ne_stray_of_bind {x : Except MatchError Status} (h : x.bind countOf ≠ .error .stray) :
    x ≠ .error .stray := by
  rintro rfl
  exact h rfl

section Cases

variable {c : Config} (hs : e.Sane c) (hcheck : e.check h subject start output.size = .ok m)
  (hfits : m.Fits e)

include hs hcheck hfits

/-- With nothing raised there is one attempt, and no poll fires. -/
theorem exec_of_quiet (hquiet : e.guard.isRaised = false) :
    ∃ a, e.tries h m subject start output = [a] ∧ a.task.origin = .direct ∧
      (∀ t, a.ending ≠ some (.done .retry t)) ∧
      ∀ r, e.exec h subject start output = some r → r.answer ≠ .error .stray →
        r.engine.guard.pending = e.guard.pending ∧ e.stats.Grew r.engine.stats 1 0 0 0 := by
  have hregs := hs.registers_le hcheck
  have hroom := nativeLimit_lt_nativePointer (hfits.nativeLimit_lt hregs)
  obtain ⟨hp, hset⟩ := opened_of_quiet subject start .direct output hroom hquiet
  have hne := ne_retry_of_quiet subject start .direct output hroom hquiet
  obtain ⟨hatt, htries⟩ := attempts_of_ne_retry h e.config.maxRetries hne
  refine ⟨_, htries, rfl, hne, fun r hr hstray => ?_⟩
  rw [exec_of_check hcheck, hatt] at hr
  obtain ⟨r', hr', rfl⟩ := Option.map_eq_some_iff.mp hr
  obtain ⟨n, -, hguard, hgrew⟩ := counters_of_conclude hp hset hr' (ne_stray_of_bind hstray)
  have hno : (e.nextAttempt m subject start .direct output).entry.guard.isRaised = false := hquiet
  -- Stress keeps the limit raised, so there is none.
  have hstress : (e.nextAttempt m subject start .direct output).entry.guard.stress = false := by
    cases hst : e.guard.stress with
    | false => exact hst
    | true => simp [Guard.isRaised, hst] at hquiet
  rw [hno, hstress, Bool.toNat_false, Nat.mul_zero] at hgrew
  exact ⟨(congrArg Guard.pending hguard).trans rfl, hgrew⟩

/-- A raised limit costs an attempt; there is no other if the match has to end there. -/
theorem exec_of_aborted (hraised : e.guard.isRaised = true)
    (hend : e.guard.intersects Interrupt.terminate = true ∨ c.maxRetries = 0) :
    e.tries h m subject start output = [e.nextAttempt m subject start .direct output] ∧
      e.exec h subject start output = some ⟨e.afterRetry, output, .error .aborted⟩ := by
  have hregs := hs.registers_le hcheck
  rw [← hs.config] at hend
  obtain ⟨hatt, htries⟩ := attempts_of_raised subject start output h e.config.maxRetries hregs
    hfits hraised
  rw [exec_of_check hcheck, hatt, tries, htries]
  cases hterm : e.guard.intersects Interrupt.terminate with
  | true => exact ⟨rfl, rfl⟩
  | false =>
    rcases hend with hcon | hzero
    · rw [hterm] at hcon
      cases hcon
    · rw [hzero]
      exact ⟨rfl, rfl⟩

/-- Otherwise there is one more attempt, and what becomes of it becomes of the match. -/
theorem exec_of_repeated (hraised : e.guard.isRaised = true)
    (hterm : e.guard.intersects Interrupt.terminate = false) (hsome : c.maxRetries ≠ 0) :
    e.tries h m subject start output =
        [e.nextAttempt m subject start .direct output,
          e.afterRetry.nextAttempt m subject start .runtime output] ∧
      e.exec h subject start output =
        (e.afterRetry.conclude h output
          (e.afterRetry.nextAttempt m subject start .runtime output).ending).map
            Result.counted := by
  have hregs := hs.registers_le hcheck
  rw [← hs.config] at hsome
  obtain ⟨n, hn⟩ := Nat.exists_eq_succ_of_ne_zero hsome
  obtain ⟨hatt, htries⟩ := attempts_of_raised subject start output h e.config.maxRetries hregs
    hfits hraised
  have hne := ne_retry_afterRetry subject start output hregs hfits hraised hterm
  obtain ⟨hatt', htries'⟩ := attempts_of_ne_retry h n hne
  rw [exec_of_check hcheck, hatt, tries, htries, hterm, hn, ← hatt', ← htries']
  exact ⟨rfl, rfl⟩

/-- The counters after a second attempt. The first attempt has polled once. The second polls at its
entry and then as often as its run does, if anything keeps the limit raised; under stress each of
its polls moves the code. -/
theorem counters_of_repeated (hraised : e.guard.isRaised = true)
    (hterm : e.guard.intersects Interrupt.terminate = false) (hsome : c.maxRetries ≠ 0)
    {r : Result Nat} (hr : e.exec h subject start output = some r)
    (hstray : r.answer ≠ .error .stray) :
    r.engine.guard.pending = e.guard.pending &&& ~~~Interrupt.relocate ∧
      ∃ n, (e.afterRetry.nextAttempt m subject start .runtime output).PassesPolls n ∧
        e.stats.Grew r.engine.stats 2 1
          (if c.stress ∨ e.guard.pending &&& ~~~Interrupt.relocate ≠ 0 then 2 + n else 2)
          (if c.stress then 1 + n else if e.guard.intersects Interrupt.relocate then 1 else 0) := by
  have hregs := hs.registers_le hcheck
  rw [(exec_of_repeated hs hcheck hfits hraised hterm hsome).2] at hr
  rw [← hs.stress]
  obtain ⟨r', hr', rfl⟩ := Option.map_eq_some_iff.mp hr
  have hguard := guard_afterRetry hterm
  obtain ⟨t', hp, hset, hg', hpolls, hmoves, -⟩ := exists_opened_of_raised (e := e.afterRetry)
    subject start output hregs hfits
    (by rw [hguard]; exact hraised) (by rw [hguard]; exact hterm)
  obtain ⟨n, hpass, hguard', hexec, hretries, hpolls', hmoves'⟩ :=
    counters_of_conclude hp hset hr' (ne_stray_of_bind hstray)
  have hpending : t'.guard.pending = e.guard.pending &&& ~~~Interrupt.relocate := by
    rw [hg']
    change e.afterRetry.guard.pending &&& ~~~Interrupt.relocate = _
    rw [hguard]
    rfl
  have hstress : t'.guard.stress = e.guard.stress := by
    rw [hg']
    rfl
  simp only [Result.engine_counted]
  refine ⟨by rw [← hpending, ← hguard'], n, hpass, hexec, hretries, ?_, ?_⟩
  · -- Taking the relocation may leave nothing raised, and then no later poll fires.
    have hup : t'.guard.isRaised = true ↔
        e.guard.stress = true ∨ e.guard.pending &&& ~~~Interrupt.relocate ≠ 0 := by
      simp [Guard.isRaised, Guard.hasPending, hstress, hpending]
    rw [hpolls', hpolls]
    change e.stats.polls + 1 + (1 + n * t'.guard.isRaised.toNat) = _
    by_cases hst : e.guard.stress = true ∨ e.guard.pending &&& ~~~Interrupt.relocate ≠ 0
    · rw [if_pos hst, hup.mpr hst, Bool.toNat_true]
      omega
    · rw [if_neg hst, Bool.eq_false_iff.mpr fun hcon => hst (hup.mp hcon), Bool.toNat_false]
      omega
  · have hmoves'' : t'.relocations =
        (e.guard.intersects Interrupt.relocate || e.guard.stress).toNat := by
      rw [hmoves, hguard]
      rfl
    rw [hmoves', hmoves'', hstress]
    change e.stats.relocations + (_ + n * e.guard.stress.toNat) = _
    cases e.guard.stress with
    | true => simp
    | false => cases e.guard.intersects Interrupt.relocate <;> simp

end Cases

/-! ### The attempt that decides -/

/-- An attempt of a match from an engine that gets past its first poll, with the thread it has
then: settled, and at the entry still. -/
structure Opens (e : Engine) (m : Matcher) (subject : Subject) (start : Nat)
    (output : Array Int32) (a : Attempt) (t : Thread) : Prop where
  /-- It runs the matcher. -/
  task : ∃ origin, a.task = Task.ofMatcher m subject origin
  /-- The first poll goes on. -/
  poll : a.task.poll a.entry = .next t
  /-- Nothing is left for a poll to do. -/
  settled : a.task.Settled t
  /-- The host's part apart, the thread is as it entered. -/
  entry : ∃ guard limit polls relocations, t =
    { a.task.enter start output e.stack guard with
      limit := limit, polls := polls, relocations := relocations }

/-- An attempt that gets past its first poll opens the match. -/
theorem opens_of_poll {t : Thread}
    (hp : (e.nextAttempt m subject start origin output).task.poll
      (e.nextAttempt m subject start origin output).entry = .next t) :
    e.Opens m subject start output (e.nextAttempt m subject start origin output) t :=
  ⟨⟨origin, rfl⟩, hp, Task.settled_of_poll rfl hp, t.guard, t.limit, t.polls, t.relocations,
    (Task.eq_of_poll hp).trans rfl⟩

/-- **One attempt decides a match**, unless the match ends before any attempt gets past its
first poll. An attempt before it passes nothing. -/
theorem exists_decisive {c : Config} (hs : e.Sane c)
    (hcheck : e.check h subject start output.size = .ok m) (hfits : m.Fits e)
    (hgo : e.guard.isRaised = true →
      e.guard.intersects Interrupt.terminate = false ∧ c.maxRetries ≠ 0) :
    ∃ (e' : Engine) (a : Attempt) (t : Thread), e.Opens m subject start output a t ∧
      (∀ b ∈ e.tries h m subject start output, b = a ∨ ∀ u n, ¬b.Passes u n) ∧
      a ∈ e.tries h m subject start output ∧
      e.exec h subject start output = (e'.conclude h output a.ending).map Result.counted := by
  have hregs := hs.registers_le hcheck
  cases hraised : e.guard.isRaised with
  | false =>
    have hroom := nativeLimit_lt_nativePointer (hfits.nativeLimit_lt hregs)
    obtain ⟨hp, hset⟩ := opened_of_quiet subject start .direct output hroom hraised
    have hne := ne_retry_of_quiet subject start .direct output hroom hraised
    obtain ⟨hatt, htries⟩ := attempts_of_ne_retry h e.config.maxRetries hne
    refine ⟨e, _, _, ⟨⟨_, rfl⟩, hp, hset, e.beginAttempt.guard, _, _, _, rfl⟩, ?_, ?_, ?_⟩
    · intro b hb
      rw [tries, htries] at hb
      exact Or.inl (List.mem_singleton.mp hb)
    · rw [tries, htries]
      exact List.mem_singleton_self _
    · rw [exec_of_check hcheck, hatt]
  | true =>
    obtain ⟨hterm, hsome⟩ := hgo hraised
    obtain ⟨htries, hexec⟩ := exec_of_repeated hs hcheck hfits hraised hterm hsome
    have hguard := guard_afterRetry hterm
    obtain ⟨t, hp, hset, -, -, -, hentry⟩ := exists_opened_of_raised (e := e.afterRetry)
      subject start output hregs hfits (by rw [hguard]; exact hraised)
      (by rw [hguard]; exact hterm)
    refine ⟨e.afterRetry, _, t, ⟨⟨_, rfl⟩, hp, hset, hentry⟩, ?_, ?_, hexec⟩
    · intro b hb
      rw [htries] at hb
      rcases List.mem_cons.mp hb with rfl | hb
      · -- The first attempt never gets to the program.
        refine Or.inr fun u n hu => ?_
        obtain ⟨t₀, hbegin, -⟩ := hu
        rw [Attempt.begin, (ending_of_raised subject start output hregs hfits hraised).1] at hbegin
        cases hbegin
      · exact Or.inl (List.mem_singleton.mp hb)
    · rw [htries]
      exact List.mem_cons_of_mem _ (List.mem_singleton_self _)

/-- A match that ends before any attempt gets past its first poll passes nothing. -/
theorem not_passes_of_aborted {c : Config} (hs : e.Sane c)
    (hcheck : e.check h subject start output.size = .ok m) (hfits : m.Fits e)
    (hraised : e.guard.isRaised = true)
    (hend : e.guard.intersects Interrupt.terminate = true ∨ c.maxRetries = 0) :
    ∀ b ∈ e.tries h m subject start output, ∀ u n, ¬b.Passes u n := by
  intro b hb u n hu
  rw [(exec_of_aborted hs hcheck hfits hraised hend).1] at hb
  obtain rfl := List.mem_singleton.mp hb
  obtain ⟨t₀, hbegin, -⟩ := hu
  rw [Attempt.begin, (ending_of_raised subject start output (hs.registers_le hcheck) hfits
    hraised).1] at hbegin
  cases hbegin

/-- **A match makes one attempt or two.** With nothing raised it makes one. Otherwise its
first attempt asks to be repeated as it entered; a pending termination is taken and ends the
match, and so does a lack of repetitions, which takes nothing; else there is one more
attempt, which takes a pending relocation and is the last. The counters and interrupts after a
match whose program goes astray are left out: such a run has no ending to count from. -/
theorem exec_attempts {c : Config} {h : Handle} (he : e.Reachable c)
    (hcheck : e.check h subject start output.size = .ok m) (hfits : m.Fits e) :
    (e.guard.isRaised = false →
      ∃ a, e.tries h m subject start output = [a] ∧ a.task.origin = .direct ∧
        (∀ t, a.ending ≠ some (.done .retry t)) ∧
        ∀ r, e.exec h subject start output = some r → r.answer ≠ .error .stray →
          r.engine.guard.pending = e.guard.pending ∧ e.stats.Grew r.engine.stats 1 0 0 0) ∧
    (e.guard.isRaised = true →
      ∃ a later, e.tries h m subject start output = a :: later ∧ a.task.origin = .direct ∧
        a.entry.output = output ∧ a.entry.stack = e.stack ∧
        a.task.poll a.entry = .done .retry { a.entry with polls := 1 } ∧
        a.ending = some (.done .retry { a.entry with polls := 1 }) ∧
        (e.guard.intersects Interrupt.terminate = true →
          later = [] ∧ ∃ r, e.exec h subject start output = some r ∧
            r.answer = .error .aborted ∧ r.output = output ∧ r.engine.stack = e.stack ∧
            r.engine.guard.pending = e.guard.pending &&& ~~~Interrupt.terminate ∧
            e.stats.Grew r.engine.stats 1 1 1 0) ∧
        (e.guard.intersects Interrupt.terminate = false → c.maxRetries = 0 →
          later = [] ∧ ∃ r, e.exec h subject start output = some r ∧
            r.answer = .error .aborted ∧ r.output = output ∧ r.engine.stack = e.stack ∧
            r.engine.guard.pending = e.guard.pending ∧ e.stats.Grew r.engine.stats 1 1 1 0) ∧
        (e.guard.intersects Interrupt.terminate = false → c.maxRetries ≠ 0 →
          ∃ b, later = [b] ∧ b.task.origin = .runtime ∧
            (∀ t, b.ending ≠ some (.done .retry t)) ∧
            ∀ r, e.exec h subject start output = some r → r.answer ≠ .error .stray →
              r.engine.guard.pending = e.guard.pending &&& ~~~Interrupt.relocate ∧
              ∃ n, b.PassesPolls n ∧
                e.stats.Grew r.engine.stats 2 1
                  (if c.stress ∨ e.guard.pending &&& ~~~Interrupt.relocate ≠ 0 then 2 + n else 2)
                  (if c.stress then 1 + n
                    else if e.guard.intersects Interrupt.relocate then 1 else 0))) := by
  have hs := he.sane
  have hregs := hs.registers_le hcheck
  refine ⟨exec_of_quiet hs hcheck hfits, fun hraised => ?_⟩
  obtain ⟨hpoll, hending⟩ := ending_of_raised subject start output hregs hfits hraised
  by_cases hend : e.guard.intersects Interrupt.terminate = true ∨ c.maxRetries = 0
  · obtain ⟨htries, hexec⟩ := exec_of_aborted hs hcheck hfits hraised hend
    refine ⟨_, [], htries, rfl, rfl, rfl, hpoll, hending, fun _ => ?_, fun hterm _ => ?_,
      fun hterm hsome => ?_⟩
    · exact ⟨rfl, _, hexec, rfl, rfl, rfl, rfl, rfl, rfl, rfl, rfl⟩
    · have hpending : e.afterRetry.guard.pending = e.guard.pending :=
        (congrArg Guard.pending (guard_afterRetry hterm)).trans rfl
      exact ⟨rfl, _, hexec, rfl, rfl, rfl, hpending, rfl, rfl, rfl, rfl⟩
    · rcases hend with hcon | hzero
      · rw [hterm] at hcon
        cases hcon
      · exact absurd hzero hsome
  · rw [not_or, Bool.not_eq_true] at hend
    obtain ⟨hterm, hsome⟩ := hend
    obtain ⟨htries, -⟩ := exec_of_repeated hs hcheck hfits hraised hterm hsome
    refine ⟨_, _, htries, rfl, rfl, rfl, hpoll, hending, fun hcon => ?_, fun _ hzero => ?_,
      fun _ _ => ?_⟩
    · rw [hterm] at hcon
      cases hcon
    · exact absurd hzero hsome
    · exact ⟨_, rfl, rfl, ne_retry_afterRetry subject start output hregs hfits hraised hterm,
        fun r hr hstray =>
        counters_of_repeated hs hcheck hfits hraised hterm hsome hr hstray⟩

end Engine

/-! ### A session to try things on -/

namespace Sample

/-- Finds the letter `a`: while it looks at one place it keeps a resumption point for the
next. -/
def finder : Program where
  opcodes := #[.bind ⟨0⟩, .load 0 none true 1, .pushBacktrack ⟨1⟩, .onChar (.notEqual 97) none,
    .writePosition 0 0, .advance 1, .writePosition 1 0, .succeed, .bind ⟨1⟩, .advance 1,
    .goTo (some ⟨0⟩)]
  labels := 2
  saved := 2

theorem exists_compile_finder :
    ∃ m, finder.compile { mode := .latin1 } "a" Sample.heap = .ok m ∧ m.object.registers = 2 := by
  obtain ⟨m, hm, hregs, -⟩ := Program.exists_compile (p := finder) (o := { mode := .latin1 })
    (n := 106) (by decide +kernel) (by decide) (by simp [finder, Opcode.InRange, InReach])
    (by decide) "a" Sample.heap
  exact ⟨m, hm, hregs⟩

/-- A new engine with the program compiled. -/
theorem exists_engine {c : Config} {e : Engine} (gap : Nat) (hw : c.Words) (hgap : 16 ≤ gap)
    (hnew : Engine.new c gap = .ok (.ok e)) :
    ∃ (e' : Engine) (m : Matcher), e'.Reachable c ∧ e'.gap = gap ∧ e'.guard = e.guard ∧
      m.object.registers = 2 ∧ Compiled finder { mode := .latin1 } "a" m ∧
      e'.store.get? ⟨0⟩ = some m ∧
      e'.permissions.isGranted .nativeExecution m.object.source = true := by
  obtain ⟨m, hm, hregs⟩ := exists_compile_finder
  obtain ⟨e', he', hstore⟩ := Engine.exists_stocked hw hgap hnew hm
  refine ⟨e', m, he'.reachable, he'.gap.trans (Engine.gap_of_new hnew), he'.guard, hregs, .fresh hm,
    ?_, ?_⟩
  · rw [hstore]
    rfl
  · rw [he'.permissions, (Engine.empty_of_new hnew).2]
    rfl

/-- It can be run on a subject of its encoding. -/
theorem check_finder {c : Config} {e : Engine} {m : Matcher} (he : e.Reachable c)
    (hm : Compiled finder { mode := .latin1 } "a" m) (hget : e.store.get? ⟨0⟩ = some m)
    (hgranted : e.permissions.isGranted .nativeExecution m.object.source = true)
    (bytes : Array UInt8) : e.check ⟨0⟩ (.latin1 bytes) 0 2 = .ok m := by
  obtain ⟨comp, hs⟩ := hm.shape
  rw [Engine.check_of_permitted he.sane hget hgranted, hs.options, hs.program]
  rfl

theorem fits_finder {e : Engine} {m : Matcher} (hgap : e.gap = 16)
    (hbudget : e.config.nativeBudget = 524288) (hregs : m.object.registers = 2) : m.Fits e := by
  rw [Matcher.Fits, hgap, hbudget, hregs]
  decide

end Sample

/-- A relocation and an interrupt that means nothing: two attempts. -/
theorem Engine.exec_attempts_relocation :
    ∃ (e : Engine) (m : Matcher), e.Reachable {} ∧ e.guard.pending = 5 ∧
      e.check ⟨0⟩ (.latin1 #[98, 97]) 0 2 = .ok m ∧ m.Fits e ∧
      (e.tries ⟨0⟩ m (.latin1 #[98, 97]) 0 #[7, 7]).length = 2 := by
  have hw : Config.Words {} := by constructor <;> decide
  obtain ⟨e, m, he, hgap, hguard, hregs, hm, hget, hgranted⟩ :=
    Sample.exists_engine 16 hw (by decide) rfl
  have he' : (e.requestInterrupt 5).Reachable {} := .after (.interrupt 5) he rfl
  have hfits : m.Fits (e.requestInterrupt 5) :=
    Sample.fits_finder hgap (congrArg Config.nativeBudget he'.sane.config) hregs
  have hcheck : (e.requestInterrupt 5).check ⟨0⟩ (.latin1 #[98, 97]) 0
      (#[7, 7] : Array Int32).size = .ok m :=
    Sample.check_finder he' hm hget hgranted _
  have hpending : (e.requestInterrupt 5).guard.pending = 5 := by
    rw [Engine.requestInterrupt, hguard]
    rfl
  have hraised : (e.requestInterrupt 5).guard.isRaised = true := by
    rw [Guard.isRaised, Guard.hasPending, hpending]
    exact Bool.or_true _
  have hterm : (e.requestInterrupt 5).guard.intersects Interrupt.terminate = false := by
    rw [Guard.intersects, hpending]
    decide
  obtain ⟨a, later, htries, -, -, -, -, -, -, -, hmore⟩ :=
    (exec_attempts he' hcheck hfits).2 hraised
  obtain ⟨b, rfl, -⟩ := hmore hterm (by decide)
  exact ⟨_, m, he', hpending, hcheck, hfits, by rw [htries]; rfl⟩

end NativeMatcher
