import NativeMatcher.Proofs.Independence
import NativeMatcher.Proofs.Recorded

/-!
# The limit on backtracks

A program can be compiled with a limit on the number of times it backtracks. The counter is
in the frame, so it survives a start over and not a new attempt, and it is compared with a
limit that is cut to what a signed immediate can hold.

What the limit does is said here in terms of the run without it. That run backtracks some
number of times, or for ever; `NativeMatcher.Task.backtrackCount` counts. As long as the count
stays within the limit, the limited run is the unlimited one, thread by thread, but for the
counter (`NativeMatcher.Task.Limits.steps_eq`). The first backtrack beyond the limit ends it
(`NativeMatcher.Attempt.Limits.of_exceedsAt`), whatever the unlimited run would have done next.
One of the two is the case for every run, also for one that never ends
(`NativeMatcher.Attempt.exists_exceedsAt`).

For a match that is `NativeMatcher.Engine.exec_backtrackLimit`. What a match answers when it ends
at the limit is the number of matches it has reported, if 32 bits can hold it. They need not: no
limit is so small that the output could not take more matches before it is exceeded
(`NativeMatcher.Engine.unexpectedStatus_of_drummer`).
-/

namespace NativeMatcher

open Backtrack

/-! ### Counting backtracks -/

/-- Whether a move backtracks. -/
def Move.isBacktrack : Move → Bool
  | .backtrack _ => true
  | _ => false

/-- How many of the first `n` steps backtrack. -/
def Task.backtrackCount (k : Task) : (n : Nat) → Thread → Nat
  | 0, _ => 0
  | n + 1, t =>
    backtrackCount k n t +
      match k.steps n t with
      | .next u => (k.move u).isBacktrack.toNat
      | _ => 0

/-- A limit on backtracks as generated code compares with it. -/
def backtrackBound (limit : UInt32) : Nat := (min limit 0x7FFFFFFF).toNat

/-- The thread with another count of backtracks. -/
def Thread.withBacktracks (t : Thread) (n : Nat) : Thread := { t with backtracks := n }

/-- The outcome with another count of backtracks. -/
def Outcome.withBacktracks (o : Outcome) (n : Nat) : Outcome :=
  match o with
  | .next t => .next (t.withBacktracks n)
  | .done s t => .done s (t.withBacktracks n)
  | .stray => .stray

/-- The end of a run with another count of backtracks. -/
def Ending.withBacktracks (e : Ending) (n : Nat) : Ending :=
  match e with
  | .done s t => .done s (t.withBacktracks n)
  | .stray => .stray

theorem Ending.outcome_withBacktracks (e : Ending) (n : Nat) :
    (e.withBacktracks n).outcome = e.outcome.withBacktracks n := by
  cases e <;> rfl

namespace Task

variable {k k' : Task} {t t₀ : Thread} {n bound : Nat}

theorem backtrackCount_succ (hn : k.steps n t₀ = .next t) :
    k.backtrackCount (n + 1) t₀ = k.backtrackCount n t₀ + (k.move t).isBacktrack.toNat := by
  rw [backtrackCount, hn]

/-- Backtracks are counted step by step: those of `m + n` steps are those of `m` steps and of the
`n` steps after them. -/
theorem backtrackCount_add {m n : Nat} {u : Thread} (hm : k.steps m t = .next u) :
    k.backtrackCount (m + n) t = k.backtrackCount m t + k.backtrackCount n u := by
  induction n with
  | zero => rfl
  | succ n ih =>
    have hsteps : k.steps (m + n) t = k.steps n u := by
      rw [steps_add, hm]
      rfl
    rw [← Nat.add_assoc, backtrackCount, backtrackCount, hsteps, ih, Nat.add_assoc]

theorem backtrackCount_mono (t : Thread) {m n : Nat} (h : m ≤ n) :
    k.backtrackCount m t ≤ k.backtrackCount n t := by
  induction h with
  | refl => exact Nat.le_refl _
  | step _ ih => exact Nat.le_trans ih (Nat.le_add_right _ _)

/-- **A run that backtracks more often than a bound passes a thread where it is about to**,
with the bound just reached. -/
theorem exists_beyond (h : bound < k.backtrackCount n t₀) :
    ∃ i u depth, k.steps i t₀ = .next u ∧ k.backtrackCount i t₀ = bound ∧
      k.move u = .backtrack depth := by
  induction n with
  | zero => exact absurd h (Nat.not_lt_zero bound)
  | succ n ih =>
    by_cases hlt : bound < k.backtrackCount n t₀
    · exact ih hlt
    · cases hn : k.steps n t₀ with
      | next u =>
        rw [backtrackCount_succ hn] at h
        cases hm : k.move u with
        | backtrack depth =>
          simp only [hm, Move.isBacktrack, Bool.toNat_true] at h
          exact ⟨n, u, depth, hn, by omega, hm⟩
        | _ =>
          simp only [hm, Move.isBacktrack, Bool.toNat_false] at h
          omega
      | done s u =>
        simp only [backtrackCount, hn] at h
        omega
      | stray =>
        simp only [backtrackCount, hn] at h
        omega

/-! ### Routines do not read the counter -/

theorem exit_withBacktracks (t : Thread) (n : Nat) :
    k.exit (t.withBacktracks n) = (k.exit t).withBacktracks n := by
  unfold exit
  split <;> rfl

theorem restart_withBacktracks (t : Thread) (n : Nat) :
    k.restart (t.withBacktracks n) = (k.restart t).withBacktracks n := by
  have hpos : (t.withBacktracks n).pos = t.pos := rfl
  simp only [restart, hpos]
  cases (if t.pos - k.unit = k.before then some 10 else k.chars? (t.pos - k.unit) 1) <;> rfl

/-- Reporting a match neither reads nor writes the count of backtracks, whether the matcher returns,
starts over behind the match, or steps over an empty one. -/
theorem succeed_withBacktracks (t : Thread) (n : Nat) :
    k.succeed (t.withBacktracks n) = (k.succeed t).withBacktracks n := by
  have hstart : ∀ (start : Int64) (t : Thread),
      k.startOver start (t.withBacktracks n) = (k.startOver start t).withBacktracks n := by
    intro start t
    have hpos : (t.withBacktracks n).pos = t.pos := rfl
    simp only [startOver, hpos]
    split
    · split
      · exact exit_withBacktracks t n
      · cases k.positionAfterEmpty t.pos with
        | none => rfl
        | some pos => exact restart_withBacktracks { t with pos := pos } n
    · exact restart_withBacktracks t n
  simp only [succeed]
  split
  · change (if t.remaining < _ then _ else _) = _
    split
    · exact exit_withBacktracks { t with
        output := k.storeCaptures k.matcher.program.saved t.outBase t.regs t.output
        captures := t.captures + 1 } n
    · exact hstart _ { t with
        output := k.storeCaptures k.matcher.program.saved t.outBase t.regs t.output
        captures := t.captures + 1
        remaining := t.remaining - k.matcher.program.saved
        outBase := t.outBase + k.matcher.program.saved
        depth := 0 }
  · rfl

/-- Neither does a push, with or without the growth that it may need. -/
theorem push_withBacktracks (t : Thread) (e : UInt32) (checked : Bool) (n : Nat) :
    (t.withBacktracks n).push e checked = (t.push e checked).withBacktracks n := by
  have hstack : (t.withBacktracks n).stack = t.stack := rfl
  have hdepth : (t.withBacktracks n).depth = t.depth := rfl
  simp only [Thread.push, hstack, hdepth]
  cases t.stack.write (t.depth + 4) e with
  | none => rfl
  | some stack =>
    simp only
    split
    · cases stack.grow (t.depth + 4) <;> rfl
    · rfl

/-- Neither does the jump to a popped resumption point; the count is made before it. -/
theorem resume_withBacktracks (t : Thread) (n : Nat) :
    k.resume (t.withBacktracks n) = (k.resume t).withBacktracks n := by
  have hpeek : (t.withBacktracks n).peek = t.peek := rfl
  rw [resume_eq, resume_eq, hpeek]
  cases t.peek with
  | empty => exact exit_withBacktracks t n
  | outside => rfl
  | entry e =>
    simp only
    cases k.opcodeAt? e <;> rfl

/-! ### One step -/

/-- The status of a run that ends at its first backtrack beyond the limit. -/
def limitStatus (k : Task) (t : Thread) : Status :=
  if k.matcher.options.canFallback then .fallback
  else if k.matcher.options.globalMode.isGlobal then .ofCount t.captures
  else .failure

/-- Running into the limit never repeats a match. -/
theorem limitStatus_ne_retry (t : Thread) : k.limitStatus t ≠ .retry := by
  unfold limitStatus
  split
  · exact fun h => by cases h
  · split
    · exact Status.ofCount_ne_retry _
    · exact fun h => by cases h

/-- The second task is the first one with a limit on backtracks. -/
structure Limits (k k' : Task) (bound : Nat) : Prop extends SameSearch k k' where
  /-- They are called alike. -/
  origin : k.origin = k'.origin
  /-- The first one has no limit. -/
  unlimited : k.matcher.options.backtrackLimit = none
  /-- The second one has. -/
  limited : ∃ limit, k'.matcher.options.backtrackLimit = some limit ∧ bound = backtrackBound limit
  /-- The frames are at the same address. -/
  sp : k.sp = k'.sp

namespace Limits

variable (h : Limits k k' bound)

include h

/-- The count of backtracks is of no concern to a poll. -/
theorem settled (hset : k.Settled t) (n : Nat) : k'.Settled (t.withBacktracks n) := by
  refine ⟨hset.limit, ?_, ?_⟩
  · rw [← h.sp]
    exact hset.room
  · rw [← h.origin, ← h.sp]
    exact hset.calm

theorem move_eq (t : Thread) (n : Nat) : k'.move (t.withBacktracks n) = k.move t :=
  (move_congr (t := t) (u := t.withBacktracks n) h.toSameCode rfl rfl).symm

/-- What the limited task makes of a backtrack. Below the bound it is the backtrack of the unlimited
task with the counter one higher; at the bound it polls and ends. -/
theorem backtrack_eq (hset : k.Settled t) (n : Nat) :
    k'.backtrack (t.withBacktracks n) =
      if n < bound then (k.backtrack t).withBacktracks (n + 1)
      else .done (k'.limitStatus t) ((t.afterPolls 1).withBacktracks (n + 1)) := by
  obtain ⟨limit, hlimit, rfl⟩ := h.limited
  have hcount : k'.countBacktrack ((t.withBacktracks n).afterPolls 1) =
      if n < backtrackBound limit then .next ((t.afterPolls 1).withBacktracks (n + 1))
      else .done (k'.limitStatus t) ((t.afterPolls 1).withBacktracks (n + 1)) := by
    simp only [countBacktrack, hlimit]
    by_cases hlt : n < backtrackBound limit
    · rw [if_pos hlt]
      exact if_pos hlt
    · rw [if_neg hlt]
      refine (if_neg hlt).trans ?_
      unfold limitStatus exit
      split
      · rfl
      · split <;> rfl
  have hnone : k.countBacktrack (t.afterPolls 1) = .next (t.afterPolls 1) := by
    simp only [countBacktrack, h.unlimited]
  have hresume : k'.resume = k.resume := by
    funext t
    rw [resume_eq, resume_eq, h.toSameSearch.exit_eq, h.toSameCode.opcodeAt?_eq]
  simp only [backtrack, poll_of_settled hset, poll_of_settled (h.settled hset n), Outcome.andThen]
  rw [hcount, hnone, hresume]
  by_cases hlt : n < backtrackBound limit
  · rw [if_pos hlt, if_pos hlt]
    exact resume_withBacktracks _ _
  · rw [if_neg hlt, if_neg hlt]

/-- **A step within the limit is a step of the unlimited run**, but for the counter. This is the
step of the simulation; the counter is the one part of the thread in which the two differ. -/
theorem step_eq (hset : k.Settled t)
    (hn : n + (k.move t).isBacktrack.toNat ≤ bound) :
    k'.step (t.withBacktracks n) =
      (k.step t).withBacktracks (n + (k.move t).isBacktrack.toNat) := by
  rw [step_eq_act, step_eq_act, h.move_eq]
  cases hm : k.move t with
  | backtrack depth =>
    have hd : k.Settled { t with depth := depth } := ⟨hset.limit, hset.room, hset.calm⟩
    rw [hm] at hn
    have hlt : n < bound := hn
    refine (h.backtrack_eq hd n).trans ?_
    rw [if_pos hlt]
    rfl
  | go c => rfl
  | poll pc =>
    simp only [act, poll_of_settled hset, poll_of_settled (h.settled hset n)]
    rfl
  | push e checked => exact push_withBacktracks t e checked n
  | exit =>
    refine Eq.trans ?_ (exit_withBacktracks t n)
    rw [h.toSameSearch.exit_eq]
    rfl
  | succeed =>
    refine Eq.trans ?_ (succeed_withBacktracks t n)
    rw [h.toSameSearch.succeed_eq]
    rfl
  | stray => rfl

/-- **The first backtrack beyond the limit ends the run.** It polls first, and the entry that it
would have popped is still on the stack. -/
theorem step_eq_done (hset : k.Settled t) {depth : Int} (hm : k.move t = .backtrack depth) :
    k'.step (t.withBacktracks bound) = .done (k'.limitStatus t)
      ((({ t with depth := depth } : Thread).afterPolls 1).withBacktracks (bound + 1)) := by
  have hd : k.Settled { t with depth := depth } := ⟨hset.limit, hset.room, hset.calm⟩
  rw [step_eq_act, h.move_eq, hm]
  refine (h.backtrack_eq hd bound).trans ?_
  rw [if_neg (Nat.lt_irrefl bound)]
  rfl

/-! ### A whole run -/

/-- **Within the limit the limited run is the unlimited one, thread by thread.** By induction on the
number of steps; the number of backtracks so far is what the counter of the limited run shows. -/
theorem steps_eq (hset : k.Settled t₀) (hn : k.steps n t₀ = .next t)
    (hcount : k.backtrackCount n t₀ ≤ bound) :
    k'.steps n (t₀.withBacktracks 0) = .next (t.withBacktracks (k.backtrackCount n t₀)) := by
  induction n generalizing t with
  | zero =>
    obtain rfl := Outcome.next.inj hn
    rfl
  | succ n ih =>
    rw [steps_succ] at hn
    cases hu : k.steps n t₀ with
    | next u =>
      rw [hu] at hn
      have hset' : k.Settled u := steps_induct (P := k.Settled) (fun _ _ h hs => h.step hs) hset hu
      rw [backtrackCount_succ hu] at hcount ⊢
      rw [steps_succ, ih hu (by omega)]
      refine (h.step_eq hset' hcount).trans ?_
      rw [show k.step u = .next t from hn]
      rfl
    | done s u =>
      rw [hu] at hn
      cases hn
    | stray =>
      rw [hu] at hn
      cases hn

/-- A run that stays within the limit ends as the unlimited run does, or does not end
either. -/
theorem run_eq (hset : k.Settled t₀) (hcount : ∀ n, k.backtrackCount n t₀ ≤ bound) :
    ∃ n, k'.run (t₀.withBacktracks 0) = (k.run t₀).map (·.withBacktracks n) := by
  cases hr : k.run t₀ with
  | none =>
    exact ⟨0, run_eq_none_of_steps hr fun hu => ⟨_, h.steps_eq hset hu (hcount _)⟩⟩
  | some e =>
    obtain ⟨n, u, hn, hu⟩ := exists_last_step hr
    have hset' : k.Settled u := steps_induct (P := k.Settled) (fun _ _ h hs => h.step hs) hset hn
    have hlast := hcount (n + 1)
    rw [backtrackCount_succ hn] at hlast
    refine ⟨k.backtrackCount n t₀ + (k.move u).isBacktrack.toNat,
      run_of_last_step (h.steps_eq hset hn (hcount n)) ?_⟩
    rw [h.step_eq hset' hlast, hu, ← Ending.outcome_withBacktracks]

end Limits

/-- Outside a global mode no step that goes on stores captures. So a limit that is exceeded there
answers with no match. -/
theorem captures_of_step (hglobal : k.matcher.options.globalMode.isGlobal = false) {u : Thread}
    (hs : k.step t = .next u) : u.captures = t.captures := by
  rw [step_eq_act] at hs
  cases hm : k.move t with
  | go c =>
    rw [hm] at hs
    obtain rfl := Outcome.next.inj hs
    rfl
  | poll pc =>
    simp only [hm, act] at hs
    obtain ⟨v, hv, hu⟩ := Outcome.andThen_eq_next.mp hs
    obtain rfl := Outcome.next.inj hu
    rw [eq_of_poll hv]
  | backtrack depth =>
    simp only [hm, act, backtrack] at hs
    obtain ⟨w, hw, hu⟩ := Outcome.andThen_eq_next.mp hs
    obtain ⟨v, hv, hw⟩ := Outcome.andThen_eq_next.mp hw
    have hcount := eq_of_countBacktrack hw
    have hpoll := eq_of_poll hv
    rw [resume_eq] at hu
    split at hu
    · exact absurd hu (exit_ne_next _ _)
    · cases hu
    · split at hu
      · cases hu
      · obtain rfl := Outcome.next.inj hu
        simp only
        rw [hcount, hpoll]
  | push e checked =>
    simp only [hm, act, Thread.push] at hs
    split at hs
    · cases hs
    · split at hs
      · split at hs
        · obtain rfl := Outcome.next.inj hs
          rfl
        · cases hs
      · obtain rfl := Outcome.next.inj hs
        rfl
  | exit =>
    rw [hm] at hs
    exact absurd hs (exit_ne_next _ _)
  | succeed =>
    simp only [hm, act, succeed, hglobal] at hs
    cases hs
  | stray =>
    rw [hm] at hs
    cases hs

end Task

/-! ### Attempts -/

namespace Attempt

/-- The attempt backtracks at most so often, also if it never ends. -/
def BacktracksWithin (a : Attempt) (bound : Nat) : Prop :=
  ∀ t₀ n, a.begin = .next t₀ → a.task.backtrackCount n t₀ ≤ bound

/-- The attempt begins with `t₀`, and after `n` steps, of which `bound` backtracked, is about
to backtrack again from `t`. -/
structure ExceedsAt (a : Attempt) (bound n : Nat) (t₀ t : Thread) : Prop where
  /-- It begins. -/
  begins : a.begin = .next t₀
  /-- It takes steps. -/
  steps : a.task.steps n t₀ = .next t
  /-- So many backtracked. -/
  count : a.task.backtrackCount n t₀ = bound
  /-- The next one backtracks. -/
  move : ∃ depth, a.task.move t = .backtrack depth

/-- An attempt that does not stay within a bound exceeds it somewhere. -/
theorem exists_exceedsAt {a : Attempt} {bound : Nat} (h : ¬a.BacktracksWithin bound) :
    ∃ n t₀ t, a.ExceedsAt bound n t₀ t := by
  simp only [BacktracksWithin, not_forall, Nat.not_le] at h
  obtain ⟨t₀, n, hb, hlt⟩ := h
  obtain ⟨i, t, depth, hi, hcount, hm⟩ := Task.exists_beyond hlt
  exact ⟨i, t₀, t, hb, hi, hcount, depth, hm⟩

/-- The second attempt is the first one with a limit on backtracks. -/
structure Limits (a a' : Attempt) (bound : Nat) : Prop where
  /-- What is run is the same but for the limit. -/
  task : a.task.Limits a'.task bound
  /-- They enter alike. -/
  entry : a'.entry = a.entry
  /-- Nothing was counted so far. -/
  fresh : a.entry.backtracks = 0
  /-- The interrupt limit is up to date. -/
  limit : a.entry.limit = a.entry.guard.interruptLimit

namespace Limits

variable {a a' : Attempt} {bound n : Nat} {t₀ t : Thread} (h : a.Limits a' bound)

include h

theorem begin_eq : a'.begin = a.begin := by
  have hpoll : a'.task.poll = a.task.poll := by
    funext t
    simp only [Task.poll, h.task.sp, h.task.origin]
  rw [begin, begin, h.entry, hpoll, h.task.toSameSearch.restart_eq]

/-- An attempt that begins is settled, with nothing counted. -/
theorem of_begin (hb : a.begin = .next t₀) :
    a.task.Settled t₀ ∧ t₀.withBacktracks 0 = t₀ ∧ t₀.captures = a.entry.captures := by
  obtain ⟨t, c, hpoll, rfl⟩ := begin_eq_next hb
  have hset := Task.settled_of_poll h.limit hpoll
  have hzero : t.backtracks = 0 := by
    rw [Task.eq_of_poll hpoll]
    exact h.fresh
  have hcaptures : t.captures = a.entry.captures := by rw [Task.eq_of_poll hpoll]
  refine ⟨hset.of_sameHost ⟨rfl, rfl, rfl, rfl⟩, ?_, hcaptures⟩
  simp only [Thread.withBacktracks, hzero]

/-- **Within the limit the attempts end alike**, or both do not end. What is asked is asked of every
thread of the run, so that it can be said of a run that does not end. -/
theorem ending_eq (hwithin : a.BacktracksWithin bound) :
    ∃ n, a'.ending = a.ending.map (·.withBacktracks n) := by
  cases hb : a.begin with
  | next t₀ =>
    obtain ⟨hset, hzero, -⟩ := h.of_begin hb
    obtain ⟨n, hn⟩ := h.task.run_eq hset fun n => hwithin t₀ n hb
    refine ⟨n, ?_⟩
    rw [ending_of_begin hb, ending_of_begin (h.begin_eq.trans hb), ← hn, hzero]
  | done s u =>
    refine ⟨u.backtracks, ?_⟩
    change a'.begin.ending _ = (a.begin.ending _).map _
    rw [h.begin_eq, hb]
    rfl
  | stray =>
    refine ⟨0, ?_⟩
    change a'.begin.ending _ = (a.begin.ending _).map _
    rw [h.begin_eq, hb]
    rfl

/-- **An attempt that exceeds the limit ends there.** Up to then it is the unlimited one,
thread by thread. -/
theorem of_exceedsAt (he : a.ExceedsAt bound n t₀ t) :
    a'.begin = .next t₀ ∧
      (∀ i ≤ n, ∀ u, a.task.steps i t₀ = .next u →
        a'.task.steps i t₀ = .next (u.withBacktracks (a.task.backtrackCount i t₀))) ∧
      ∃ v, v.output = t.output ∧ v.stack = t.stack ∧
        a'.task.steps (n + 1) t₀ = .done (a'.task.limitStatus t) v ∧
        a'.ending = some (.done (a'.task.limitStatus t) v) := by
  obtain ⟨hset, hzero, -⟩ := h.of_begin he.begins
  have hagree : ∀ i ≤ n, ∀ u, a.task.steps i t₀ = .next u →
      a'.task.steps i t₀ = .next (u.withBacktracks (a.task.backtrackCount i t₀)) := by
    intro i hi u hu
    have hle : a.task.backtrackCount i t₀ ≤ bound := by
      rw [← he.count]
      exact Task.backtrackCount_mono t₀ hi
    have heq := h.task.steps_eq hset hu hle
    rwa [hzero] at heq
  obtain ⟨depth, hm⟩ := he.move
  have hset' : a.task.Settled t :=
    Task.steps_induct (P := a.task.Settled) (fun _ _ h hs => h.step hs) hset he.steps
  have hlast := h.task.step_eq_done hset' hm
  have hn := hagree n (Nat.le_refl n) t he.steps
  rw [he.count] at hn
  refine ⟨h.begin_eq.trans he.begins, hagree,
    (({ t with depth := depth } : Thread).afterPolls 1).withBacktracks (bound + 1), rfl, rfl, ?_,
    ?_⟩
  · rw [Task.steps_succ, hn]
    exact hlast
  · rw [ending_of_begin (h.begin_eq.trans he.begins)]
    exact Task.run_of_last_step hn hlast

end Limits

/-- An attempt that asks to be repeated did so at its first poll. -/
theorem not_begin_of_retry {a : Attempt} (hlimit : a.entry.limit = a.entry.guard.interruptLimit)
    {t : Thread} (h : a.ending = some (.done .retry t)) (t₀ : Thread) : a.begin ≠ .next t₀ := by
  intro hb
  obtain ⟨u, hpoll⟩ := exists_poll_of_begin hb
  exact (host_of_ending hpoll (Task.settled_of_poll hlimit hpoll) h).1 rfl

end Attempt

/-! ### Matches -/

namespace Engine

/-- What a match shows to its caller, and leaves to the matches after it. -/
def Result.visible {α : Type} (r : Result α) :
    Except MatchError α × Array Int32 × Stack × Guard × Stats :=
  (r.answer, r.output, r.engine.stack, r.engine.guard, r.engine.stats)

/-- Two engines have the same configuration, gap, stack, interrupts and counters. What they have
compiled may differ. -/
structure SameState (e e' : Engine) : Prop where
  /-- The configuration. -/
  config : e.config = e'.config
  /-- The gap. -/
  gap : e.gap = e'.gap
  /-- The backtrack stack. -/
  stack : e.stack = e'.stack
  /-- The pending interrupts. -/
  guard : e.guard = e'.guard
  /-- The counters. -/
  stats : e.stats = e'.stats

theorem SameState.refl (e : Engine) : e.SameState e := ⟨rfl, rfl, rfl, rfl, rfl⟩

theorem SameState.beginAttempt {e e' : Engine} (h : e.SameState e') :
    e.beginAttempt.SameState e'.beginAttempt := by
  refine ⟨h.config, h.gap, h.stack, ?_, ?_⟩
  · simp only [Engine.beginAttempt, h.config, h.gap, h.guard]
  · simp only [Engine.beginAttempt, h.stats]

/-- The counter of backtracks is not taken over. -/
theorem SameState.absorb {e e' : Engine} (hs : e.SameState e') (h h' : Handle) (t : Thread)
    (n : Nat) : (e.absorb h t).SameState (e'.absorb h' (t.withBacktracks n)) := by
  refine ⟨hs.config, hs.gap, rfl, rfl, ?_⟩
  simp only [Engine.absorb, hs.stats]
  rfl

/-- Counting a repetition keeps two engines the same, and they agree on whether a termination was
pending. -/
theorem SameState.countRetry {e e' : Engine} (h : e.SameState e') :
    e.countRetry.1.SameState e'.countRetry.1 ∧ e.countRetry.2 = e'.countRetry.2 := by
  refine ⟨⟨h.config, h.gap, h.stack, ?_, ?_⟩, ?_⟩
  · simp only [Engine.countRetry, h.guard]
  · simp only [Engine.countRetry, h.stats]
  · simp only [Engine.countRetry, h.guard]

theorem SameState.visible_eq {α : Type} {e e' : Engine} (h : e.SameState e')
    (output : Array Int32) (answer : Except MatchError α) :
    Result.visible ⟨e, output, answer⟩ = Result.visible ⟨e', output, answer⟩ := by
  simp only [Result.visible, h.stack, h.guard, h.stats]

section Limited

variable {m m' : Matcher} {subject : Subject} {start bound : Nat} (h h' : Handle)
  (hk : ∀ origin, (Task.ofMatcher m subject origin).Limits (Task.ofMatcher m' subject origin) bound)

include hk

variable (start) in
/-- The next attempts of engines in the same state. -/
theorem limits_nextAttempt {e e' : Engine} (hs : e.SameState e') (origin : CallOrigin)
    (output : Array Int32) :
    (e.nextAttempt m subject start origin output).Limits
      (e'.nextAttempt m' subject start origin output) bound := by
  refine ⟨hk origin, ?_, rfl, rfl⟩
  have hlength : (Task.ofMatcher m' subject origin).length =
      (Task.ofMatcher m subject origin).length := rfl
  simp only [nextAttempt, Task.enter, hs.beginAttempt.stack, hs.beginAttempt.guard, hlength,
    (hk origin).mode]

/-- **Within the limit a limited match is the unlimited one.** By induction on the number of
repetitions that are left: the engines go on from an attempt in the same state. -/
theorem attempts_limited {retries : Nat} {origin : CallOrigin} {e e' : Engine}
    {output : Array Int32} (hs : e.SameState e')
    (hwithin : ∀ a ∈ history h m subject start retries origin e output, a.BacktracksWithin bound) :
    (attempts h' m' subject start retries origin e' output).map Result.visible =
      (attempts h m subject start retries origin e output).map Result.visible := by
  induction retries using Nat.strong_induction_on generalizing origin e e' output with
  | _ retries ih =>
  have hlimits := limits_nextAttempt start hk hs origin output
  rw [history.eq_1] at hwithin
  obtain ⟨n, hending'⟩ := hlimits.ending_eq (hwithin _ List.mem_cons_self)
  rw [attempts_eq, attempts_eq, hending']
  cases hending : (e.nextAttempt m subject start origin output).ending with
  | none => rfl
  | some ending =>
    cases ending with
    | stray => exact congrArg some (hs.visible_eq output (.error .stray)).symm
    | done s t =>
      have habsorb := hs.beginAttempt.absorb h h' t n
      cases s with
      | retry =>
        obtain ⟨hcount, hhit⟩ := habsorb.countRetry
        simp only [Option.map_some, Ending.withBacktracks]
        rw [← hhit]
        split
        · exact congrArg some (hcount.visible_eq _ _).symm
        · next hgo =>
          cases retries with
          | zero => exact congrArg some (hcount.visible_eq _ _).symm
          | succ r =>
            refine ih r (Nat.lt_succ_self r) hcount fun a ha =>
              hwithin a (List.mem_cons_of_mem _ ?_)
            simp only [hending, if_neg hgo]
            exact ha
      | _ => exact congrArg some (habsorb.visible_eq _ _).symm

/-- **A match with an attempt that exceeds the limit ends with it.** The attempts before it stay
within the limit, since an attempt that is repeated ended at its first poll. -/
theorem attempts_of_exceedsAt {retries : Nat} {origin : CallOrigin} {e e' : Engine}
    {output : Array Int32} (hs : e.SameState e') {a : Attempt} {n : Nat} {t₀ t : Thread}
    (ha : a ∈ history h m subject start retries origin e output)
    (hexceeds : a.ExceedsAt bound n t₀ t) :
    ∃ a' ∈ history h' m' subject start retries origin e' output, a.Limits a' bound ∧
      ∃ r, attempts h' m' subject start retries origin e' output = some r ∧
        r.answer = statusOf (a'.task.limitStatus t).raw ∧ r.output = t.output ∧
        r.engine.stack = t.stack := by
  induction retries using Nat.strong_induction_on generalizing origin e e' output with
  | _ retries ih =>
  have hlimits := limits_nextAttempt start hk hs origin output
  rw [history.eq_1] at ha
  rcases List.mem_cons.mp ha with rfl | ha
  · obtain ⟨-, -, v, houtput, hstack, -, hending⟩ := hlimits.of_exceedsAt hexceeds
    refine ⟨_, ?_, hlimits, ?_⟩
    · rw [history.eq_1]
      exact List.mem_cons_self
    · rw [attempts_eq, hending]
      cases hstatus : (e'.nextAttempt m' subject start origin output).task.limitStatus t with
      | retry => exact absurd hstatus (Task.limitStatus_ne_retry t)
      | _ => exact ⟨_, rfl, rfl, houtput, hstack⟩
  · -- The attempts before it ask to be repeated at their first poll, limited or not.
    split at ha
    · next u hu =>
      have hnot := Attempt.not_begin_of_retry rfl hu
      obtain ⟨c, hending⟩ := hlimits.ending_eq fun t₁ i hb => absurd hb (hnot t₁)
      rw [hu] at hending
      have habsorb := hs.beginAttempt.absorb h h' u c
      obtain ⟨hcount, hhit⟩ := habsorb.countRetry
      simp only at ha
      split at ha
      · cases ha
      · next hgo =>
        cases retries with
        | zero => cases ha
        | succ r =>
          obtain ⟨a', ha', hl, hr⟩ := ih r (Nat.lt_succ_self r) hcount ha
          refine ⟨a', ?_, hl, ?_⟩
          · rw [history.eq_1, hending]
            simp only [Option.map_some, Ending.withBacktracks]
            rw [← hhit, if_neg hgo]
            exact List.mem_cons_of_mem _ ha'
          · rw [attempts_eq, hending]
            simp only [Option.map_some, Ending.withBacktracks]
            rw [← hhit, if_neg hgo]
            exact hr
    · cases ha

end Limited

/-- What a match answers after its limit was exceeded. -/
theorem answerOf_limitStatus {k : Task} {t : Thread}
    (h : k.matcher.options.globalMode.isGlobal = false → t.captures = 0) :
    answerOf (k.limitStatus t) =
      if k.matcher.options.canFallback then .error .fallback
      else if t.captures ≤ 4294967295 then .ok t.captures
      else .error (.unexpectedStatus t.captures) := by
  unfold Task.limitStatus
  split
  · rfl
  · split
    · split
      · next hfits => exact answerOf_ofCount hfits
      · next hlarge => exact answerOf_ofCount_of_lt (Nat.lt_of_not_le hlarge)
    · next hglobal =>
      rw [h (Bool.eq_false_iff.mpr hglobal)]
      rfl

section Match

variable {c : Config} {e : Engine} {h h' : Handle} {m m' : Matcher} {limit : UInt32}
  {fallback : Bool} (he : e.Reachable c) (hget : e.store.get? h = some m)
  (hget' : e.store.get? h' = some m') (hprogram : m'.program = m.program)
  (hgranted : e.permissions.isGranted .nativeExecution m'.object.source =
    e.permissions.isGranted .nativeExecution m.object.source)
  (hoptions : m'.options =
    { m.options with backtrackLimit := some limit, canFallback := fallback })

include he hget hget' hprogram hoptions

/-- Two live handles of a program pass the same checks. -/
theorem check_limited (hgranted : e.permissions.isGranted .nativeExecution m'.object.source =
    e.permissions.isGranted .nativeExecution m.object.source) (subject : Subject)
    (start n : Nat) :
    e.check h' subject start n = (e.check h subject start n).map fun _ => m' := by
  obtain ⟨comp, hs⟩ := (he.sane.compiled h m hget).shape
  obtain ⟨comp', hs'⟩ := (he.sane.compiled h' m' hget').shape
  have hmode : m'.object.mode = m.object.mode := by rw [hs.mode, hs'.mode, hoptions]
  have hsaved : m'.object.saved = m.object.saved := by rw [hs.saved, hs'.saved, hprogram]
  simp only [check, hget, hget', hgranted, hmode, hsaved]
  split
  · rfl
  · split
    · rfl
    · split
      · rfl
      · split <;> rfl

/-- Their attempts differ in the limit only. -/
theorem limits_ofMatcher (hnone : m.options.backtrackLimit = none) (subject : Subject)
    (origin : CallOrigin) :
    (Task.ofMatcher m subject origin).Limits (Task.ofMatcher m' subject origin)
      (backtrackBound limit) := by
  have hm := he.sane.compiled h m hget
  have hm' := he.sane.compiled h' m' hget'
  rw [hprogram] at hm'
  have hcode := hm.sameCode hm' (by rw [hoptions]) subject origin origin
  refine ⟨⟨hcode, ?_⟩, rfl, hnone, ⟨limit, ?_, rfl⟩, ?_⟩
  · change m.options.globalMode = m'.options.globalMode
    rw [hoptions]
  · change m'.options.backtrackLimit = some limit
    rw [hoptions]
  · exact congrArg nativePointer hcode.registers

/-- **A match with a limit that is exceeded** ends there, having done what the match without it does
up to then. -/
theorem exec_of_exceedsAt (hgranted : e.permissions.isGranted .nativeExecution m'.object.source =
    e.permissions.isGranted .nativeExecution m.object.source)
    (hnone : m.options.backtrackLimit = none) {subject : Subject} {start : Nat}
    {output : Array Int32} (hcheck : e.check h subject start output.size = .ok m) {a : Attempt}
    (ha : a ∈ e.tries h m subject start output) {n : Nat} {t₀ t : Thread}
    (hexceeds : a.ExceedsAt (backtrackBound limit) n t₀ t) :
    (∃ a' ∈ e.tries h' m' subject start output, a'.begin = .next t₀ ∧
      (∀ i ≤ n, ∀ u, a.task.steps i t₀ = .next u →
        a'.task.steps i t₀ = .next (u.withBacktracks (a.task.backtrackCount i t₀))) ∧
      ∃ s v, a'.task.steps (n + 1) t₀ = .done s v) ∧
    (m.options.globalMode.isGlobal = false → t.captures = 0) ∧
    ∃ r, e.exec h' subject start output = some r ∧
      r.answer = (if fallback then .error .fallback
        else if t.captures ≤ 4294967295 then .ok t.captures
        else .error (.unexpectedStatus t.captures)) ∧
      r.output = t.output ∧ r.engine.stack = t.stack := by
  have hcheck' := check_limited he hget hget' hprogram hoptions hgranted subject start output.size
  have hk := limits_ofMatcher he hget hget' hprogram hoptions hnone subject
  rw [hcheck] at hcheck'
  obtain ⟨a', ha', hlimits, r, hr, hanswer, houtput, hstack⟩ :=
    attempts_of_exceedsAt h h' hk (.refl e) ha hexceeds
  obtain ⟨hbegin, hagree, v, -, -, hlast, -⟩ := hlimits.of_exceedsAt hexceeds
  have hcaptures : m.options.globalMode.isGlobal = false → t.captures = 0 := by
    intro hglobal
    have hstart : t₀.captures = 0 := by
      obtain ⟨e', origin', output', -, rfl⟩ := exists_kept_of_mem_history ha
      exact (hlimits.of_begin hexceeds.begins).2.2
    rw [← matcher_of_mem_tries ha] at hglobal
    exact Task.steps_induct (P := fun u => u.captures = 0)
      (fun u v hu hs => (Task.captures_of_step hglobal hs).trans hu) hstart hexceeds.steps
  refine ⟨⟨a', ha', hbegin, hagree, _, v, hlast⟩, hcaptures, r.counted, ?_, ?_, houtput, hstack⟩
  · rw [exec_of_check hcheck', hr]
    rfl
  · have hm' := matcher_of_mem_tries ha'
    have hsame : m'.options.globalMode = m.options.globalMode := by rw [hoptions]
    have hcan : m'.options.canFallback = fallback := by rw [hoptions]
    change r.answer.bind countOf = _
    rw [hanswer]
    refine (answerOf_limitStatus ?_).trans ?_
    · rwa [hm', hsame]
    · rw [hm', hcan]

end Match

/-- **What a limit on backtracks does to a match**, told by the match of the same program
without it. A request that is refused is refused either way. Otherwise every attempt of the
unlimited match stays within the bound, or one exceeds it. If they all stay within it, the two
matches have the same answer, the same output, the same stack and the same counters, or both run
for ever. If one exceeds it, the limited match makes the same steps up to the backtrack beyond
the bound and ends there: with a fallback if that was asked for, and otherwise with the number
of capture sets stored, which is zero outside a global mode – unless that number does not fit the
32 bits of a status, and then the answer is that the status is none. -/
theorem exec_backtrackLimit {c : Config} {e : Engine} {h h' : Handle} {m m' : Matcher}
    {limit : UInt32} {fallback : Bool} (he : e.Reachable c) (hget : e.store.get? h = some m)
    (hget' : e.store.get? h' = some m') (hprogram : m'.program = m.program)
    (hgranted : e.permissions.isGranted .nativeExecution m'.object.source =
      e.permissions.isGranted .nativeExecution m.object.source)
    (hnone : m.options.backtrackLimit = none)
    (hoptions : m'.options =
      { m.options with backtrackLimit := some limit, canFallback := fallback })
    (subject : Subject) (start : Nat) (output : Array Int32) :
    (∀ err, e.check h subject start output.size = .error err →
      e.exec h' subject start output = e.exec h subject start output) ∧
    (e.check h subject start output.size = .ok m →
      ((∀ a ∈ e.tries h m subject start output, a.BacktracksWithin (backtrackBound limit)) ∨
        ∃ a ∈ e.tries h m subject start output, ∃ n t₀ t,
          a.ExceedsAt (backtrackBound limit) n t₀ t) ∧
      ((∀ a ∈ e.tries h m subject start output, a.BacktracksWithin (backtrackBound limit)) →
        (e.exec h' subject start output).map Result.visible =
          (e.exec h subject start output).map Result.visible) ∧
      ∀ a ∈ e.tries h m subject start output, ∀ n t₀ t,
        a.ExceedsAt (backtrackBound limit) n t₀ t →
        (∃ a' ∈ e.tries h' m' subject start output, a'.begin = .next t₀ ∧
          (∀ i ≤ n, ∀ u, a.task.steps i t₀ = .next u →
            a'.task.steps i t₀ = .next (u.withBacktracks (a.task.backtrackCount i t₀))) ∧
          ∃ s v, a'.task.steps (n + 1) t₀ = .done s v) ∧
        (m.options.globalMode.isGlobal = false → t.captures = 0) ∧
        ∃ r, e.exec h' subject start output = some r ∧
          r.answer = (if fallback then .error .fallback
            else if t.captures ≤ 4294967295 then .ok t.captures
            else .error (.unexpectedStatus t.captures)) ∧
          r.output = t.output ∧ r.engine.stack = t.stack) := by
  have hcheck' := check_limited he hget hget' hprogram hoptions hgranted subject start output.size
  have hk := limits_ofMatcher he hget hget' hprogram hoptions hnone subject
  refine ⟨fun err herr => ?_, fun hcheck => ⟨?_, fun hwithin => ?_, ?_⟩⟩
  · rw [herr] at hcheck'
    rw [exec, exec, herr, hcheck']
    rfl
  · by_cases hall : ∀ a ∈ e.tries h m subject start output,
        a.BacktracksWithin (backtrackBound limit)
    · exact Or.inl hall
    · simp only [not_forall] at hall
      obtain ⟨a, ha, hnot⟩ := hall
      exact Or.inr ⟨a, ha, Attempt.exists_exceedsAt hnot⟩
  · rw [hcheck] at hcheck'
    have hshown := attempts_limited h h' hk (.refl e) hwithin
    have hcounted : Result.visible ∘ Result.counted =
        (fun v => (v.1.bind countOf, v.2)) ∘ Result.visible := rfl
    rw [exec_of_check hcheck, exec_of_check hcheck', Option.map_map, Option.map_map, hcounted,
      ← Option.map_map, ← Option.map_map, hshown]
  · exact fun a ha n t₀ t =>
      exec_of_exceedsAt he hget hget' hprogram hoptions hgranted hnone hcheck ha

end Engine

/-! ### A limit that is exceeded at once -/

namespace Sample

/-- Backtracks, with nothing to go back to. -/
def quitter : Program where
  opcodes := #[.backtrack]
  labels := 0
  saved := 0

/-- Its options, with and without a limit that allows no backtrack. -/
def quitterOptions (limited : Bool) : Options :=
  if limited then { mode := .latin1, backtrackLimit := some 0, canFallback := true }
  else { mode := .latin1 }

theorem exists_compile_quitter (limited : Bool) :
    ∃ m, quitter.compile (quitterOptions limited) "" Sample.heap = .ok m := by
  have hmode : (quitterOptions limited).mode = .latin1 := by cases limited <;> rfl
  have hreports : (quitter.reports (quitterOptions limited)).head? = none := by
    cases limited <;> decide
  obtain ⟨m, hm, -⟩ := Program.exists_compile (p := quitter) (n := 10)
    (by rw [hmode]; decide +kernel) (by decide) (by simp [quitter, Opcode.InRange]) hreports ""
    Sample.heap
  exact ⟨m, hm⟩

/-- An engine as it is made by default, with a program compiled twice. -/
theorem exists_engine_pair {p : Program} {o o' : Options} {heap : Nat → UInt64} {m m' : Matcher}
    (hm : p.compile o "" heap = .ok m) (hm' : p.compile o' "" heap = .ok m') (hne : o ≠ o') :
    ∃ e : Engine, e.Reachable {} ∧ e.gap = 16 ∧ e.guard = {} ∧ e.stack = freshStack ∧
      e.permissions = {} ∧ e.store.get? ⟨0⟩ = some m ∧ e.store.get? ⟨1⟩ = some m' := by
  have hw : Config.Words {} := by constructor <;> decide
  obtain ⟨e₀, hnew⟩ : ∃ e, Engine.new {} 16 = .ok (.ok e) := ⟨_, rfl⟩
  have hmade : e₀.guard = {} ∧ e₀.stack = freshStack := by
    obtain rfl := Except.ok.inj (Except.ok.inj hnew)
    exact ⟨rfl, rfl⟩
  obtain ⟨e, he, hget, hget'⟩ := Engine.exists_stocked_pair hw (by decide) hnew hm hm' hne
  exact ⟨e, he.reachable, he.gap.trans (Engine.gap_of_new hnew), he.guard.trans hmade.1,
    he.stack.trans hmade.2, he.permissions.trans (Engine.empty_of_new hnew).2, hget, hget'⟩

/-- The first call of a program on a new engine, where the program has also been compiled with a
limit, and the one attempt the call makes. -/
structure LimitedTry (p : Program) (o : Options) (limit : UInt32) (fallback : Bool)
    (subject : Subject) (output : Array Int32) (e : Engine) (m m' : Matcher) (a : Attempt) :
    Prop where
  /-- The engine is new but for the program. -/
  reachable : e.Reachable {}
  /-- The program without the limit is there. -/
  get : e.store.get? ⟨0⟩ = some m
  /-- The one with the limit is there too. -/
  limited : e.store.get? ⟨1⟩ = some m'
  /-- They are the same program. -/
  program : m.program = p ∧ m'.program = p
  /-- They were compiled with options that differ in the limit. -/
  options : m.options = o ∧
    m'.options = { o with backtrackLimit := some limit, canFallback := fallback }
  /-- Everything may be run. -/
  granted : ∀ source, e.permissions.isGranted .nativeExecution source = true
  /-- The call is in order. -/
  check : e.check ⟨0⟩ subject 0 output.size = .ok m
  /-- The attempt is made. -/
  mem : a ∈ e.tries ⟨0⟩ m subject 0 output
  /-- It runs the program without the limit. -/
  task : a.task = Task.ofMatcher m subject .direct
  /-- It starts on a new stack. -/
  entry : ∃ guard, a.entry = a.task.enter 0 output freshStack guard
  /-- It tries from the start on. -/
  begins : a.begin = .next (a.task.afresh 0 a.entry)
  /-- No poll gets in its way. -/
  settled : a.task.Settled (a.task.afresh 0 a.entry)

/-- A new engine in which both programs are compiled, the unlimited one first, tries the unlimited
one from the start of the subject. This is where the samples of this module begin. -/
theorem exists_limitedTry {p : Program} {o : Options} {heap : Nat → UInt64} {m m' : Matcher}
    (limit : UInt32) (fallback : Bool) (subject : Subject) (output : Array Int32)
    (hm : p.compile o "" heap = .ok m)
    (hm' : p.compile { o with backtrackLimit := some limit, canFallback := fallback } "" heap =
      .ok m')
    (hnone : o.backtrackLimit = none) (hmode : subject.mode = o.mode)
    (hbytes : subject.byteSize ≤ Memory.maxBlock) (hsaved : p.saved ≤ output.size)
    (hroom : nativeLimit 16 ({} : Config).nativeBudget < nativePointer p.registerCount) :
    ∃ e a, LimitedTry p o limit fallback subject output e m m' a := by
  obtain ⟨comp, hs⟩ := Compiled.shape_of_compile hm
  obtain ⟨comp', hs'⟩ := Compiled.shape_of_compile hm'
  have hne : o ≠ { o with backtrackLimit := some limit, canFallback := fallback } := by
    intro hcon
    have hlimit := congrArg Options.backtrackLimit hcon
    rw [hnone] at hlimit
    cases hlimit
  obtain ⟨e, he, hgap, hguard, hstack, hperm, hget, hget'⟩ := exists_engine_pair hm hm' hne
  have hgranted : ∀ source, e.permissions.isGranted .nativeExecution source = true := by
    intro source
    rw [hperm]
    rfl
  have hmodes : subject.mode = m.options.mode := by rw [hs.options, hmode]
  have hcheck : e.check ⟨0⟩ subject 0 output.size = .ok m :=
    Engine.check_eq_ok he.sane hget (hgranted _) hmodes (Nat.zero_le _) (by rwa [hs.program])
  have hroom : nativeLimit e.gap e.config.nativeBudget < nativePointer m.object.registers := by
    rw [hgap, he.sane.config, (Compiled.fresh hm).registers_eq]
    exact hroom
  have hquiet : e.guard.isRaised = false := by
    rw [hguard]
    rfl
  obtain ⟨hbegin, hset⟩ :=
    Engine.begin_of_room output hmodes hbytes (Nat.zero_le _) hquiet hroom
  refine ⟨e, e.nextAttempt m subject 0 .direct output, he, hget, hget',
    ⟨hs.program, hs'.program⟩, ⟨hs.options, hs'.options⟩, hgranted, hcheck, ?_, rfl,
    ⟨e.beginAttempt.guard, ?_⟩, hbegin, hset⟩
  · rw [Engine.tries, Engine.history.eq_1]
    exact List.mem_cons_self
  · rw [← hstack]
    rfl

end Sample

/-- Without a limit the program fails at its first backtrack; with a limit that allows none it
falls back there. -/
theorem Engine.exec_backtrackLimit_quitter :
    ∃ (e : Engine) (m m' : Matcher), e.Reachable {} ∧ e.store.get? ⟨0⟩ = some m ∧
      e.store.get? ⟨1⟩ = some m' ∧ m.program = Sample.quitter ∧ m'.program = Sample.quitter ∧
      m.options.backtrackLimit = none ∧ m'.options =
        { m.options with backtrackLimit := some 0, canFallback := true } ∧
      (∃ a ∈ e.tries ⟨0⟩ m (.latin1 #[]) 0 #[], ∃ n t₀ t,
        a.ExceedsAt (backtrackBound 0) n t₀ t) ∧
      ∃ r, e.exec ⟨1⟩ (.latin1 #[]) 0 #[] = some r ∧ r.answer = .error .fallback := by
  obtain ⟨m, hm⟩ := Sample.exists_compile_quitter false
  obtain ⟨m', hm'⟩ := Sample.exists_compile_quitter true
  obtain ⟨e, a, h⟩ := Sample.exists_limitedTry 0 true (.latin1 #[]) #[] hm hm' rfl rfl (by decide)
    (Nat.le_refl 0) (by decide)
  have hnone : m.options.backtrackLimit = none := by
    rw [h.options.1]
    rfl
  have hoptions : m'.options =
      { m.options with backtrackLimit := some 0, canFallback := true } := by
    rw [h.options.1, h.options.2]
  -- The first step of the first attempt backtracks.
  have hexceeds : a.ExceedsAt (backtrackBound 0) 0 (a.task.afresh 0 a.entry)
      (a.task.afresh 0 a.entry) := by
    refine ⟨h.begins, rfl, rfl, (a.task.afresh 0 a.entry).depth, ?_⟩
    have hop : a.task.opcode? (a.task.afresh 0 a.entry) = some .backtrack := by
      rw [h.task]
      change m.program.opcodes[0]? = _
      rw [h.program.1]
      rfl
    rw [Task.move, hop]
    rfl
  obtain ⟨-, -, r, hr, hanswer, -⟩ := (exec_backtrackLimit h.reachable h.get h.limited
    (h.program.2.trans h.program.1.symm) ((h.granted _).trans (h.granted _).symm) hnone hoptions
    _ _ _).2 h.check |>.2.2 _ h.mem _ _ _ hexceeds
  exact ⟨e, m, m', h.reachable, h.get, h.limited, h.program.1, h.program.2, hnone, hoptions,
    ⟨a, h.mem, _, _, _, hexceeds⟩, r, hr, hanswer⟩

/-! ### A limit that lets too many matches through -/

namespace Task

variable {k : Task} {t u v : Thread}

/-- The run gets from one thread to the other, and backtracks so often on the way. -/
def Reaches (k : Task) (count : Nat) (t u : Thread) : Prop :=
  ∃ n, k.steps n t = .next u ∧ k.backtrackCount n t = count

namespace Reaches

variable {b c : Nat}

theorem refl (t : Thread) : k.Reaches 0 t t := ⟨0, rfl, rfl⟩

/-- Stretches of a run follow one another, and their backtracks add up. -/
theorem trans (h : k.Reaches b t u) (h' : k.Reaches c u v) : k.Reaches (b + c) t v := by
  obtain ⟨m, hm, rfl⟩ := h
  obtain ⟨n, hn, rfl⟩ := h'
  refine ⟨m + n, ?_, backtrackCount_add hm⟩
  rw [steps_add, hm]
  exact hn

/-- One step, which backtracks if its move does. -/
theorem of_move {m : Move} (hm : k.move t = m) (hu : k.act m t = .next u) :
    k.Reaches m.isBacktrack.toNat t u := by
  refine ⟨1, ?_, ?_⟩
  · rw [steps, step_eq_act, hm, hu]
    rfl
  · change 0 + (k.move t).isBacktrack.toNat = _
    rw [Nat.zero_add, hm]

/-- Once polls no longer get in the way they never do in the rest of the run. -/
theorem settled (h : k.Reaches b t u) (ht : k.Settled t) : k.Settled u := by
  obtain ⟨n, hn, -⟩ := h
  exact steps_induct (P := k.Settled) (fun _ _ h hs => h.step hs) ht hn

end Reaches

end Task

namespace Sample

/-- Reports matches at the end of a text of two characters, one before it, and at its start. Then
it backtracks once and reports them again. -/
def drummer : Program where
  opcodes := #[.onPlace (.notAtStart 0) (some ⟨0⟩), .pushBacktrack ⟨1⟩, .backtrack, .bind ⟨1⟩,
    .advance 3, .bind ⟨0⟩, .advance (-1), .succeed]
  labels := 2
  saved := 2

/-- Options for all matches that never look for empty ones. -/
def drummerOptions : Options := { mode := .latin1, globalMode := .noZeroLengthCheck }

/-- The task of `drummer` on a text of two characters. -/
structure Drumming (k : Task) : Prop where
  /-- The program. -/
  program : k.matcher.program = drummer
  /-- The labels are where they are in the program. -/
  places : k.places = drummer.places
  /-- The options. -/
  options : k.matcher.options = drummerOptions
  /-- The text. -/
  subject : k.subject = .latin1 #[97, 98]
  /-- The label that is pushed leads back to where it is bound. -/
  resumes : ∃ offset, k.matcher.offsets[3]? = some offset ∧
    k.opcodeAt? (UInt32.ofNat offset) = some 3

/-- At the first opcode, at a character, with so many matches reported and so much of the output
left. -/
structure Begins (k : Task) (t : Thread) (i count left : Nat) : Prop where
  /-- It is about to take the first opcode. -/
  pc : t.pc = 0
  /-- It is at the character. -/
  pos : t.pos = k.position i
  /-- The stack is empty. -/
  depth : t.depth = 0
  /-- It is of the size it was made with. -/
  capacity : t.stack.capacity = 1024
  /-- It has room for unchecked pushes. -/
  slack : t.stack.slack = 32
  /-- So many matches are reported. -/
  captures : t.captures = count
  /-- So many registers are left. -/
  remaining : t.remaining = left
  /-- No poll gets in the way. -/
  settled : k.Settled t

/-- About to backtrack at the start of the text, with so many matches reported and so much of the
output left. -/
structure Poised (k : Task) (t : Thread) (count left : Nat) : Prop where
  /-- It is about to backtrack. -/
  pc : t.pc = 2
  /-- It is at the start. -/
  pos : t.pos = k.position 0
  /-- There is one entry on the stack. -/
  depth : t.depth = 4
  /-- It leads to where the label is bound. -/
  entry : ∃ offset, t.stack.read 4 = some offset ∧ k.opcodeAt? offset = some 3
  /-- The stack is of the size it was made with. -/
  capacity : t.stack.capacity = 1024
  /-- It has room for unchecked pushes. -/
  slack : t.stack.slack = 32
  /-- So many matches are reported. -/
  captures : t.captures = count
  /-- So many registers are left. -/
  remaining : t.remaining = left
  /-- No poll gets in the way. -/
  settled : k.Settled t

namespace Drumming

variable {k : Task} (hk : Drumming k) {t : Thread} {i count left : Nat}

include hk

theorem move {pc : Nat} (op : Opcode) (hpc : t.pc = pc) (hop : drummer.opcodes[pc]? = some op) :
    k.move t = k.opcodeMove t.peek op t := by
  rw [Task.move, Task.opcode?, hk.program, hpc, hop]

theorem place? : k.place? ⟨0⟩ = some 5 ∧ k.place? ⟨1⟩ = some 3 := by
  rw [Task.place?, Task.place?, hk.places]
  decide +kernel

theorem mode : k.mode = .latin1 := congrArg Options.mode hk.options

theorem position (i : Nat) : k.position i = Int64.ofNat i - 2 := by
  simp only [Task.position, Task.length, hk.mode, hk.subject, Mode.charSize, Nat.mul_one]
  rfl

theorem bytes (n : Int32) : k.bytes n = Int64.ofInt n.toInt := by
  simp [Task.bytes, hk.mode, Mode.charSize]

theorem unit : k.unit = 1 := by
  simp only [Task.unit, hk.mode, Mode.charSize]
  rfl

theorem before : k.before = -3 := by
  simp only [Task.before, Task.length, hk.unit, hk.subject]
  decide

theorem saved : k.matcher.program.saved = 2 := congrArg Program.saved hk.program

/-- Wherever it stands, it steps back by one character, reports that, and begins anew. The three
places of a round have this in common, so it is followed here for all of them. -/
theorem reaches_report (left : Nat) (hpc : t.pc = 5) (hpos : t.pos = k.position (i + 1))
    (hi : i ≤ 2) (hcapacity : t.stack.capacity = 1024) (hslack : t.stack.slack = 32)
    (hcaptures : t.captures = count) (hremaining : t.remaining = left + 2) (hleft : 2 ≤ left)
    (hset : k.Settled t) :
    ∃ u, k.Reaches 0 t u ∧ Begins k u i (count + 1) left := by
  let t₁ := t.advance
  let t₂ : Thread := { t₁ with pos := t₁.pos + k.bytes (-1), pc := t₁.pc + 1 }
  have hpc₁ : t₁.pc = 6 := congrArg (· + 1) hpc
  have hpc₂ : t₂.pc = 7 := congrArg (· + 1) hpc₁
  have hpos₂ : t₂.pos = k.position i := by
    change t.pos + k.bytes (-1) = _
    rw [hpos, hk.bytes, hk.position, hk.position]
    have hi : i = 0 ∨ i = 1 ∨ i = 2 := by omega
    rcases hi with rfl | rfl | rfl <;> decide
  have hsubject : k.subject.size = 2 := by
    rw [hk.subject]
    rfl
  have hmode : k.subject.mode = k.mode := by
    rw [hk.subject, hk.mode]
    rfl
  have hbytes : k.subject.byteSize ≤ Memory.maxBlock := by
    rw [hk.subject]
    decide
  have hsucceed : k.succeed t₂ = .next (k.afresh i (k.turn t₂)) := by
    rw [Task.succeed_of_unchecked (congrArg Options.globalMode hk.options)
      (by rw [hk.saved]; change 4 ≤ t.remaining; omega)]
    exact Task.restart_position hmode hbytes (by omega) hpos₂
  have h₀ : k.Reaches 0 t t₁ := .of_move (hk.move (.bind ⟨0⟩) hpc rfl) rfl
  have h₁ : k.Reaches 0 t₁ t₂ := .of_move (hk.move (.advance (-1)) hpc₁ rfl) rfl
  have h₂ : k.Reaches 0 t₂ (k.afresh i (k.turn t₂)) := .of_move (hk.move .succeed hpc₂ rfl) hsucceed
  have h := (h₀.trans h₁).trans h₂
  refine ⟨_, h, rfl, rfl, rfl, hcapacity, hslack, ?_, ?_, h.settled hset⟩
  · exact congrArg (· + 1) hcaptures
  · change t.remaining - k.matcher.program.saved = left
    rw [hk.saved]
    omega

/-- Behind the start of the text that is all it does. -/
theorem reaches_before (left : Nat) (h : Begins k t (i + 1) count (left + 2)) (hi : i < 2)
    (hleft : 2 ≤ left) :
    ∃ u, k.Reaches 0 t u ∧ Begins k u i (count + 1) left := by
  let t₁ : Thread := { t with pc := 5 }
  have hholds : k.placeHolds t (.notAtStart 0) = true := by
    simp only [Task.placeHolds, h.pos, hk.position, hk.bytes, hk.unit, hk.before]
    have hi : i = 0 ∨ i = 1 := by omega
    rcases hi with rfl | rfl <;> decide
  have hmove : k.move t = .go { t.cursor with pc := 5 } := by
    rw [hk.move (.onPlace (.notAtStart 0) (some ⟨0⟩)) h.pc rfl, Task.opcodeMove,
      Task.branchMoveIf, hholds, if_pos rfl, Task.branchMove, hk.place?.1]
  have h₀ : k.Reaches 0 t t₁ := .of_move hmove rfl
  obtain ⟨u, hu, hbegins⟩ := hk.reaches_report left (t := t₁) rfl h.pos (by omega) h.capacity
    h.slack h.captures h.remaining hleft (h₀.settled h.settled)
  exact ⟨u, h₀.trans hu, hbegins⟩

/-- At the start it first makes a resumption point, and is about to backtrack to it. The stack has
room for it without growing, since it was empty. -/
theorem reaches_backtrack (h : Begins k t 0 count left) :
    ∃ u, k.Reaches 0 t u ∧ Poised k u count left := by
  obtain ⟨offset, hoffset, hresume⟩ := hk.resumes
  let t₁ := t.advance
  have hholds : k.placeHolds t (.notAtStart 0) = false := by
    simp only [Task.placeHolds, h.pos, hk.position, hk.bytes, hk.unit, hk.before]
    decide
  have hmove : k.move t = .go t₁.cursor := by
    rw [hk.move (.onPlace (.notAtStart 0) (some ⟨0⟩)) h.pc rfl, Task.opcodeMove,
      Task.branchMoveIf, hholds]
    rfl
  have hpc₁ : t₁.pc = 1 := congrArg (· + 1) h.pc
  have hmove₁ : k.move t₁ = .push (UInt32.ofNat offset) true := by
    rw [hk.move (.pushBacktrack ⟨1⟩) hpc₁ rfl, Task.opcodeMove, Task.pushMove, hk.place?.2]
    simp only [hoffset]
  have hdepth : t₁.depth + 4 = ((4 * (0 + 1) : Nat) : Int) := by
    change t.depth + 4 = _
    rw [h.depth]
    rfl
  have hsize : t.stack.size = 4096 := by rw [Stack.size, h.capacity]
  have hinside : t.stack.inside ((4 * (0 + 1) : Nat) : Int) = true := by
    simp only [Stack.inside, hsize]
    decide
  have hwrite := t.stack.write_aligned (UInt32.ofNat offset) hinside
  let stack : Stack := { t.stack with cells := Stack.setCell t.stack.cells 0 (UInt32.ofNat offset) }
  let t₂ : Thread := { t₁ with stack := stack, depth := t₁.depth + 4, pc := t₁.pc + 1 }
  have hroom : stack.needsGrowth (t₁.depth + 4) = false := by
    have hsize' : stack.size = 4096 := hsize
    have hslack : stack.slack = 32 := h.slack
    rw [hdepth, Stack.needsGrowth, Stack.limit, hsize', hslack]
    decide
  have hpush : t₁.push (UInt32.ofNat offset) true = .next t₂ := by
    have hwrite' : t₁.stack.write (t₁.depth + 4) (UInt32.ofNat offset) = some stack := by
      rw [hdepth]
      exact hwrite
    simp only [Thread.push, hwrite', hroom, Bool.and_false, Bool.false_eq_true, if_false]
    rfl
  have h₀ : k.Reaches 0 t t₁ := .of_move hmove rfl
  have h₁ : k.Reaches 0 t₁ t₂ := .of_move hmove₁ hpush
  have hreach := h₀.trans h₁
  exact ⟨t₂, hreach, congrArg (· + 1) hpc₁, h.pos, hdepth,
    ⟨_, Stack.read_write_self hwrite, hresume⟩, h.capacity, h.slack, h.captures, h.remaining,
    hreach.settled h.settled⟩

/-- It backtracks once in three matches. One round: the backtrack leads behind the end of the text,
and the three matches lead back to its start. -/
theorem reaches_poised (left : Nat) (h : Poised k t count (left + 6)) (hleft : 2 ≤ left) :
    ∃ u, k.Reaches 1 t u ∧ Poised k u (count + 3) left := by
  obtain ⟨offset, hread, hresume⟩ := h.entry
  let t₁ : Thread := { t.afterPolls 1 with depth := t.depth - 4, pc := 3 }
  let t₂ := t₁.advance
  let t₃ : Thread := { t₂ with pos := t₂.pos + k.bytes 3, pc := t₂.pc + 1 }
  have hnone : k.matcher.options.backtrackLimit = none := congrArg Options.backtrackLimit hk.options
  have hnotempty : t.stack.isEmptyAt t.depth = false := by
    cases hempty : t.stack.isEmptyAt t.depth with
    | false => rfl
    | true =>
      rw [← h.depth, Stack.read_eq_none_of_isEmptyAt hempty] at hread
      cases hread
  have hbacktrack : k.backtrack t = .next t₁ := by
    have hread' : (t.afterPolls 1).stack.read (t.afterPolls 1).depth = some offset := by
      rw [← hread, ← h.depth]
      rfl
    have hnotempty' : (t.afterPolls 1).stack.isEmptyAt (t.afterPolls 1).depth = false := hnotempty
    rw [Task.backtrack, Task.poll_of_settled h.settled]
    simp only [Outcome.andThen, Task.countBacktrack, hnone, Task.resume, hnotempty', hread',
      hresume, Bool.false_eq_true, if_false]
    rfl
  have h₀ : k.Reaches 1 t t₁ := .of_move (hk.move .backtrack h.pc rfl) hbacktrack
  have hpc₁ : t₁.pc = 3 := rfl
  have hpc₂ : t₂.pc = 4 := rfl
  have h₁ : k.Reaches 0 t₁ t₂ := .of_move (hk.move (.bind ⟨1⟩) hpc₁ rfl) rfl
  have h₂ : k.Reaches 0 t₂ t₃ := .of_move (hk.move (.advance 3) hpc₂ rfl) rfl
  have hpos₃ : t₃.pos = k.position (2 + 1) := by
    change t.pos + k.bytes 3 = _
    rw [h.pos, hk.bytes, hk.position, hk.position]
    decide
  have hreach := (h₀.trans h₁).trans h₂
  -- The end of the text, the character before it, and the start.
  obtain ⟨u, hu, hbegins⟩ := hk.reaches_report (left + 4) (i := 2) (t := t₃) rfl hpos₃
    (by omega) h.capacity h.slack h.captures h.remaining (by omega) (hreach.settled h.settled)
  obtain ⟨v, hv, hbegins⟩ := hk.reaches_before (left + 2) (i := 1) hbegins (by omega)
    (by omega)
  obtain ⟨w, hw, hbegins⟩ := hk.reaches_before left (i := 0) hbegins (by omega) hleft
  obtain ⟨x, hx, hpoised⟩ := hk.reaches_backtrack hbegins
  exact ⟨x, (((hreach.trans hu).trans hv).trans hw).trans hx, hpoised⟩

/-- Rounds of three matches and one backtrack follow one another for as long as the output lasts:
the induction that takes the count past any bound, at the price of six registers a round. -/
theorem reaches_poised_again (n left : Nat) (h : Poised k t count (left + 6 * n))
    (hleft : 2 ≤ left) :
    ∃ u, k.Reaches n t u ∧ Poised k u (count + 3 * n) left := by
  induction n generalizing t count with
  | zero => exact ⟨t, .refl t, h⟩
  | succ n ih =>
    obtain ⟨u, hu, hpoised⟩ := hk.reaches_poised (left + 6 * n) h (by omega)
    obtain ⟨v, hv, hpoised'⟩ := ih hpoised
    have hcount : count + 3 + 3 * n = count + 3 * (n + 1) := by omega
    rw [hcount] at hpoised'
    have hn : 1 + n = n + 1 := Nat.add_comm 1 n
    exact ⟨v, hn ▸ hu.trans hv, hpoised'⟩

end Drumming

/-- The options with a limit that is as large as a limit can be. -/
def limitedDrummerOptions : Options :=
  { drummerOptions with backtrackLimit := some 2147483647, canFallback := false }

/-- It compiles with any options about which there is nothing to report, with a limit or without,
and its code is short enough for offsets of 31 bits. -/
theorem exists_compile_drummer {o : Options} (hmode : o.mode = .latin1)
    (hreports : (drummer.reports o).head? = none) :
    ∃ m, drummer.compile o "" Sample.heap = .ok m ∧ m.object.buffer.size < 2 ^ 31 := by
  obtain ⟨m, hm, -, hbuffer⟩ := Program.exists_compile (p := drummer) (n := 67)
    (by rw [hmode]; decide +kernel) (by decide) (by simp [drummer, Opcode.InRange, InReach])
    hreports "" Sample.heap
  exact ⟨m, hm, hbuffer⟩

/-- Compiled as it is meant to be, the program has its code offsets in order, so that the resumption
point it pushes leads back to the opcode that binds the label. -/
theorem drumming_of_compile {m : Matcher}
    (hm : drummer.compile drummerOptions "" Sample.heap = .ok m)
    (hbuffer : m.object.buffer.size < 2 ^ 31) (origin : CallOrigin) :
    Drumming (Task.ofMatcher m (.latin1 #[97, 98]) origin) := by
  obtain ⟨comp, hs⟩ := Compiled.shape_of_compile hm
  have hmax : m.object.buffer.size ≤ Memory.maxBlock :=
    Nat.le_trans (Nat.le_of_lt hbuffer) (by decide)
  have hloads : ∀ op ∈ drummer.opcodes, op.LoadsOne := by simp [drummer, Opcode.LoadsOne]
  have hsize : m.offsets.size = 8 := (Compiled.fresh hm).size_offsets hmax hloads
  have hoffset : m.offsets[3]? = some m.offsets[3] := Array.getElem?_eq_getElem _
  have hland := (Compiled.fresh hm).opcodeAt?_offset hmax hloads (.latin1 #[97, 98]) origin hoffset
  have hthree : drummer.landing 3 = 3 := by decide +kernel
  rw [hthree] at hland
  exact ⟨hs.program, congrArg Program.places hs.program, hs.options, rfl, _, hoffset, hland⟩

end Sample

/-- **A limit that is exceeded too late.** Without a limit `drummer` goes on as long as there is
output left. With the largest limit there is it ends at its next backtrack, and has reported three
matches for each one before. So many are no status, and the answer is not their number. -/
theorem Engine.unexpectedStatus_of_drummer :
    ∃ (e : Engine) (m m' : Matcher), e.Reachable {} ∧ e.store.get? ⟨0⟩ = some m ∧
      e.store.get? ⟨1⟩ = some m' ∧ m.program = Sample.drummer ∧ m'.program = Sample.drummer ∧
      m.options.backtrackLimit = none ∧ m'.options =
        { m.options with backtrackLimit := some 2147483647, canFallback := false } ∧
      (∃ a ∈ e.tries ⟨0⟩ m (.latin1 #[97, 98]) 0 (Array.replicate (2 ^ 45) (-7)), ∃ n t₀ t,
        a.ExceedsAt (backtrackBound 2147483647) n t₀ t ∧ t.captures = 6442450941) ∧
      ∃ r, e.exec ⟨1⟩ (.latin1 #[97, 98]) 0 (Array.replicate (2 ^ 45) (-7)) = some r ∧
        r.answer = .error (.unexpectedStatus 6442450941) := by
  obtain ⟨m, hm, hbuffer⟩ := Sample.exists_compile_drummer (o := Sample.drummerOptions) rfl
    (by decide)
  obtain ⟨m', hm', -⟩ := Sample.exists_compile_drummer (o := Sample.limitedDrummerOptions) rfl
    (by decide)
  let output : Array Int32 := Array.replicate (2 ^ 45) (-7)
  have hsize : output.size = 2 ^ 45 := Array.size_replicate
  obtain ⟨e, a, h⟩ := Sample.exists_limitedTry 2147483647 false (.latin1 #[97, 98]) output hm hm'
    rfl rfl (by decide) (by rw [hsize]; decide) (by decide)
  have hnone : m.options.backtrackLimit = none := by
    rw [h.options.1]
    rfl
  have hoptions : m'.options =
      { m.options with backtrackLimit := some 2147483647, canFallback := false } := by
    rw [h.options.1, h.options.2]
  obtain ⟨guard, hentry⟩ := h.entry
  have hk : Sample.Drumming a.task := by
    rw [h.task]
    exact Sample.drumming_of_compile hm hbuffer _
  have hfirst : Sample.Begins a.task (a.task.afresh 0 a.entry) 0 0 (2 ^ 45) := by
    refine ⟨rfl, rfl, ?_, ?_, ?_, ?_, ?_, h.settled⟩
    · change a.entry.depth = 0
      rw [hentry]
      rfl
    · change a.entry.stack.capacity = 1024
      rw [hentry]
      rfl
    · change a.entry.stack.slack = 32
      rw [hentry]
      rfl
    · change a.entry.captures = 0
      rw [hentry]
      rfl
    · change a.entry.remaining = 2 ^ 45
      rw [hentry]
      exact hsize
  obtain ⟨t, hreach, hpoised⟩ := hk.reaches_backtrack hfirst
  obtain ⟨u, hreach', hpoised'⟩ := hk.reaches_poised_again 2147483647
    (2 ^ 45 - 6 * 2147483647) hpoised (by decide)
  obtain ⟨n, hn, hcount⟩ := hreach.trans hreach'
  have hexceeds : a.ExceedsAt (backtrackBound 2147483647) n (a.task.afresh 0 a.entry) u := by
    refine ⟨h.begins, hn, hcount.trans (by decide), u.depth, ?_⟩
    exact hk.move .backtrack hpoised'.pc rfl
  obtain ⟨-, -, r, hr, hanswer, -⟩ := exec_of_exceedsAt h.reachable h.get h.limited
    (h.program.2.trans h.program.1.symm) hoptions ((h.granted _).trans (h.granted _).symm) hnone
    h.check h.mem hexceeds
  have hcaptures : u.captures = 6442450941 := hpoised'.captures
  rw [hcaptures] at hanswer
  exact ⟨e, m, m', h.reachable, h.get, h.limited, h.program.1, h.program.2, hnone, hoptions,
    ⟨a, h.mem, n, _, u, hexceeds, hcaptures⟩, r, hr, hanswer⟩

end NativeMatcher
