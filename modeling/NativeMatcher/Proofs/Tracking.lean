import NativeMatcher.Proofs.Poll

/-!
# Following a search to its first match

A run in a global mode *tracks* the run of the same program that stops at the first match
(`NativeMatcher.Thread.Tracks`): the two differ in what they have reported and counted so far,
and in nothing that a step looks at. So they go the same way, step by step, up to the first
success, and the one in the global mode reports nothing on the way
(`NativeMatcher.Task.Globalizes.steps_follow`).

Two things may end them before a success. If the stack overflows, both end with that. If there
is no match, the one has failed, and the other tells how many matches it has reported before
(`NativeMatcher.Outcome.Follows`).
-/

namespace NativeMatcher

open Backtrack

/-! ### Threads that differ in what they have reported -/

/-- What a thread has reported and counted. -/
structure Tally where
  /-- Backtracks. -/
  backtracks : Nat
  /-- Capture sets. -/
  captures : Nat
  /-- Where in the output the next one goes. -/
  outBase : Nat
  /-- How many output registers are left. -/
  remaining : Nat
  /-- The output registers. -/
  output : Array Int32
  /-- Polls that fired. -/
  polls : Nat
  /-- How often the code moved. -/
  relocations : Nat
  /-- How often the backtrack stack grew. -/
  growths : Nat

namespace Thread

/-- The thread with other reports and counts. -/
def withTally (t : Thread) (r : Tally) : Thread :=
  { t with
    backtracks := r.backtracks, captures := r.captures, outBase := r.outBase
    remaining := r.remaining, output := r.output, polls := r.polls
    relocations := r.relocations, growths := r.growths }

/-- Two threads differ only in what they have reported and counted. -/
def Tracks (t u : Thread) : Prop := ∃ r, u = t.withTally r

/-- Two threads have reported the same. -/
structure SameReport (t u : Thread) : Prop where
  /-- Capture sets. -/
  captures : u.captures = t.captures
  /-- Where in the output the next one goes. -/
  outBase : u.outBase = t.outBase
  /-- How many output registers are left. -/
  remaining : u.remaining = t.remaining
  /-- The output registers. -/
  output : u.output = t.output

theorem SameReport.refl (t : Thread) : t.SameReport t := ⟨rfl, rfl, rfl, rfl⟩

theorem SameReport.trans {t u v : Thread} (h : t.SameReport u) (h' : u.SameReport v) :
    t.SameReport v :=
  ⟨h'.captures.trans h.captures, h'.outBase.trans h.outBase, h'.remaining.trans h.remaining,
    h'.output.trans h.output⟩

/-- A step that leaves the cursor, the limit, the stack and the guard alone tracks trivially. -/
theorem Tracks.of_eq {t u : Thread} (hcursor : u.cursor = t.cursor) (hlimit : u.limit = t.limit)
    (hstack : u.stack = t.stack) (hguard : u.guard = t.guard) : t.Tracks u := by
  obtain ⟨pc, pos, char, regs, depth, _, _, _, _, _, limit, stack, guard⟩ := t
  obtain ⟨pc', pos', char', regs', depth', backtracks, captures, outBase, remaining, output, limit',
    stack', guard', polls, relocations, growths⟩ := u
  simp only [Thread.cursor, Cursor.mk.injEq] at hcursor
  obtain ⟨rfl, rfl, rfl, rfl, rfl⟩ := hcursor
  obtain rfl : limit' = limit := hlimit
  obtain rfl : stack' = stack := hstack
  obtain rfl : guard' = guard := hguard
  exact ⟨⟨backtracks, captures, outBase, remaining, output, polls, relocations, growths⟩, rfl⟩

theorem Tracks.cursor {t u : Thread} (h : t.Tracks u) : t.cursor = u.cursor := by
  obtain ⟨r, rfl⟩ := h
  rfl

theorem Tracks.peek {t u : Thread} (h : t.Tracks u) : t.peek = u.peek := by
  obtain ⟨r, rfl⟩ := h
  rfl

theorem Tracks.stack {t u : Thread} (h : t.Tracks u) : t.stack = u.stack := by
  obtain ⟨r, rfl⟩ := h
  rfl

theorem Tracks.guard {t u : Thread} (h : t.Tracks u) : t.guard = u.guard := by
  obtain ⟨r, rfl⟩ := h
  rfl

end Thread

/-- The outcome of a step from `t` in a global mode beside the outcome of the same step from `u`
in a run that stops at the first match: nothing was reported, and an end of the one is an end of
the other. -/
def Outcome.Follows (o : Outcome) (t u : Thread) (o' : Outcome) : Prop :=
  match o, o' with
  | .next v, .next w => v.Tracks w ∧ t.SameReport v ∧ u.SameReport w
  | .done s v, .done s' w => v.Tracks w ∧ t.SameReport v ∧ u.SameReport w ∧
      (s = .exception ∧ s' = .exception ∨ s = .ofCount t.captures ∧ s' = .failure)
  | .stray, .stray => True
  | _, _ => False

/-- What was reported so far is of no concern to a run, so the relation holds of two runs that
differ in their outputs and counts only. -/
theorem Outcome.Follows.of_sameReport {o o' : Outcome} {t t' u u' : Thread}
    (h : o.Follows t' u' o') (ht : t.SameReport t') (hu : u.SameReport u') : o.Follows t u o' := by
  cases o with
  | next v =>
    cases o' with
    | next w =>
      obtain ⟨htracks, hv, hw⟩ := h
      exact ⟨htracks, ht.trans hv, hu.trans hw⟩
    | _ => exact h.elim
  | done s v =>
    cases o' with
    | done s' w =>
      obtain ⟨htracks, hv, hw, hstatus⟩ := h
      rw [ht.captures] at hstatus
      exact ⟨htracks, ht.trans hv, hu.trans hw, hstatus⟩
    | _ => exact h.elim
  | stray =>
    cases o' with
    | stray => trivial
    | _ => exact h.elim

/-- A push onto the same stack. -/
theorem Thread.Tracks.push {t u : Thread} (h : t.Tracks u) (e : UInt32) (checked : Bool) :
    (t.push e checked).Follows t u (u.push e checked) := by
  obtain ⟨r, rfl⟩ := h
  have hdepth : (t.withTally r).depth = t.depth := rfl
  have hstack : (t.withTally r).stack = t.stack := rfl
  simp only [Thread.push, hdepth, hstack]
  cases t.stack.write (t.depth + 4) e with
  | none => trivial
  | some stack =>
    simp only
    split
    · cases stack.grow (t.depth + 4) with
      | none => exact ⟨⟨r, rfl⟩, ⟨rfl, rfl, rfl, rfl⟩, ⟨rfl, rfl, rfl, rfl⟩, Or.inl ⟨rfl, rfl⟩⟩
      | some p => exact ⟨.of_eq rfl rfl rfl rfl, ⟨rfl, rfl, rfl, rfl⟩, rfl, rfl, rfl, rfl⟩
    · exact ⟨⟨r, rfl⟩, ⟨rfl, rfl, rfl, rfl⟩, rfl, rfl, rfl, rfl⟩

namespace Task

variable {k k' : Task} {t u : Thread}

/-- Two tasks run the same program on the same subject, the one in a global mode that looks out
for empty matches, the other up to the first match; neither counts backtracks. -/
structure Globalizes (k k' : Task) : Prop extends SameCode k k' where
  /-- The one starts over. -/
  global : k.matcher.options.globalMode.checksZeroLength = true
  /-- The other does not. -/
  notGlobal : k'.matcher.options.globalMode = .notGlobal
  /-- The one does not count backtracks. -/
  unlimited : k.matcher.options.backtrackLimit = none
  /-- Nor does the other. -/
  unlimited' : k'.matcher.options.backtrackLimit = none

namespace Globalizes

variable (hk : Globalizes k k')

include hk

theorem isGlobal : k.matcher.options.globalMode.isGlobal = true := by
  have hglobal := hk.global
  cases hg : k.matcher.options.globalMode with
  | notGlobal =>
    rw [hg] at hglobal
    cases hglobal
  | _ => rfl

theorem exit_eq (t : Thread) : k.exit t = .done (.ofCount t.captures) t := by
  rw [exit, hk.isGlobal]
  rfl

theorem exit_eq' (t : Thread) : k'.exit t = .done .failure t := by
  rw [exit, hk.notGlobal]
  rfl

theorem succeed_eq' (t : Thread) : k'.succeed t = .done (.success 1) { t with
    output := k'.storeCaptures k'.matcher.program.saved t.outBase t.regs t.output } := by
  simp only [succeed, hk.notGlobal]
  rfl

theorem exit_follows (h : t.Tracks u) : (k.exit t).Follows t u (k'.exit u) := by
  rw [hk.exit_eq, hk.exit_eq']
  exact ⟨h, .refl t, .refl u, Or.inr ⟨rfl, rfl⟩⟩

/-- Resuming the two. -/
theorem resume_follows (h : t.Tracks u) : (k.resume t).Follows t u (k'.resume u) := by
  have hexit := hk.exit_follows h
  obtain ⟨r, rfl⟩ := h
  have hdepth : (t.withTally r).depth = t.depth := rfl
  have hstack : (t.withTally r).stack = t.stack := rfl
  simp only [resume, hdepth, hstack, ← hk.opcodeAt?_eq]
  split
  · exact hexit
  · cases t.stack.read t.depth with
    | none => trivial
    | some e =>
      simp only
      cases k.opcodeAt? e with
      | none => trivial
      | some i => exact ⟨⟨r, rfl⟩, ⟨rfl, rfl, rfl, rfl⟩, rfl, rfl, rfl, rfl⟩

/-- **Up to a success the two go the same way.** The mode of the matcher matters to a success, and
to the status that the exit ends with; between two reports a global match and a single one take the
same steps. -/
theorem step_follows (h : t.Tracks u) (ht : k.Settled t) (hu : k'.Settled u)
    (hmove : k.move t ≠ .succeed) : (k.step t).Follows t u (k'.step u) := by
  have hcongr : k.move t = k'.move u := move_congr hk.toSameCode h.cursor h.peek
  rw [step_eq_act, step_eq_act, ← hcongr]
  cases hm : k.move t with
  | go c =>
    obtain ⟨r, rfl⟩ := h
    exact ⟨⟨r, rfl⟩, ⟨rfl, rfl, rfl, rfl⟩, rfl, rfl, rfl, rfl⟩
  | poll pc =>
    -- Of a settled thread a poll changes the host's part only.
    obtain ⟨r, rfl⟩ := h
    simp only [act, poll_of_settled ht, poll_of_settled hu]
    exact ⟨.of_eq rfl rfl rfl rfl, ⟨rfl, rfl, rfl, rfl⟩, rfl, rfl, rfl, rfl⟩
  | backtrack depth =>
    have ht' : k.Settled { t with depth := depth } := ⟨ht.limit, ht.room, ht.calm⟩
    have hu' : k'.Settled { u with depth := depth } := ⟨hu.limit, hu.room, hu.calm⟩
    have hcount : ∀ v, k.countBacktrack v = .next v := fun v => by
      simp only [countBacktrack, hk.unlimited]
    have hcount' : ∀ v, k'.countBacktrack v = .next v := fun v => by
      simp only [countBacktrack, hk.unlimited']
    simp only [act, backtrack, poll_of_settled ht', poll_of_settled hu', Outcome.andThen, hcount,
      hcount']
    obtain ⟨r, rfl⟩ := h
    have hresume := hk.resume_follows (t := ({ t with depth := depth } : Thread).afterPolls 1)
      (u := ({ t.withTally r with depth := depth } : Thread).afterPolls 1) (.of_eq rfl rfl rfl rfl)
    exact hresume.of_sameReport ⟨rfl, rfl, rfl, rfl⟩ ⟨rfl, rfl, rfl, rfl⟩
  | push e checked => exact h.push e checked
  | exit => exact hk.exit_follows h
  | succeed => exact absurd hm hmove
  | stray => trivial

/-- The run that stops at the first match makes no step past it. -/
theorem move_ne_succeed {u' : Thread} (h : t.Tracks u) (hs : k'.step u = .next u') :
    k.move t ≠ .succeed := by
  intro hm
  rw [move_congr hk.toSameCode h.cursor h.peek] at hm
  rw [step_eq_act, hm, act, hk.succeed_eq'] at hs
  cases hs

variable {t₀ u₀ : Thread} (h₀ : t₀.Tracks u₀) (ht₀ : k.Settled t₀) (hu₀ : k'.Settled u₀)

include h₀ ht₀ hu₀

/-- As long as the run that stops at the first match goes on, the other one tracks it, and
neither reports anything. -/
theorem steps_follow {n : Nat} {u : Thread} (hn : k'.steps n u₀ = .next u) :
    ∃ t, k.steps n t₀ = .next t ∧ t.Tracks u ∧ t₀.SameReport t ∧ u₀.SameReport u ∧
      k.Settled t ∧ k'.Settled u := by
  refine steps_simulation
    (R := fun u t => t.Tracks u ∧ t₀.SameReport t ∧ u₀.SameReport u ∧ k.Settled t ∧ k'.Settled u)
    ?_ ⟨h₀, .refl t₀, .refl u₀, ht₀, hu₀⟩ hn
  rintro u t u' ⟨htracks, hsame, hsame', ht, hu⟩ hs
  have hfollows := hk.step_follows htracks ht hu (hk.move_ne_succeed htracks hs)
  rw [hs] at hfollows
  cases hs' : k.step t with
  | next t' =>
    rw [hs'] at hfollows
    obtain ⟨htracks', hstep, hstep'⟩ := hfollows
    exact ⟨t', rfl, htracks', hsame.trans hstep, hsame'.trans hstep', ht.step hs', hu.step hs⟩
  | done s t' =>
    rw [hs'] at hfollows
    exact hfollows.elim
  | stray =>
    rw [hs'] at hfollows
    exact hfollows.elim

/-- If the one does not end, neither does the other. -/
theorem run_eq_none (h : k'.run u₀ = none) : k.run t₀ = none := by
  refine run_eq_none_of_steps h fun hu => ?_
  obtain ⟨t, ht, -⟩ := hk.steps_follow h₀ ht₀ hu₀ hu
  exact ⟨t, ht⟩

/-- **If the run that stops at the first match ends, the other one gets to the same place.** -/
theorem exists_steps_of_run {e : Ending} (h : k'.run u₀ = some e) :
    ∃ n t u, k.steps n t₀ = .next t ∧ k'.steps n u₀ = .next u ∧ k'.step u = e.outcome ∧
      t.Tracks u ∧ t₀.SameReport t ∧ u₀.SameReport u ∧ k.Settled t ∧ k'.Settled u := by
  obtain ⟨n, u, hn, hu⟩ := exists_last_step h
  obtain ⟨t, hn', hfollow⟩ := hk.steps_follow h₀ ht₀ hu₀ hn
  exact ⟨n, t, u, hn', hn, hu, hfollow⟩

end Globalizes

end Task

end NativeMatcher
