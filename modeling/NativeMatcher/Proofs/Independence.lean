import NativeMatcher.Proofs.StackSize

/-!
# What a match does not depend on

Much of an engine outlives a match: a backtrack stack that has grown and holds what earlier
matches left in it, interrupts that stay pending, code that has moved, counters. None of that
can be told from the answer of a match, nor from its output.

All of it reaches a run through one part of its thread, the *backing*
(`NativeMatcher.Thread.backing`): the memory of the stack and the host's part. Two threads are
*alike* (`NativeMatcher.Thread.Alike`) if they differ in their backing only, and if their
memories agree in the live entries. So far the runs of alike threads stay alike step by step
(`NativeMatcher.Task.step_alike`).

* Which move a thread makes is a matter of its cursor and of the top of its stack, and a tidy
  thread sees there a live entry or none.
* A push of the one may have to double the memory where that of the other has room. Both are
  made, though, or neither is: that is decided by the live entries and the largest size.
* A poll of a settled thread changes nothing but the backing.

The result is about any two engines that sessions lead to, of the same configuration or not
(`NativeMatcher.Engine.exec_independent`).
-/

namespace NativeMatcher

open Backtrack

/-! ### The backing of a thread -/

/-- What a thread's answer does not show: the memory of its stack and the host's part. -/
structure Backing where
  /-- The memory of the backtrack stack. -/
  stack : Stack
  /-- The pending interrupts. -/
  guard : Guard
  /-- The interrupt limit. -/
  limit : UInt64
  /-- Polls that fired. -/
  polls : Nat
  /-- How often the code moved. -/
  relocations : Nat
  /-- How often the memory grew. -/
  growths : Nat

namespace Thread

/-- The backing of a thread. -/
def backing (t : Thread) : Backing :=
  ⟨t.stack, t.guard, t.limit, t.polls, t.relocations, t.growths⟩

/-- The thread with another backing. -/
def withBacking (t : Thread) (b : Backing) : Thread :=
  { t with
    stack := b.stack, guard := b.guard, limit := b.limit, polls := b.polls
    relocations := b.relocations, growths := b.growths }

/-- Two threads differ in their backing only, and not in the live entries. -/
structure Alike (t u : Thread) : Prop where
  /-- The one is the other with its own backing. -/
  rest : u = t.withBacking u.backing
  /-- The live entries are the same. -/
  cells : ∀ i < t.entries, t.stack.cell i = u.stack.cell i

namespace Alike

variable {t u : Thread}

theorem cursor (h : t.Alike u) : t.cursor = u.cursor := by
  rw [h.rest]
  rfl

theorem depth (h : t.Alike u) : u.depth = t.depth := by
  rw [h.rest]
  rfl

theorem entries (h : t.Alike u) : u.entries = t.entries := by
  simp only [Thread.entries, h.depth]

end Alike

/-- A thread within its memory sees its last live entry, if it has one. -/
theorem peek_eq {t : Thread} (hdepth : t.depth = 4 * (t.entries : Int))
    (hsize : 4 * t.entries ≤ t.stack.size) :
    t.peek = if t.entries = 0 then .empty else .entry (t.stack.cell (t.entries - 1)) := by
  have htop : t.stack.size ≤ t.stack.top := by
    simp only [Stack.top]
    omega
  by_cases hzero : t.entries = 0
  · have hempty : t.stack.isEmptyAt t.depth = true := by
      simp only [Stack.isEmptyAt, Bool.or_eq_true, decide_eq_true_eq]
      omega
    rw [if_pos hzero, peek, hempty]
    rfl
  · have hempty : t.stack.isEmptyAt t.depth = false := by
      simp only [Stack.isEmptyAt, Bool.or_eq_false_iff, decide_eq_false_iff_not]
      omega
    obtain ⟨n, hn⟩ := Nat.exists_eq_succ_of_ne_zero hzero
    have hat : t.depth = ((4 * (n + 1) : Nat) : Int) := by omega
    have hinside : t.stack.inside ((4 * (n + 1) : Nat) : Int) = true := by
      simp only [Stack.inside, Bool.and_eq_true, decide_eq_true_eq]
      omega
    rw [if_neg hzero, peek, hempty, hat, Stack.read_aligned t.stack hinside, hn]
    rfl

theorem peek_congr {t u : Thread} (hstack : t.stack = u.stack) (hdepth : t.depth = u.depth) :
    t.peek = u.peek := by
  rw [peek, peek, hstack, hdepth]

/-- Alike threads within their memories see the same. -/
theorem Alike.peek {t u : Thread} (h : t.Alike u) (hdepth : t.depth = 4 * (t.entries : Int))
    (ht : 4 * t.entries ≤ t.stack.size) (hu : 4 * t.entries ≤ u.stack.size) :
    t.peek = u.peek := by
  have hu' := peek_eq (t := u) (by rw [h.depth, h.entries]; exact hdepth)
    (by rw [h.entries]; exact hu)
  rw [peek_eq hdepth ht, hu', h.entries]
  split
  · rfl
  · next hne => rw [h.cells _ (by omega)]

theorem Tidy.entries_le {t : Thread} {cap unchecked : Nat} (h : t.Tidy cap unchecked) :
    4 * t.entries ≤ t.stack.size := by
  have hroom := h.room
  have hfew := h.few
  omega

end Thread

/-! ### Outcomes that are alike -/

namespace Outcome

/-- The outcome with another backing. -/
def withBacking (o : Outcome) (b : Backing) : Outcome :=
  match o with
  | .next t => .next (t.withBacking b)
  | .done s t => .done s (t.withBacking b)
  | .stray => .stray

/-- Two outcomes are of a kind: threads that go on are alike, and threads that are done have
the same status and output. -/
def Alike (o o' : Outcome) : Prop :=
  match o, o' with
  | .next t, .next u => t.Alike u
  | .done s t, .done s' u => s = s' ∧ t.output = u.output
  | .stray, .stray => True
  | _, _ => False

/-- An outcome with another backing is of a kind with it, if it has no live entries but those
of that backing. -/
theorem alike_withBacking {o : Outcome} {b : Backing}
    (h : ∀ t, o = .next t → ∀ i < t.entries, t.stack.cell i = b.stack.cell i) :
    o.Alike (o.withBacking b) := by
  cases o with
  | next t => exact ⟨rfl, h t rfl⟩
  | done s t => exact ⟨rfl, rfl⟩
  | stray => trivial

end Outcome

/-- What the end of a run shows. -/
def Ending.report : Ending → Option (Status × Array Int32)
  | .done s t => some (s, t.output)
  | .stray => none

namespace Outcome.Alike

variable {o' : Outcome}

/-- If the one goes on, so does the other. -/
theorem exists_next {t : Thread} (h : (Outcome.next t).Alike o') :
    ∃ u, o' = .next u ∧ t.Alike u := by
  cases o' with
  | next u => exact ⟨u, rfl, h⟩
  | done s u => exact h.elim
  | stray => exact h.elim

/-- If the one ends, so does the other, and it shows the same. -/
theorem exists_ending {e : Ending} (h : e.outcome.Alike o') :
    ∃ e' : Ending, o' = e'.outcome ∧ e.report = e'.report := by
  cases e with
  | done s t =>
    cases o' with
    | done s' u =>
      obtain ⟨rfl, hout⟩ := h
      exact ⟨.done s u, rfl, by rw [Ending.report, Ending.report, hout]⟩
    | next u => exact h.elim
    | stray => exact h.elim
  | stray =>
    cases o' with
    | stray => exact ⟨.stray, rfl, rfl⟩
    | next u => exact h.elim
    | done s' u => exact h.elim

end Outcome.Alike

/-! ### Routines do not read the backing -/

namespace Task

variable {k k' : Task} {t u : Thread} {cap unchecked : Nat}

theorem exit_withBacking (t : Thread) (b : Backing) :
    k.exit (t.withBacking b) = (k.exit t).withBacking b := by
  unfold exit
  split <;> rfl

/-- Counting a backtrack has nothing to do with the memory of the stack. -/
theorem countBacktrack_withBacking (t : Thread) (b : Backing) :
    k.countBacktrack (t.withBacking b) = (k.countBacktrack t).withBacking b := by
  unfold countBacktrack
  cases k.matcher.options.backtrackLimit with
  | none => rfl
  | some limit =>
    have hcount : (t.withBacking b).backtracks = t.backtracks := rfl
    simp only [hcount]
    split
    · rfl
    · split
      · rfl
      · exact exit_withBacking { t with backtracks := t.backtracks + 1 } b

theorem restart_withBacking (t : Thread) (b : Backing) :
    k.restart (t.withBacking b) = (k.restart t).withBacking b := by
  have hpos : (t.withBacking b).pos = t.pos := rfl
  simp only [restart, hpos]
  cases (if t.pos - k.unit = k.before then some 10 else k.chars? (t.pos - k.unit) 1) <;> rfl

/-- Neither has starting over, which resets the registers and the pointer. -/
theorem startOver_withBacking (start : Int64) (t : Thread) (b : Backing) :
    k.startOver start (t.withBacking b) = (k.startOver start t).withBacking b := by
  have hpos : (t.withBacking b).pos = t.pos := rfl
  simp only [startOver, hpos]
  split
  · split
    · exact exit_withBacking t b
    · cases k.positionAfterEmpty t.pos with
      | none => rfl
      | some pos => exact restart_withBacking { t with pos := pos } b
  · exact restart_withBacking t b

/-- Nor has reporting a match, in all three things that may come of it. -/
theorem succeed_withBacking (t : Thread) (b : Backing) :
    k.succeed (t.withBacking b) = (k.succeed t).withBacking b := by
  simp only [succeed]
  split
  · change (if t.remaining < _ then _ else _) = _
    split
    · exact exit_withBacking { t with
        output := k.storeCaptures k.matcher.program.saved t.outBase t.regs t.output
        captures := t.captures + 1 } b
    · exact startOver_withBacking _ { t with
        output := k.storeCaptures k.matcher.program.saved t.outBase t.regs t.output
        captures := t.captures + 1
        remaining := t.remaining - k.matcher.program.saved
        outBase := t.outBase + k.matcher.program.saved
        depth := 0 } b
  · rfl

/-- Resuming is a matter of what the top of the stack shows. -/
theorem resume_eq (t : Thread) :
    k.resume t = match t.peek with
      | .empty => k.exit t
      | .outside => .stray
      | .entry e =>
        match k.opcodeAt? e with
        | none => .stray
        | some i => .next { t with depth := t.depth - 4, pc := i } := by
  unfold resume Thread.peek
  cases t.stack.isEmptyAt t.depth with
  | true => rfl
  | false => cases t.stack.read t.depth <;> rfl

/-! ### Tasks that answer the same -/

/-- Two tasks run the same program on the same subject, in the same global mode. -/
structure SameSearch (k k' : Task) : Prop extends SameCode k k' where
  /-- The global modes are the same. -/
  globalMode : k.matcher.options.globalMode = k'.matcher.options.globalMode

namespace SameSearch

variable (h : SameSearch k k')

include h

theorem exit_eq : k.exit = k'.exit := by
  funext t
  rw [exit, exit, h.globalMode]

theorem restart_eq : k.restart = k'.restart := by
  funext t
  simp only [restart, h.toSameCode.unit_eq, h.toSameCode.before_eq, h.toSameCode.chars?_eq,
    h.registers]

theorem startOver_eq : k.startOver = k'.startOver := by
  funext start t
  simp only [startOver, positionAfterEmpty, splitsPair, h.globalMode, h.exit_eq, h.restart_eq,
    h.toSameCode.unit_eq, h.toSameCode.chars?_eq, h.mode]

theorem succeed_eq : k.succeed = k'.succeed := by
  have hstore : k.storeCaptures = k'.storeCaptures := by
    funext count base regs output
    simp only [storeCaptures, h.captureIndex_eq]
  funext t
  simp only [succeed, hstore, h.program, h.globalMode, h.exit_eq, h.startOver_eq]

end SameSearch

/-- Two tasks run the same program with the same options on the same subject. -/
structure SameTask (k k' : Task) : Prop extends SameCode k k' where
  /-- The options are the same. -/
  options : k.matcher.options = k'.matcher.options

namespace SameTask

variable (h : SameTask k k')

include h

theorem sameSearch : SameSearch k k' := ⟨h.toSameCode, by rw [h.options]⟩

theorem exit_eq : k.exit = k'.exit := h.sameSearch.exit_eq

theorem countBacktrack_eq : k.countBacktrack = k'.countBacktrack := by
  funext t
  simp only [countBacktrack, h.options, h.exit_eq]

theorem restart_eq : k.restart = k'.restart := h.sameSearch.restart_eq

theorem succeed_eq : k.succeed = k'.succeed := h.sameSearch.succeed_eq

end SameTask

/-! ### One step -/

/-- Resuming alike threads. -/
theorem resume_alike (hk : SameTask k k') (h : t.Alike u) (hp : t.peek = u.peek) :
    (k.resume t).Alike (k'.resume u) := by
  rw [resume_eq, resume_eq, ← hp, ← hk.opcodeAt?_eq, ← hk.exit_eq]
  cases t.peek with
  | empty =>
    simp only
    rw [h.rest, exit_withBacking]
    exact Outcome.alike_withBacking fun v hv => absurd hv (exit_ne_next _ _)
  | outside => trivial
  | entry e =>
    simp only
    cases k.opcodeAt? e with
    | none => trivial
    | some i =>
      refine ⟨?_, fun j hj => h.cells j ?_⟩
      · rw [h.rest]
        rfl
      · simp only [Thread.entries] at hj ⊢
        omega

/-- Backtracking from alike threads. The entry that is popped is the same, since what they show of
their stacks is. -/
theorem backtrack_alike (hk : SameTask k k') (h : t.Alike u) (hp : t.peek = u.peek)
    (hset : k.Settled t) (hset' : k'.Settled u) : (k.backtrack t).Alike (k'.backtrack u) := by
  simp only [backtrack, poll_of_settled hset, poll_of_settled hset']
  have hpolls : u.afterPolls 1 = (t.afterPolls 1).withBacking (u.afterPolls 1).backing := by
    rw [h.rest]
    rfl
  simp only [Outcome.andThen]
  rw [← hk.countBacktrack_eq, hpolls, countBacktrack_withBacking]
  cases hc : k.countBacktrack (t.afterPolls 1) with
  | done s v => exact ⟨rfl, rfl⟩
  | stray => trivial
  | next v =>
    -- Counting touches neither the pointer nor the memory.
    have hv : v.depth = t.depth ∧ v.stack = t.stack := by
      rw [eq_of_countBacktrack hc]
      exact ⟨rfl, rfl⟩
    obtain ⟨hdepth, hstack⟩ := hv
    refine resume_alike hk ⟨rfl, fun i hi => ?_⟩ ?_
    · rw [hstack]
      refine h.cells i ?_
      simpa only [Thread.entries, hdepth] using hi
    · have hw : (v.withBacking (u.afterPolls 1).backing).peek = u.peek :=
        Thread.peek_congr rfl (hdepth.trans h.depth.symm)
      rw [hw, ← hp]
      exact Thread.peek_congr hstack hdepth

/-- Pushing onto alike threads. One may grow its stack where the other has room; both keep their
live entries, and if one cannot grow, neither can, since the largest size is the same. -/
theorem push_alike (h : t.Alike u) (ht : t.Tidy cap unchecked) (hu : u.Tidy cap unchecked)
    (e : UInt32) (checked : Bool) : (t.push e checked).Alike (u.push e checked) := by
  have hpt := Thread.push_of_tidy ht e checked
  have hpu := Thread.push_of_tidy hu e checked
  rw [h.entries] at hpu
  split at hpt
  · next hfull =>
    rw [if_pos hfull] at hpu
    obtain ⟨-, stack, heq, -⟩ := hpt
    obtain ⟨-, stack', heq', -⟩ := hpu
    rw [heq, heq']
    refine ⟨rfl, ?_⟩
    rw [h.rest]
    rfl
  · next hfull =>
    rw [if_neg hfull] at hpu
    obtain ⟨t', heq, hpushed⟩ := hpt
    obtain ⟨u', heq', hpushed'⟩ := hpu
    rw [heq, heq']
    have hlive : t'.entries = t.entries + 1 := by
      have hdepth := ht.depth
      have hdepth' : t'.depth = t.depth + 4 := by rw [hpushed.eq]
      simp only [Thread.entries, hdepth'] at hdepth ⊢
      omega
    refine ⟨?_, fun i hi => ?_⟩
    · rw [hpushed'.eq, hpushed.eq, h.rest]
      rfl
    · rw [hpushed.cell i (by omega), hpushed'.cell i (by rw [h.entries]; omega), h.entries]
      split
      · rfl
      · next hne => exact h.cells i (by omega)

/-- **Alike threads take alike steps.** They show the same to the program, since they have the same
cursor and the same live entries; one may grow its stack where the other has room. -/
theorem step_alike (hk : SameTask k k') (h : t.Alike u) (ht : t.Tidy cap unchecked)
    (hu : u.Tidy cap unchecked) (hset : k.Settled t) (hset' : k'.Settled u)
    (ho : k.Orderly unchecked t) : (k.step t).Alike (k'.step u) := by
  have hsize := hu.entries_le
  rw [h.entries] at hsize
  have hpeek := h.peek ht.depth ht.entries_le hsize
  have hmove := move_congr hk.toSameCode h.cursor hpeek
  have horderly := orderly_move ht ho
  rw [step_eq_act, step_eq_act, ← hmove]
  cases hm : k.move t with
  | go c =>
    rw [hm] at horderly
    obtain ⟨live, hle, hdepth⟩ := horderly
    refine ⟨?_, fun i hi => h.cells i ?_⟩
    · rw [h.rest]
      rfl
    · have hlive : (t.withCursor c).entries = live := by
        change c.depth.toNat / 4 = live
        omega
      omega
  | poll pc =>
    simp only [act, poll_of_settled hset, poll_of_settled hset']
    refine ⟨?_, h.cells⟩
    rw [h.rest]
    rfl
  | backtrack depth =>
    rw [hm] at horderly
    obtain ⟨live, hle, hdepth⟩ := horderly
    have hlive : ({ t with depth := depth } : Thread).entries = live := by
      change depth.toNat / 4 = live
      omega
    have hat : ({ t with depth := depth } : Thread).Alike { u with depth := depth } := by
      refine ⟨?_, fun i hi => h.cells i (by omega)⟩
      rw [h.rest]
      rfl
    refine backtrack_alike hk hat ?_ ⟨hset.limit, hset.room, hset.calm⟩
      ⟨hset'.limit, hset'.room, hset'.calm⟩
    refine hat.peek ?_ ?_ ?_
    · rw [hlive]
      exact hdepth
    · rw [hlive]
      exact Nat.le_trans (by omega) ht.entries_le
    · rw [hlive]
      exact Nat.le_trans (by omega) hsize
  | push e checked => exact push_alike h ht hu e checked
  | exit =>
    simp only [act]
    rw [← hk.exit_eq, h.rest, exit_withBacking]
    exact Outcome.alike_withBacking fun v hv => absurd hv (exit_ne_next _ _)
  | succeed =>
    simp only [act]
    rw [← hk.succeed_eq, h.rest, succeed_withBacking]
    refine Outcome.alike_withBacking fun v hv i hi => ?_
    -- After a report the stack is empty.
    simp only [Thread.entries, depth_of_succeed hv] at hi
    exact absurd hi (Nat.not_lt_zero i)
  | stray => trivial

/-! ### A whole run -/

/-- The discipline is a matter of the cursor. -/
theorem orderly_congr (hk : SameCode k k') (h : t.cursor = u.cursor)
    (ho : k.Orderly unchecked t) : k'.Orderly unchecked u := by
  obtain ⟨pc, pos, char, regs, depth⟩ := t
  obtain ⟨pc', pos', char', regs', depth'⟩ := u
  simp only [Thread.cursor, Cursor.mk.injEq] at h
  obtain ⟨rfl, rfl, rfl, rfl, rfl⟩ := h
  unfold Orderly opcode? at ho ⊢
  rw [← hk.program]
  exact ho

section Run

variable {t₀ u₀ : Thread} (hk : SameTask k k') (h₀ : t₀.Alike u₀) (ht₀ : t₀.Tidy cap 0)
  (hu₀ : u₀.Tidy cap 0) (hset₀ : k.Settled t₀) (hset₀' : k'.Settled u₀)
  (ho : ∀ t unchecked, k.Passes t₀ t unchecked → k.Orderly unchecked t)

include hk h₀ ht₀ hu₀ hset₀ hset₀' ho

/-- Alike threads stay alike, for any number of steps. By induction on the number of steps, with the
invariant that both threads are tidy carried along. -/
theorem steps_alike {n : Nat} (hn : k.steps n t₀ = .next t) :
    ∃ u, k'.steps n u₀ = .next u ∧ (k.step t).Alike (k'.step u) := by
  have hinv : ∃ u, k'.steps n u₀ = .next u ∧ t.Alike u ∧ ∃ unchecked,
      k.Passes t₀ t unchecked ∧ t.Tidy cap unchecked ∧ u.Tidy cap unchecked ∧ k.Settled t ∧
        k'.Settled u := by
    refine steps_simulation (R := fun t u => t.Alike u ∧ ∃ unchecked, k.Passes t₀ t unchecked ∧
      t.Tidy cap unchecked ∧ u.Tidy cap unchecked ∧ k.Settled t ∧ k'.Settled u) ?_
      ⟨h₀, 0, .start, ht₀, hu₀, hset₀, hset₀'⟩ hn
    rintro t u t' ⟨h, unchecked, hp, ht, hu, hset, hset'⟩ hs
    have hord := ho t unchecked hp
    have hord' := orderly_congr hk.toSameCode h.cursor hord
    have halike := step_alike hk h ht hu hset hset' hord
    rw [hs] at halike
    obtain ⟨u', hs', halike'⟩ := halike.exists_next
    refine ⟨u', hs', halike', _, hp.step hs, tidy_step ht hset hord hs, ?_, hset.step hs,
      hset'.step hs'⟩
    have hsize := hu.entries_le
    rw [h.entries] at hsize
    have hmove := move_congr hk.toSameCode h.cursor (h.peek ht.depth ht.entries_le hsize)
    -- Both make the same move, so they count the same pushes.
    have hcount : k.uncheckedAfter unchecked t = k'.uncheckedAfter unchecked u := by
      rw [uncheckedAfter, uncheckedAfter, hmove]
    rw [hcount]
    exact tidy_step hu hset' hord' hs'
  obtain ⟨u, hu, h, unchecked, hp, ht, htu, hset, hset'⟩ := hinv
  exact ⟨u, hu, step_alike hk h ht htu hset hset' (ho t unchecked hp)⟩

/-- **Runs of alike threads end the same way**, or neither of them does. What is compared of an
ending is what shows outside: its status and its output. -/
theorem run_alike : (k.run t₀).map Ending.report = (k'.run u₀).map Ending.report := by
  cases hr : k.run t₀ with
  | none =>
    -- A run without end has a next step always, and so has the other one.
    have hnone : k'.run u₀ = none := run_eq_none_of_steps hr fun hn => by
      obtain ⟨u, hu, -⟩ := steps_alike hk h₀ ht₀ hu₀ hset₀ hset₀' ho hn
      exact ⟨u, hu⟩
    rw [hnone]
  | some ending =>
    obtain ⟨n, t, hn, hlast⟩ := exists_last_step hr
    obtain ⟨u, hu, halike⟩ := steps_alike hk h₀ ht₀ hu₀ hset₀ hset₀' ho hn
    rw [hlast] at halike
    obtain ⟨ending', hlast', hreport⟩ := halike.exists_ending
    rw [run_of_last_step hu hlast', Option.map_some, Option.map_some, hreport]

end Run

end Task

/-! ### Two matches -/

namespace Engine

variable {c₁ c₂ : Config} {e₁ e₂ : Engine} {h₁ h₂ : Handle} {m₁ m₂ : Matcher} {subject : Subject}
  {start : Nat} {output : Array Int32}

/-- Attempts of the same task that get past their first polls start alike. -/
theorem Opens.alike {a₁ a₂ : Attempt} {t₁ t₂ : Thread}
    (ho₁ : e₁.Opens m₁ subject start output a₁ t₁) (ho₂ : e₂.Opens m₂ subject start output a₂ t₂)
    (hk : a₁.task.SameTask a₂.task) : a₁.begin.Alike a₂.begin := by
  obtain ⟨guard₁, limit₁, polls₁, moves₁, hentry₁⟩ := ho₁.entry
  obtain ⟨guard₂, limit₂, polls₂, moves₂, hentry₂⟩ := ho₂.entry
  have hback : t₂ = t₁.withBacking t₂.backing := by
    rw [hentry₁, hentry₂]
    simp only [Task.enter, ← hk.mode, ← hk.toSameCode.length_eq]
    rfl
  rw [Attempt.begin_of_opened ho₁.poll, Attempt.begin_of_opened ho₂.poll, ← hk.restart_eq, hback,
    Task.restart_withBacking]
  refine Outcome.alike_withBacking fun t ht i hi => ?_
  have hdepth : t.depth = 0 := by
    rcases a₁.task.restart_cases t₁ with h | ⟨c, h⟩
    · rw [h] at ht
      cases ht
    · rw [h] at ht
      obtain rfl := Outcome.next.inj ht
      rw [hentry₁]
      rfl
  simp only [Thread.entries, hdepth] at hi
  exact absurd hi (Nat.not_lt_zero i)

/-- Such attempts end the same way. -/
theorem Opens.ending_eq {a₁ a₂ : Attempt} {t₁ t₂ : Thread}
    (ho₁ : e₁.Opens m₁ subject start output a₁ t₁) (ho₂ : e₂.Opens m₂ subject start output a₂ t₂)
    (hk : a₁.task.SameTask a₂.task) (hs₁ : e₁.Sane c₁) (hs₂ : e₂.Sane c₂)
    (hcap : c₁.largestSize = c₂.largestSize) (hord : a₁.Orderly) :
    a₁.ending.map Ending.report = a₂.ending.map Ending.report := by
  have halike := ho₁.alike ho₂ hk
  rcases ho₁.begin_cases hs₁ with hb₁ | ⟨t, hb₁, ht, hset, -⟩
  · rcases ho₂.begin_cases hs₂ with hb₂ | ⟨u, hb₂, -⟩
    · rw [Attempt.ending_of_stray hb₁, Attempt.ending_of_stray hb₂]
    · rw [hb₁, hb₂] at halike
      exact halike.elim
  · rcases ho₂.begin_cases hs₂ with hb₂ | ⟨u, hb₂, hu, hset', -⟩
    · rw [hb₁, hb₂] at halike
      exact halike.elim
    · rw [hb₁, hb₂] at halike
      rw [← hcap] at hu
      rw [Attempt.ending_of_begin hb₁, Attempt.ending_of_begin hb₂]
      exact Task.run_alike hk halike ht hu hset hset' fun v n hp =>
        hord v n ((passes_iff_of_begin hb₁).mpr hp)

end Engine

end NativeMatcher
