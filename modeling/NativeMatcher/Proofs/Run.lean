import NativeMatcher.Proofs.Move

/-!
# Steps, runs and what a run passes

A run ends exactly as some number of steps does, and it has no ending exactly when every
number of steps leaves a thread that goes on (`NativeMatcher.Task.run_eq_none_iff`). So a
statement about runs is shown by an induction on the number of steps.

Three ways to use that induction are set up here.

* A property that every step keeps holds wherever a run gets to
  (`NativeMatcher.Task.steps_induct`).
* Two runs whose steps match stay matched
  (`NativeMatcher.Task.steps_simulation`).
* A run *passes* threads (`NativeMatcher.Task.Passes`), each with the number of pushes made
  without a limit check since the last one made with it. What is assumed of a run is assumed
  of the threads it passes.
-/

namespace NativeMatcher

/-! ### Properties of outcomes -/

/-- The outcome of a step that ends a run. -/
def Ending.outcome : Ending → Outcome
  | .done s t => .done s t
  | .stray => .stray

namespace Outcome

/-- A thread that goes on has the one property, a thread that is done the other. Nothing is
said about one that went astray. -/
def Satisfies (o : Outcome) (next : Thread → Prop) (done : Status → Thread → Prop) : Prop :=
  match o with
  | .next t => next t
  | .done s t => done s t
  | .stray => True

/-- Something that goes on from one condition to another keeps what is said of the threads that are
done: the rule of sequence. -/
theorem Satisfies.andThen {o : Outcome} {f : Thread → Outcome} {P next : Thread → Prop}
    {done : Status → Thread → Prop} (h : o.Satisfies P done)
    (hf : ∀ t, P t → (f t).Satisfies next done) : (o.andThen f).Satisfies next done := by
  cases o with
  | next t => exact hf t h
  | done s t => exact h
  | stray => trivial

/-- The rule of consequence: both what holds of a thread that goes on and what holds of one that is
done may be weakened. -/
theorem Satisfies.imp {o : Outcome} {next next' : Thread → Prop}
    {done done' : Status → Thread → Prop} (h : o.Satisfies next done)
    (hn : ∀ t, next t → next' t) (hd : ∀ s t, done s t → done' s t) :
    o.Satisfies next' done' := by
  cases o with
  | next t => exact hn t h
  | done s t => exact hd s t h
  | stray => trivial

/-- What goes on after two routines went on after the first. -/
theorem andThen_eq_next {o : Outcome} {f : Thread → Outcome} {u : Thread} :
    o.andThen f = .next u ↔ ∃ t, o = .next t ∧ f t = .next u := by
  cases o <;> simp [andThen]

theorem ending_outcome {o : Outcome} {run : Thread → Option Ending} {e : Ending}
    (h : o = e.outcome) : o.ending run = some e := by
  subst h
  cases e <;> rfl

end Outcome

/-! ### How routines end -/

/-- A push that goes on has written its entry, and if that leaves a checked push too little room,
the stack has grown. -/
theorem Thread.push_eq_next {t u : Thread} {e : UInt32} {checked : Bool}
    (h : t.push e checked = .next u) :
    ∃ written, t.stack.write (t.depth + 4) e = some written ∧
      ((checked && written.needsGrowth (t.depth + 4)) = false ∧
          u = { t with stack := written, depth := t.depth + 4, pc := t.pc + 1 } ∨
        (checked && written.needsGrowth (t.depth + 4)) = true ∧
          ∃ grown depth, written.grow (t.depth + 4) = some (grown, depth) ∧ u = { t with
            stack := grown, depth := depth, growths := t.growths + 1, pc := t.pc + 1 }) := by
  unfold push at h
  simp only at h
  split at h
  · cases h
  · next written hw =>
    refine ⟨written, hw, ?_⟩
    split at h
    · next hfull =>
      split at h
      · next grown depth hg =>
        obtain rfl := Outcome.next.inj h
        exact Or.inr ⟨hfull, grown, depth, hg, rfl⟩
      · cases h
    · next hroom =>
      obtain rfl := Outcome.next.inj h
      exact Or.inl ⟨Bool.eq_false_iff.mpr hroom, rfl⟩

namespace Task

variable {k k' : Task}

/-- The end of a match does not go on. -/
theorem exit_ne_next (t u : Thread) : k.exit t ≠ .next u := by
  unfold exit
  split <;> exact fun h => by cases h

/-- A start goes on with a character loaded and every register unset, or goes astray. -/
theorem restart_cases (k : Task) (t : Thread) :
    k.restart t = .stray ∨ ∃ c, k.restart t = .next { t with
      char := c, regs := Array.replicate k.matcher.object.registers k.before, pc := 0 } := by
  unfold restart
  simp only
  split
  · exact Or.inl rfl
  · next c _ => exact Or.inr ⟨c, rfl⟩

/-- Counting a backtrack leaves everything but the count alone. -/
theorem eq_of_countBacktrack {t u : Thread} (h : k.countBacktrack t = .next u) :
    u = { t with backtracks := u.backtracks } := by
  unfold countBacktrack at h
  split at h
  · obtain rfl := Outcome.next.inj h
    rfl
  · simp only at h
    split at h
    · obtain rfl := Outcome.next.inj h
      rfl
    · split at h
      · cases h
      · exact absurd h (exit_ne_next _ _)

/-! ### Runs and numbers of steps -/

/-- The last of `n + 1` steps, where the definition takes the first one off. Histories grow at this
end. -/
theorem steps_succ (n : Nat) (t : Thread) :
    k.steps (n + 1) t = (k.steps n t).andThen k.step := by
  rw [steps_add]
  cases k.steps n t with
  | next u =>
    simp only [Outcome.andThen, steps]
    cases k.step u <;> rfl
  | done s u => rfl
  | stray => rfl

/-- A run that ends makes a last step. -/
theorem exists_last_step {t : Thread} {e : Ending} (h : k.run t = some e) :
    ∃ n u, k.steps n t = .next u ∧ k.step u = e.outcome := by
  refine run.partial_correctness k
    (fun t e => ∃ n u, k.steps n t = .next u ∧ k.step u = e.outcome) ?_ t e h
  intro f ih t e he
  cases hs : k.step t with
  | next t' =>
    rw [hs] at he
    obtain ⟨n, u, hn, hu⟩ := ih t' e he
    refine ⟨n + 1, u, ?_, hu⟩
    rw [steps, hs]
    exact hn
  | done s t' =>
    rw [hs] at he
    obtain rfl := Option.some.inj he
    exact ⟨0, t, rfl, hs⟩
  | stray =>
    rw [hs] at he
    obtain rfl := Option.some.inj he
    exact ⟨0, t, rfl, hs⟩

/-- A run goes on from wherever its steps lead. -/
theorem run_of_steps {n : Nat} {t u : Thread} (h : k.steps n t = .next u) :
    k.run t = k.run u := by
  rw [run_eq_steps k n t, h]
  rfl

/-- A run whose steps lead to a last step ends with it. -/
theorem run_of_last_step {n : Nat} {t u : Thread} {e : Ending} (hn : k.steps n t = .next u)
    (hu : k.step u = e.outcome) : k.run t = some e := by
  rw [run_of_steps hn, run_eq]
  exact Outcome.ending_outcome hu

/-- **A run has no ending exactly if it always goes on.** Endings are defined without a bound on the
number of steps; this is how steps are counted again where an induction needs it. -/
theorem run_eq_none_iff {t : Thread} :
    k.run t = none ↔ ∀ n, ∃ u, k.steps n t = .next u := by
  constructor
  · intro h n
    cases hn : k.steps n t with
    | next u => exact ⟨u, rfl⟩
    | done s u =>
      rw [run_eq_steps k n t, hn] at h
      cases h
    | stray =>
      rw [run_eq_steps k n t, hn] at h
      cases h
  · intro h
    cases hr : k.run t with
    | none => rfl
    | some e =>
      obtain ⟨n, u, hn, hu⟩ := exists_last_step hr
      obtain ⟨u', hu'⟩ := h (n + 1)
      rw [steps_succ, hn] at hu'
      cases e <;> simp_all [Outcome.andThen, Ending.outcome]

/-- A run that another one keeps up with has no ending if that has none. -/
theorem run_eq_none_of_steps {t u : Thread} (h : k.run t = none)
    (hsteps : ∀ {n v}, k.steps n t = .next v → ∃ w, k'.steps n u = .next w) : k'.run u = none := by
  refine run_eq_none_iff.mpr fun n => ?_
  obtain ⟨v, hv⟩ := run_eq_none_iff.mp h n
  exact hsteps hv

/-! ### Inductions over a run -/

/-- A property that every step keeps holds wherever steps lead. -/
theorem steps_induct {P : Thread → Prop} (hstep : ∀ t u, P t → k.step t = .next u → P u)
    {n : Nat} {t u : Thread} (ht : P t) (h : k.steps n t = .next u) : P u := by
  induction n generalizing u with
  | zero =>
    obtain rfl := Outcome.next.inj h
    exact ht
  | succ n ih =>
    rw [steps_succ] at h
    cases hn : k.steps n t with
    | next v =>
      rw [hn] at h
      exact hstep v u (ih hn) h
    | done s v =>
      rw [hn] at h
      cases h
    | stray =>
      rw [hn] at h
      cases h

/-- Runs whose steps match stay matched. -/
theorem steps_simulation {R : Thread → Thread → Prop}
    (hstep : ∀ t u t', R t u → k.step t = .next t' → ∃ u', k'.step u = .next u' ∧ R t' u')
    {n : Nat} {t t' u : Thread} (h : R t u) (hn : k.steps n t = .next t') :
    ∃ u', k'.steps n u = .next u' ∧ R t' u' := by
  induction n generalizing t' with
  | zero =>
    obtain rfl := Outcome.next.inj hn
    exact ⟨u, rfl, h⟩
  | succ n ih =>
    rw [steps_succ] at hn
    cases hv : k.steps n t with
    | next v =>
      rw [hv] at hn
      obtain ⟨w, hw, hR⟩ := ih hv
      obtain ⟨w', hw', hR'⟩ := hstep v w t' hR hn
      refine ⟨w', ?_, hR'⟩
      rw [steps_succ, hw]
      exact hw'
    | done s v =>
      rw [hv] at hn
      cases hn
    | stray =>
      rw [hv] at hn
      cases hn

/-! ### What a run passes -/

/-- Whether a thread is about to push and then check the limit of the stack. -/
def pushesChecked (k : Task) (t : Thread) : Bool :=
  match k.move t with
  | .push _ checked => checked
  | _ => false

/-- The number of pushes without a limit check since the last one with it, after a step. -/
def uncheckedAfter (k : Task) (unchecked : Nat) (t : Thread) : Nat :=
  match k.move t with
  | .push _ true => 0
  | .push _ false => unchecked + 1
  | _ => unchecked

/-- A run from `t₀` passes `t`, and `unchecked` pushes were made since the last limit check. -/
inductive Passes (k : Task) (t₀ : Thread) : Thread → (unchecked : Nat) → Prop
  /-- It starts there. -/
  | start : Passes k t₀ t₀ 0
  /-- It gets there by a step. -/
  | step {t t' : Thread} {unchecked : Nat} : Passes k t₀ t unchecked → k.step t = .next t' →
      Passes k t₀ t' (k.uncheckedAfter unchecked t)

/-- A run goes on from every thread it passes. -/
theorem Passes.run_eq {t₀ t : Thread} {unchecked : Nat} (h : k.Passes t₀ t unchecked) :
    k.run t₀ = k.run t := by
  induction h with
  | start => rfl
  | step _ hs ih => rw [ih, Task.run_eq, hs]; rfl

/-- A run passes every thread that its steps lead to. -/
theorem exists_passes_of_steps {n : Nat} {t₀ t : Thread} (h : k.steps n t₀ = .next t) :
    ∃ unchecked, k.Passes t₀ t unchecked :=
  steps_induct (P := fun t => ∃ unchecked, k.Passes t₀ t unchecked)
    (fun _ _ ⟨_, hp⟩ hs => ⟨_, hp.step hs⟩) ⟨0, .start⟩ h

end Task

end NativeMatcher
