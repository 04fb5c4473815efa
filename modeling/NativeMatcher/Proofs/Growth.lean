import Mathlib.Algebra.Group.Nat.Defs
import Mathlib.Data.Nat.Log
import Mathlib.Order.Bounds.Basic
import NativeMatcher.Proofs.Poll

/-!
# How the memory of the backtrack stack grows

The memory of the backtrack stack outlives a match. A run changes its size in one way only:
it doubles, and every doubling is counted (`NativeMatcher.Thread.Grown`). This holds of every
run, also of one that misuses its stack.
-/

namespace NativeMatcher

open Backtrack

/-! ### One write, one growth -/

namespace Backtrack.Stack

/-- A write changes cells only. -/
theorem shape_write {s t : Stack} {depth : Int} {v : UInt32} (h : s.write depth v = some t) :
    t.capacity = s.capacity ∧ t.maxBytes = s.maxBytes ∧ t.slack = s.slack := by
  unfold write at h
  split at h
  · simp only at h
    split at h
    · obtain rfl := Option.some.inj h
      exact ⟨rfl, rfl, rfl⟩
    · obtain rfl := Option.some.inj h
      exact ⟨rfl, rfl, rfl⟩
  · cases h

theorem size_write {s t : Stack} {depth : Int} {v : UInt32} (h : s.write depth v = some t) :
    t.size = s.size := by
  rw [size, size, (shape_write h).1]

/-- A growth doubles the memory, within its maximum. -/
theorem shape_grow {s t : Stack} {depth depth' : Int} (h : s.grow depth = some (t, depth')) :
    t.maxBytes = s.maxBytes ∧ t.slack = s.slack ∧ s.size * 2 ≤ s.maxBytes := by
  unfold grow at h
  simp only at h
  split at h
  · next hc =>
    obtain ⟨rfl, -⟩ := Prod.mk.inj (Option.some.inj h)
    exact ⟨rfl, rfl, hc.2.1⟩
  · cases h

end Backtrack.Stack

/-! ### A run -/

namespace Thread

/-- The memory of `u` is that of `t` after some doublings, all of them counted. -/
structure Grown (t u : Thread) : Prop where
  /-- Stress is not a matter of the run. -/
  stress : u.guard.stress = t.guard.stress
  /-- The entries kept free are the same. -/
  slack : u.stack.slack = t.stack.slack
  /-- The maximum is the same. -/
  maxBytes : u.stack.maxBytes = t.stack.maxBytes
  /-- The memory doubled with every growth. -/
  size : ∃ n, u.growths = t.growths + n ∧ u.stack.size = t.stack.size * 2 ^ n
  /-- It stays within the maximum. -/
  le_maxBytes : t.stack.size ≤ t.stack.maxBytes → u.stack.size ≤ u.stack.maxBytes

/-- A thread whose stack and guard are the same has not grown. -/
theorem Grown.of_eq {t u : Thread} (hguard : u.guard = t.guard) (hstack : u.stack = t.stack)
    (hgrowths : u.growths = t.growths) : t.Grown u := by
  refine ⟨by rw [hguard], by rw [hstack], by rw [hstack], ⟨0, hgrowths, ?_⟩, ?_⟩
  · rw [hstack, Nat.pow_zero, Nat.mul_one]
  · intro h
    rw [hstack]
    exact h

theorem Grown.refl (t : Thread) : t.Grown t := .of_eq rfl rfl rfl

/-- Growths add up along a run. -/
theorem Grown.trans {t u v : Thread} (h : t.Grown u) (h' : u.Grown v) : t.Grown v := by
  obtain ⟨n, hn, hsize⟩ := h.size
  obtain ⟨n', hn', hsize'⟩ := h'.size
  refine ⟨h'.stress.trans h.stress, h'.slack.trans h.slack, h'.maxBytes.trans h.maxBytes,
    ⟨n + n', ?_, ?_⟩, fun hle => h'.le_maxBytes (h.le_maxBytes hle)⟩
  · omega
  · rw [hsize', hsize, Nat.mul_assoc, ← Nat.pow_add]

theorem Grown.size_le {t u : Thread} (h : t.Grown u) : t.stack.size ≤ u.stack.size := by
  obtain ⟨n, -, hsize⟩ := h.size
  rw [hsize]
  exact Nat.le_mul_of_pos_right _ (Nat.two_pow_pos n)

end Thread

/-- Whatever comes of a thread, its memory has grown. -/
def Outcome.Grows (o : Outcome) (t : Thread) : Prop := o.Satisfies t.Grown fun _ u => t.Grown u

theorem Outcome.Grows.andThen {o : Outcome} {f : Thread → Outcome} {t : Thread}
    (h : o.Grows t) (hf : ∀ u, (f u).Grows u) : (o.andThen f).Grows t := by
  refine Satisfies.andThen h fun u hu => ?_
  exact (hf u).imp (fun v hv => hu.trans hv) fun s v hv => hu.trans hv

theorem Outcome.Grows.of_grown {o : Outcome} {t u : Thread} (h : o.Grows u) (htu : t.Grown u) :
    o.Grows t :=
  h.imp (fun _ hv => htu.trans hv) fun _ _ hv => htu.trans hv

/-- A push grows the stack once or not at all: only if the limit is checked and reached, and the
memory may still be doubled. -/
theorem Thread.grows_push (t : Thread) (e : UInt32) (checked : Bool) :
    (t.push e checked).Grows t := by
  unfold Thread.push
  simp only
  split
  · trivial
  · next stack hw =>
    obtain ⟨-, hmax, hslack⟩ := Stack.shape_write hw
    have hsize := Stack.size_write hw
    -- The write alone leaves the size as it is.
    have hwritten : ∀ u : Thread, u.guard = t.guard → u.stack = stack → u.growths = t.growths →
        t.Grown u := by
      intro u hguard hstack hgrowths
      refine ⟨by rw [hguard], by rw [hstack, hslack], by rw [hstack, hmax], ⟨0, hgrowths, ?_⟩, ?_⟩
      · rw [hstack, hsize, Nat.pow_zero, Nat.mul_one]
      · intro hle
        rw [hstack, hsize, hmax]
        exact hle
    split
    · split
      · next grown depth hg =>
        obtain ⟨hmax', hslack', hle⟩ := Stack.shape_grow hg
        have hsize' := Stack.size_grow hg
        refine ⟨rfl, hslack'.trans hslack, hmax'.trans hmax, ⟨1, rfl, ?_⟩, fun _ => ?_⟩
        · rw [Nat.pow_one, ← hsize]
          exact hsize'
        · simp only
          rw [hsize', hmax']
          exact hle
      · exact hwritten _ rfl rfl rfl
    · exact hwritten _ rfl rfl rfl

namespace Task

variable {k : Task}

/-- A poll may change the guard and nothing about the stack. -/
theorem grows_poll (t : Thread) : (k.poll t).Grows t := by
  unfold poll
  split
  · exact .refl t
  · simp only
    split
    · exact .of_eq rfl rfl rfl
    · exact .of_eq rfl rfl rfl
    · next g moved hans =>
      have hstress : g.stress = t.guard.stress := by
        unfold Guard.answer at hans
        split at hans
        · cases hans
        · split at hans
          · split at hans <;> cases hans
          · split at hans
            · cases hans
            · simp only [Guard.take, PollAnswer.serviced.injEq] at hans
              rw [← hans.1]
      have hmem := Thread.Grown.refl t
      exact ⟨hstress, hmem.slack, hmem.maxBytes, hmem.size, hmem.le_maxBytes⟩

theorem grows_exit (t : Thread) : (k.exit t).Grows t := by
  unfold exit
  split <;> exact .refl t

/-- Neither do the poll, the count and the jump of a backtrack touch the stack. -/
theorem grows_backtrack (t : Thread) : (k.backtrack t).Grows t := by
  refine Outcome.Grows.andThen (Outcome.Grows.andThen (grows_poll t) fun u => ?_) fun u => ?_
  · unfold countBacktrack
    split
    · exact .refl u
    · simp only
      split
      · exact .of_eq rfl rfl rfl
      · split
        · exact .of_eq rfl rfl rfl
        · exact (grows_exit _).of_grown (.of_eq rfl rfl rfl)
  · unfold resume
    split
    · exact grows_exit u
    · split
      · trivial
      · split
        · trivial
        · exact .of_eq rfl rfl rfl

theorem grows_restart (t : Thread) : (k.restart t).Grows t := by
  rcases k.restart_cases t with h | ⟨c, h⟩
  · rw [h]
    trivial
  · rw [h]
    exact .of_eq rfl rfl rfl

/-- Starting over empties the stack by its pointer, without giving memory back. -/
theorem grows_succeed (t : Thread) : (k.succeed t).Grows t := by
  unfold succeed
  simp only
  split
  · split
    · exact (grows_exit _).of_grown (.of_eq rfl rfl rfl)
    · unfold startOver
      split
      · split
        · exact (grows_exit _).of_grown (.of_eq rfl rfl rfl)
        · split
          · trivial
          · exact (grows_restart _).of_grown (.of_eq rfl rfl rfl)
      · exact (grows_restart _).of_grown (.of_eq rfl rfl rfl)
  · exact .of_eq rfl rfl rfl

/-- A step grows the stack only by a push. -/
theorem grows_step (t : Thread) : (k.step t).Grows t := by
  rw [step_eq_act]
  cases k.move t with
  | go c => exact .of_eq rfl rfl rfl
  | poll pc => exact (grows_poll t).andThen fun u => .of_eq rfl rfl rfl
  | backtrack depth => exact (grows_backtrack _).of_grown (.of_eq rfl rfl rfl)
  | push e checked => exact t.grows_push e checked
  | exit => exact grows_exit t
  | succeed => exact grows_succeed t
  | stray => trivial

/-- **However a run ends, its memory has grown by counted doublings.** The size is tied to the
counter here, and not to the pushes that made the memory grow. -/
theorem grown_of_run {t u : Thread} {s : Status} (h : k.run t = some (.done s u)) : t.Grown u := by
  obtain ⟨n, v, hn, hv⟩ := exists_last_step h
  have htv : t.Grown v := by
    refine steps_induct (P := t.Grown) (fun a b ha hb => ?_) (.refl t) hn
    have hstep := grows_step (k := k) a
    rw [hb] at hstep
    exact ha.trans hstep
  have hlast := grows_step (k := k) v
  rw [hv] at hlast
  exact htv.trans hlast

/-- An attempt counts as many growths as there were doublings. -/
theorem grown_of_attempt {t u : Thread} {s : Status} (h : k.attempt t = some (.done s u)) :
    t.Grown u := by
  have hbegin := (grows_poll (k := k) t).andThen (grows_restart (k := k))
  unfold attempt at h
  cases hb : (k.poll t).andThen k.restart with
  | next v =>
    rw [hb] at h hbegin
    exact hbegin.trans (grown_of_run h)
  | done s' v =>
    rw [hb] at h hbegin
    obtain ⟨-, rfl⟩ := Ending.done.inj (Option.some.inj h)
    exact hbegin
  | stray =>
    rw [hb] at h
    cases h

end Task

end NativeMatcher
