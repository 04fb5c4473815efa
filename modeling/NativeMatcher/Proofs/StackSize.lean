import NativeMatcher.Proofs.Attempt

/-!
# How large the backtrack stack gets

The backtrack stack of an engine starts at some size and doubles on demand, up to the largest
size below the configured maximum (`NativeMatcher.Config.largestSize`). How far it grows is
decided push by push, by comparing a pointer with a limit that moves with every doubling. Here
that is turned into a statement about a match as a whole, in terms of the numbers of live
entries that its checked pushes leave and of nothing else.

* A match overflows its stack exactly if some checked push comes within the entries kept free
  of the *largest* size (`NativeMatcher.Task.exception_iff`), whatever the size was when it
  started.
* Otherwise its stack ends at the *least* size, among those that doubling can give, that
  holds what it started with and leaves more than the entries kept free at every checked push.
  That it is enough is kept by every later step; that nothing less would do is the other
  direction: a size that is enough for all pushes is never overtaken
  (`NativeMatcher.Task.reaches_of_passes`).

The two are put together in `NativeMatcher.Engine.stack_size`.
-/

namespace NativeMatcher

open Backtrack

/-! ### The sizes a stack can have -/

namespace Config

variable {c : Config}

theorem minStack_le_firstSize (h : c.error? = none) : 1024 ≤ c.firstSize := by
  have hmin : minStack ≤ c.initialStack := (error?_eq_none_iff.mp h).1
  have hfirst : c.firstSize = 4 * (c.initialStack / 4) := rfl
  have : minStack = 1024 := rfl
  omega

theorem firstSize_le_maxStack (h : c.error? = none) : c.firstSize ≤ c.maxStack := by
  have hmax : c.initialStack ≤ c.maxStack := (error?_eq_none_iff.mp h).2.1
  have hfirst : c.firstSize = 4 * (c.initialStack / 4) := rfl
  omega

/-- The largest size the stack can double to is within the maximum, as long as the first one is. -/
theorem largestSize_le_maxStack (h : c.error? = none) : c.largestSize ≤ c.maxStack := by
  have hpos := minStack_le_firstSize h
  have hle := firstSize_le_maxStack h
  have hdiv : c.maxStack / c.firstSize ≠ 0 := Nat.ne_of_gt (Nat.div_pos hle (by omega))
  calc c.firstSize * 2 ^ Nat.log 2 (c.maxStack / c.firstSize)
      ≤ c.firstSize * (c.maxStack / c.firstSize) :=
        Nat.mul_le_mul_left _ (Nat.pow_log_le_self 2 hdiv)
    _ ≤ c.maxStack := Nat.mul_div_le _ _

/-- One more doubling exceeds the maximum. -/
theorem maxStack_lt_largestSize (h : c.error? = none) : c.maxStack < c.largestSize * 2 := by
  have hpos := minStack_le_firstSize h
  have hlog := Nat.lt_pow_succ_log_self (show 1 < 2 by decide) (c.maxStack / c.firstSize)
  have hlt := (Nat.div_lt_iff_lt_mul (show 0 < c.firstSize by omega)).mp hlog
  rw [largestSize, Nat.mul_assoc, ← Nat.pow_succ, Nat.mul_comm]
  exact hlt

/-- A size that doubling can give reaches the largest size by more doubling. -/
theorem exists_mul_eq_largestSize (h : c.error? = none) {n : Nat}
    (hle : c.firstSize * 2 ^ n ≤ c.maxStack) :
    ∃ d, c.firstSize * 2 ^ n * 2 ^ d = c.largestSize := by
  have hpos := minStack_le_firstSize h
  have hn : n ≤ Nat.log 2 (c.maxStack / c.firstSize) := by
    refine Nat.le_log_of_pow_le (by decide) ?_
    rw [Nat.le_div_iff_mul_le (by omega), Nat.mul_comm]
    exact hle
  refine ⟨Nat.log 2 (c.maxStack / c.firstSize) - n, ?_⟩
  rw [largestSize, Nat.mul_assoc, ← Nat.pow_add, Nat.add_sub_cancel' hn]

/-- **The largest size is the greatest one that doubling can give within the maximum.** -/
theorem isGreatest_largestSize (h : c.error? = none) :
    IsGreatest {s | s ≤ c.maxStack ∧ ∃ n, s = c.firstSize * 2 ^ n} c.largestSize := by
  refine ⟨⟨largestSize_le_maxStack h, _, rfl⟩, ?_⟩
  rintro s ⟨hle, n, rfl⟩
  obtain ⟨d, hd⟩ := exists_mul_eq_largestSize h hle
  rw [← hd]
  exact Nat.le_mul_of_pos_right _ (Nat.two_pow_pos d)

/-- Of two sizes that doubling can give, the greater is the smaller one doubled. -/
theorem exists_mul_eq_of_le {m n : Nat} (hpos : 0 < c.firstSize)
    (hle : c.firstSize * 2 ^ m ≤ c.firstSize * 2 ^ n) :
    ∃ d, c.firstSize * 2 ^ m * 2 ^ d = c.firstSize * 2 ^ n := by
  have hmn : m ≤ n := (Nat.pow_le_pow_iff_right (by decide)).mp (Nat.le_of_mul_le_mul_left hle hpos)
  refine ⟨n - m, ?_⟩
  rw [Nat.mul_assoc, ← Nat.pow_add, Nat.add_sub_cancel' hmn]

end Config

/-! ### One step -/

namespace Task

variable {k : Task} {t t' : Thread} {cap unchecked : Nat}

/-- The move of a thread that is about to make a checked push. -/
theorem exists_push_of_pushesChecked (h : k.pushesChecked t = true) :
    ∃ e, k.move t = .push e true := by
  unfold pushesChecked at h
  cases hm : k.move t with
  | push e checked =>
    simp only [hm] at h
    exact ⟨e, by rw [h]⟩
  | _ =>
    simp only [hm] at h
    cases h

theorem pushesChecked_of_push {e : UInt32} {checked : Bool} (hm : k.move t = .push e checked) :
    k.pushesChecked t = checked := by
  rw [pushesChecked, hm]

theorem pushesChecked_of_ne_push (hm : ∀ e checked, k.move t ≠ .push e checked) :
    k.pushesChecked t = false := by
  rw [Bool.eq_false_iff]
  intro hpush
  obtain ⟨e, he⟩ := exists_push_of_pushesChecked hpush
  exact hm e true he

/-- **A checked push ends a run exactly if it comes too near to the largest size**, and nothing
else reports a full stack. -/
theorem step_eq_exception_iff (h : t.Tidy cap unchecked) (hset : k.Settled t) :
    (∃ t', k.step t = .done .exception t') ↔ k.pushesChecked t = true ∧
      cap ≤ 4 * (t.entries + 1) + 4 * Assembler.stackLimitSlack := by
  rcases step_cases h hset with ⟨e, u, hm, hfull, hdone, -⟩ | ⟨e, checked, u, hm, hroom, hnext, -⟩ |
    ⟨hm, hkeeps⟩
  · rw [pushesChecked_of_push hm]
    exact ⟨fun _ => ⟨rfl, hfull⟩, fun _ => ⟨u, hdone⟩⟩
  · rw [pushesChecked_of_push hm, hnext]
    refine ⟨?_, fun hcon => absurd hcon hroom⟩
    rintro ⟨t', hcon⟩
    cases hcon
  · rw [pushesChecked_of_ne_push hm]
    refine ⟨?_, fun hcon => by cases hcon.1⟩
    rintro ⟨t', hcon⟩
    rw [hcon] at hkeeps
    exact absurd rfl hkeeps.1

/-- A run that reports a full stack has the largest one. -/
theorem size_of_step_eq_exception (h : t.Tidy cap unchecked) (hset : k.Settled t)
    (hs : k.step t = .done .exception t') : t'.stack.size = cap := by
  rcases step_cases h hset with ⟨e, u, -, -, hdone, hsize⟩ | ⟨e, checked, u, -, -, hnext, -⟩ |
    ⟨-, hkeeps⟩
  · rw [hdone] at hs
    obtain ⟨-, rfl⟩ := Outcome.done.inj hs
    exact hsize
  · rw [hnext] at hs
    cases hs
  · rw [hs] at hkeeps
    exact absurd rfl hkeeps.1

/-- A run that ends otherwise makes no push in its last step, and ends with the memory it has. -/
theorem size_of_done (h : t.Tidy cap unchecked) (hset : k.Settled t) {s : Status}
    (hs : k.step t = .done s t') (hne : s ≠ .exception) :
    k.pushesChecked t = false ∧ t'.stack.size = t.stack.size := by
  rcases step_cases h hset with ⟨e, u, -, -, hdone, -⟩ | ⟨e, checked, u, -, -, hnext, -⟩ |
    ⟨hm, hkeeps⟩
  · rw [hdone] at hs
    exact absurd (Outcome.done.inj hs).1.symm hne
  · rw [hnext] at hs
    cases hs
  · rw [hs] at hkeeps
    exact ⟨pushesChecked_of_ne_push hm, congrArg Stack.size hkeeps.2⟩

/-- What a step that goes on does to the size. -/
theorem size_of_next (h : t.Tidy cap unchecked) (hset : k.Settled t)
    (hs : k.step t = .next t') :
    t'.stack.size =
      if k.pushesChecked t = true ∧
          t.stack.size ≤ 4 * (t.entries + 1) + 4 * Assembler.stackLimitSlack then
        t.stack.size * 2
      else t.stack.size := by
  rcases step_cases h hset with ⟨e, u, -, -, hdone, -⟩ | ⟨e, checked, u, hm, -, hnext, hpushed⟩ |
    ⟨hm, hkeeps⟩
  · rw [hdone] at hs
    cases hs
  · rw [hnext] at hs
    obtain rfl := Outcome.next.inj hs
    rw [pushesChecked_of_push hm]
    exact hpushed.size
  · rw [hs] at hkeeps
    rw [pushesChecked_of_ne_push hm, if_neg (fun hcon => by cases hcon.1)]
    exact congrArg Stack.size hkeeps

/-- After a checked push more is left than the entries kept free. -/
theorem lt_size_of_next (h : t.Tidy cap unchecked) (hset : k.Settled t)
    (hs : k.step t = .next t') (hpush : k.pushesChecked t = true) :
    4 * (t.entries + 1) + 4 * Assembler.stackLimitSlack < t'.stack.size := by
  have hsize := size_of_next h hset hs
  have hroom := h.room
  have hlarge := h.large
  have hfew := h.few
  have hfour : t.stack.size = t.stack.capacity * 4 := rfl
  simp only [hpush, true_and] at hsize
  split at hsize <;> omega

/-- A size that is enough for a push is not overtaken by it. -/
theorem reaches_of_next (h : t.Tidy cap unchecked) (hset : k.Settled t)
    (hs : k.step t = .next t') {s : Nat} (hreach : ∃ n, t.stack.size * 2 ^ n = s)
    (henough : k.pushesChecked t = true →
      4 * (t.entries + 1) + 4 * Assembler.stackLimitSlack < s) :
    ∃ n, t'.stack.size * 2 ^ n = s := by
  have hsize := size_of_next h hset hs
  split at hsize
  · next hgrow =>
    obtain ⟨n, hn⟩ := hreach
    have hlt := henough hgrow.1
    cases n with
    | zero =>
      rw [Nat.pow_zero, Nat.mul_one] at hn
      omega
    | succ n =>
      refine ⟨n, ?_⟩
      rw [hsize, ← hn, Nat.pow_succ, Nat.mul_assoc, Nat.mul_comm 2]
  · rw [hsize]
    exact hreach

/-! ### A whole run -/

section Run

variable {t₀ : Thread} (h₀ : t₀.Tidy cap 0) (hset₀ : k.Settled t₀)
  (ho : ∀ t unchecked, k.Passes t₀ t unchecked → k.Orderly unchecked t)

include h₀ hset₀ ho

/-- **A run reports a full stack exactly if a checked push comes too near to the largest size.** No
poll can report one here, since the thread is settled. -/
theorem exception_iff :
    (∃ u, k.run t₀ = some (.done .exception u)) ↔
      ∃ t unchecked, k.Passes t₀ t unchecked ∧ k.pushesChecked t = true ∧
        cap ≤ 4 * (t.entries + 1) + 4 * Assembler.stackLimitSlack := by
  constructor
  · rintro ⟨u, hu⟩
    obtain ⟨n, v, hn, hv⟩ := exists_last_step hu
    obtain ⟨unchecked, hp⟩ := exists_passes_of_steps hn
    obtain ⟨htidy, hset⟩ := tidy_of_passes h₀ hset₀ ho hp
    obtain ⟨hpush, hfull⟩ := (step_eq_exception_iff htidy hset).mp ⟨u, hv⟩
    exact ⟨v, unchecked, hp, hpush, hfull⟩
  · rintro ⟨t, unchecked, hp, hpush, hfull⟩
    obtain ⟨htidy, hset⟩ := tidy_of_passes h₀ hset₀ ho hp
    obtain ⟨u, hu⟩ := (step_eq_exception_iff htidy hset).mpr ⟨hpush, hfull⟩
    refine ⟨u, ?_⟩
    rw [hp.run_eq, run_eq, hu]
    rfl

/-- A run that reports a full stack leaves it at its largest size. -/
theorem size_of_exception {u : Thread} (hu : k.run t₀ = some (.done .exception u)) :
    u.stack.size = cap := by
  obtain ⟨n, v, hn, hv⟩ := exists_last_step hu
  obtain ⟨unchecked, hp⟩ := exists_passes_of_steps hn
  obtain ⟨htidy, hset⟩ := tidy_of_passes h₀ hset₀ ho hp
  exact size_of_step_eq_exception htidy hset hv

/-- A size that is enough for every push of a run is never overtaken. -/
theorem reaches_of_passes {s : Nat} (hreach : ∃ n, t₀.stack.size * 2 ^ n = s)
    (henough : ∀ t unchecked, k.Passes t₀ t unchecked → k.pushesChecked t = true →
      4 * (t.entries + 1) + 4 * Assembler.stackLimitSlack < s)
    (hp : k.Passes t₀ t unchecked) : ∃ n, t.stack.size * 2 ^ n = s := by
  induction hp with
  | start => exact hreach
  | @step t t' unchecked hp hs ih =>
    obtain ⟨htidy, hset⟩ := tidy_of_passes h₀ hset₀ ho hp
    exact reaches_of_next htidy hset hs ih (henough t unchecked hp)

/-- What is passed before the end of a run has no more memory than what is there at the
end. -/
theorem lt_size_of_run {u : Thread} {s : Status} (hu : k.run t₀ = some (.done s u))
    (hne : s ≠ .exception) (hp : k.Passes t₀ t unchecked) (hpush : k.pushesChecked t = true) :
    4 * (t.entries + 1) + 4 * Assembler.stackLimitSlack < u.stack.size := by
  obtain ⟨htidy, hset⟩ := tidy_of_passes h₀ hset₀ ho hp
  rw [hp.run_eq, run_eq] at hu
  cases hs : k.step t with
  | next t' =>
    rw [hs] at hu
    have hlt := lt_size_of_next htidy hset hs hpush
    exact Nat.lt_of_lt_of_le hlt (grown_of_run hu).size_le
  | done s' u' =>
    -- A checked push does not end a run in any other way.
    rw [hs] at hu
    obtain ⟨rfl, rfl⟩ := Ending.done.inj (Option.some.inj hu)
    rw [(size_of_done htidy hset hs hne).1] at hpush
    cases hpush
  | stray =>
    rw [hs] at hu
    cases hu

/-- Nothing less than the size at the end of a run is enough for it. -/
theorem size_le_of_run {u : Thread} {s : Status} (hu : k.run t₀ = some (.done s u))
    (hne : s ≠ .exception) {size : Nat} (hreach : ∃ n, t₀.stack.size * 2 ^ n = size)
    (henough : ∀ t unchecked, k.Passes t₀ t unchecked → k.pushesChecked t = true →
      4 * (t.entries + 1) + 4 * Assembler.stackLimitSlack < size) : u.stack.size ≤ size := by
  obtain ⟨n, v, hn, hv⟩ := exists_last_step hu
  obtain ⟨unchecked, hp⟩ := exists_passes_of_steps hn
  obtain ⟨htidy, hset⟩ := tidy_of_passes h₀ hset₀ ho hp
  obtain ⟨d, hd⟩ := reaches_of_passes h₀ hset₀ ho hreach henough hp
  rw [(size_of_done htidy hset hv hne).2, ← hd]
  exact Nat.le_mul_of_pos_right _ (Nat.two_pow_pos d)

end Run

end Task

/-! ### A match -/

namespace Engine

variable {c : Config} {e : Engine} {h : Handle} {m : Matcher} {subject : Subject} {start : Nat}
  {output : Array Int32} {a : Attempt} {t : Thread}

/-- The run of an attempt that gets past its first poll starts tidy. The stack is empty, polls are
out of the way, and the memory is of a size that the engine may have. -/
theorem Opens.begin_cases (ho : e.Opens m subject start output a t) (hs : e.Sane c) :
    a.begin = .stray ∨ ∃ t₀, a.begin = .next t₀ ∧ t₀.Tidy c.largestSize 0 ∧
      a.task.Settled t₀ ∧ t₀.stack = e.stack := by
  obtain ⟨guard, limit, polls, relocations, hentry⟩ := ho.entry
  have hfirst := Config.minStack_le_firstSize hs.valid
  have hslack : Assembler.stackLimitSlack = 32 := rfl
  have hlarge : 1024 ≤ e.stack.size := by
    rw [hs.size]
    exact Nat.le_trans hfirst (Nat.le_mul_of_pos_right _ (Nat.two_pow_pos _))
  have hword : 18446744073709551616 = 2 ^ 64 := rfl
  have hmax : c.maxStack < 2 ^ 64 := hs.words.maxStack
  rw [Attempt.begin_of_opened ho.poll]
  rcases a.task.restart_cases t with hstart | ⟨c, hstart⟩
  · exact Or.inl hstart
  · rw [hstart]
    refine Or.inr ⟨_, rfl, ?_, ho.settled.of_sameHost ⟨rfl, rfl, rfl, rfl⟩, by rw [hentry]; rfl⟩
    have hstack : t.stack = e.stack := by rw [hentry]; rfl
    have hdepth : t.depth = 0 := by rw [hentry]; rfl
    constructor
    · exact (congrArg Stack.slack hstack).trans hs.slack
    · simp only [hstack]
      omega
    · simp only [hstack, hs.size]
      refine Config.exists_mul_eq_largestSize hs.valid ?_
      rw [← hs.size]
      exact hs.size_le
    · simp only [hstack, hs.maxBytes]
      exact Config.largestSize_le_maxStack hs.valid
    · simp only [hstack, hs.maxBytes]
      exact Config.maxStack_lt_largestSize hs.valid
    · simp only [hstack, hs.maxBytes, hword]
      exact hmax
    · simp only [Thread.entries, hdepth]
      rfl
    · exact Nat.zero_le _
    · simp only [Thread.entries, hdepth, hstack]
      omega

/-- An attempt passes what the run from its start passes. -/
theorem passes_iff_of_begin {t₀ u : Thread} {n : Nat} (hb : a.begin = .next t₀) :
    a.Passes u n ↔ a.task.Passes t₀ u n := by
  constructor
  · rintro ⟨t₁, hb', hp⟩
    rw [hb] at hb'
    obtain rfl := Outcome.next.inj hb'
    exact hp
  · exact fun hp => ⟨t₀, hb, hp⟩

section Opened

variable (ho : e.Opens m subject start output a t) (hs : e.Sane c) (hord : a.Orderly)

include ho hs hord

/-- An attempt overflows the backtrack stack exactly if some push finds less than the slack left in
the largest stack. One direction is what a push that fails has found; the other is that the sizes
before it only double. -/
theorem Opens.overflow_iff :
    (∃ u, a.ending = some (.done .exception u)) ↔
      ∃ live, a.PushesAt live ∧ c.largestSize ≤ 4 * live + 4 * Assembler.stackLimitSlack := by
  rcases ho.begin_cases hs with hb | ⟨t₀, hb, htidy, hset, -⟩
  · constructor
    · rintro ⟨u, hu⟩
      rw [Attempt.ending_of_stray hb] at hu
      cases hu
    · rintro ⟨live, ⟨u, n, ⟨t₀, hb', -⟩, -⟩, -⟩
      rw [hb] at hb'
      cases hb'
  · have hord' : ∀ u n, a.task.Passes t₀ u n → a.task.Orderly n u :=
      fun u n hp => hord u n ((passes_iff_of_begin hb).mpr hp)
    rw [Attempt.ending_of_begin hb, Task.exception_iff htidy hset hord']
    constructor
    · rintro ⟨u, n, hp, hpush, hfull⟩
      exact ⟨_, ⟨u, n, (passes_iff_of_begin hb).mpr hp, hpush, rfl⟩, hfull⟩
    · rintro ⟨live, ⟨u, n, hp, hpush, rfl⟩, hfull⟩
      exact ⟨u, n, (passes_iff_of_begin hb).mp hp, hpush, hfull⟩

/-- An attempt that overflows has grown the stack as far as it goes. -/
theorem Opens.size_of_overflow {u : Thread} (hu : a.ending = some (.done .exception u)) :
    u.stack.size = c.largestSize := by
  rcases ho.begin_cases hs with hb | ⟨t₀, hb, htidy, hset, -⟩
  · rw [Attempt.ending_of_stray hb] at hu
    cases hu
  · rw [Attempt.ending_of_begin hb] at hu
    exact Task.size_of_exception htidy hset
      (fun u n hp => hord u n ((passes_iff_of_begin hb).mpr hp)) hu

/-- The size that an attempt leaves is the least one that is enough for it. It is enough, since each
checked push leaves room behind it; and it is the least, since it grows only if a push finds too
little. -/
theorem Opens.isLeast_size {u : Thread} {s : Status} (hu : a.ending = some (.done s u))
    (hne : s ≠ .exception) :
    IsLeast {size | (∃ n, size = c.firstSize * 2 ^ n) ∧ e.stack.size ≤ size ∧
      ∀ live, a.PushesAt live → 4 * live + 4 * Assembler.stackLimitSlack < size}
      u.stack.size := by
  rcases ho.begin_cases hs with hb | ⟨t₀, hb, htidy, hset, hstack⟩
  · rw [Attempt.ending_of_stray hb] at hu
    cases hu
  · rw [Attempt.ending_of_begin hb] at hu
    have hord' : ∀ u n, a.task.Passes t₀ u n → a.task.Orderly n u :=
      fun u n hp => hord u n ((passes_iff_of_begin hb).mpr hp)
    have hgrown := Task.grown_of_run hu
    refine ⟨⟨?_, ?_, ?_⟩, ?_⟩
    · obtain ⟨n, -, hn⟩ := hgrown.size
      refine ⟨e.stats.stackGrowths + n, ?_⟩
      rw [hn, hstack, hs.size, Nat.mul_assoc, ← Nat.pow_add]
    · rw [← hstack]
      exact hgrown.size_le
    · rintro live ⟨v, n, hp, hpush, rfl⟩
      exact Task.lt_size_of_run htidy hset hord' hu hne ((passes_iff_of_begin hb).mp hp) hpush
    · rintro size ⟨⟨n, rfl⟩, hle, henough⟩
      refine Task.size_le_of_run htidy hset hord' hu hne ?_ fun v n hp hpush => ?_
      · have hfirst := Config.minStack_le_firstSize hs.valid
        rw [hs.size] at hle
        rw [hstack, hs.size]
        exact Config.exists_mul_eq_of_le (by omega) hle
      · exact henough _ ⟨v, n, (passes_iff_of_begin hb).mpr hp, hpush, rfl⟩

/-- The size that a match leaves, if this attempt decides it. -/
theorem Opens.size_of_conclude {e' : Engine} {r : Result Status}
    (hr : e'.conclude h output a.ending = some r)
    (hstray : r.counted.answer ≠ .error .stray) :
    (r.counted.answer = .error .stackOverflow → r.engine.stack.size = c.largestSize) ∧
      (r.counted.answer ≠ .error .stackOverflow →
        IsLeast {size | (∃ n, size = c.firstSize * 2 ^ n) ∧ e.stack.size ≤ size ∧
          ∀ live, a.PushesAt live → 4 * live + 4 * Assembler.stackLimitSlack < size}
          r.engine.stack.size) := by
  rcases conclude_cases hr with ⟨-, rfl⟩ | ⟨s, u, hend, rfl⟩
  · exact absurd rfl hstray
  · refine ⟨fun hover => ?_, fun hnot => ?_⟩
    · obtain rfl := answerOf_eq_stackOverflow_iff.mp hover
      exact ho.size_of_overflow hs hord hend
    · have hne : s ≠ .exception := by
        rintro rfl
        exact hnot rfl
      exact ho.isLeast_size hs hord hend hne

end Opened

/-- What a match says of a full stack, in terms of how its attempt ends. -/
theorem overflow_iff_of_conclude {e' : Engine} {x : Option Ending} :
    (∃ r, (e'.conclude h output x).map Result.counted = some r ∧
        r.answer = .error .stackOverflow) ↔
      ∃ u, x = some (.done .exception u) := by
  constructor
  · rintro ⟨r, hr, hover⟩
    obtain ⟨r', hr', rfl⟩ := Option.map_eq_some_iff.mp hr
    rcases conclude_cases hr' with ⟨-, rfl⟩ | ⟨s, u, rfl, rfl⟩
    · cases hover
    · obtain rfl := answerOf_eq_stackOverflow_iff.mp hover
      exact ⟨u, rfl⟩
  · rintro ⟨u, rfl⟩
    exact ⟨_, rfl, rfl⟩

/-- **How large the backtrack stack gets.** It has the first size, doubled once for every
growth counted, within the maximum, and it never shrinks. A match overflows it exactly if a
checked push comes within the entries kept free of the largest size, and then it has that size;
otherwise a match leaves it at the least size that is enough for every checked push. Nothing is
said of the size that a match leaves whose program goes astray. -/
theorem stack_size (he : e.Reachable c) :
    IsGreatest {s | s ≤ c.maxStack ∧ ∃ n, s = c.firstSize * 2 ^ n} c.largestSize ∧
    e.stack.size = c.firstSize * 2 ^ e.stats.stackGrowths ∧ e.stack.size ≤ c.maxStack ∧
    (∀ op e', e.after op = some e' → e.stack.size ≤ e'.stack.size) ∧
    ∀ h m subject start output, e.check h subject start output.size = .ok m →
      m.Fits e → (∀ a ∈ e.tries h m subject start output, a.Orderly) →
      ((∃ r, e.exec h subject start output = some r ∧ r.answer = .error .stackOverflow) ↔
        ∃ a ∈ e.tries h m subject start output, ∃ live, a.PushesAt live ∧
          c.largestSize ≤ 4 * live + 128) ∧
      ∀ r, e.exec h subject start output = some r → r.answer ≠ .error .stray →
        (r.answer = .error .stackOverflow → r.engine.stack.size = c.largestSize) ∧
        (r.answer ≠ .error .stackOverflow →
          IsLeast {size | (∃ n, size = c.firstSize * 2 ^ n) ∧ e.stack.size ≤ size ∧
            ∀ a ∈ e.tries h m subject start output, ∀ live, a.PushesAt live →
              4 * live + 128 < size} r.engine.stack.size) := by
  have hs := he.sane
  refine ⟨Config.isGreatest_largestSize hs.valid, hs.size, hs.size_le,
    fun op e' hop => (kept_after hop).stack_size_le, ?_⟩
  intro h m subject start output hcheck hfits hord
  by_cases hgo : e.guard.isRaised = true →
      e.guard.intersects Interrupt.terminate = false ∧ c.maxRetries ≠ 0
  · obtain ⟨e', a, t, ho, hothers, hmem, hexec⟩ := exists_decisive hs hcheck hfits hgo
    have horda := hord a hmem
    -- Of the attempts only the last one pushes anything.
    have honly : ∀ b ∈ e.tries h m subject start output, ∀ live, b.PushesAt live →
        a.PushesAt live := by
      rintro b hb live ⟨u, n, hp, hpush⟩
      rcases hothers b hb with rfl | hnone
      · exact ⟨u, n, hp, hpush⟩
      · exact absurd hp (hnone u n)
    rw [hexec]
    refine ⟨?_, fun r hr hstray => ?_⟩
    · rw [overflow_iff_of_conclude, ho.overflow_iff hs horda]
      constructor
      · rintro ⟨live, hpush, hfull⟩
        exact ⟨a, hmem, live, hpush, hfull⟩
      · rintro ⟨b, hb, live, hpush, hfull⟩
        exact ⟨live, honly b hb live hpush, hfull⟩
    · obtain ⟨r', hr', rfl⟩ := Option.map_eq_some_iff.mp hr
      obtain ⟨hlargest, hleast⟩ := ho.size_of_conclude hs horda hr' hstray
      refine ⟨hlargest, fun hnot => ?_⟩
      obtain ⟨⟨hn, hle, henough⟩, hleast⟩ := hleast hnot
      refine ⟨⟨hn, hle, fun b hb live hpush => henough live (honly b hb live hpush)⟩, ?_⟩
      rintro size ⟨hn', hle', henough'⟩
      exact hleast ⟨hn', hle', fun live hpush => henough' a hmem live hpush⟩
  · obtain ⟨hraised, hend⟩ : e.guard.isRaised = true ∧
        (e.guard.intersects Interrupt.terminate = true ∨ c.maxRetries = 0) := by
      rw [Classical.not_imp, not_and_or, Bool.not_eq_false, not_not] at hgo
      exact hgo
    -- Aborted at the first poll: there is no push, and the stack stays as it is.
    have hexec := (exec_of_aborted hs hcheck hfits hraised hend).2
    have hnone := not_passes_of_aborted hs hcheck hfits hraised hend
    rw [hexec]
    refine ⟨⟨?_, ?_⟩, ?_⟩
    · rintro ⟨r, hr, hover⟩
      obtain rfl := Option.some.inj hr
      cases hover
    · rintro ⟨b, hb, live, ⟨u, n, hp, -⟩, -⟩
      exact absurd hp (hnone b hb u n)
    · intro r hr _
      obtain rfl := Option.some.inj hr
      refine ⟨fun hover => ?_, fun _ => ⟨⟨⟨_, hs.size⟩, Nat.le_refl _, ?_⟩, ?_⟩⟩
      · cases hover
      · rintro b hb live ⟨u, n, hp, -⟩
        exact absurd hp (hnone b hb u n)
      · rintro size ⟨-, hle, -⟩
        exact hle

end Engine

/-- No attempt of the sample program breaks the discipline. -/
theorem Sample.orderly_tries {e : Engine} {h : Handle} {m : Matcher} {subject : Subject}
    {start : Nat} {output : Array Int32} {o : Options} {source : String}
    (hm : Compiled Sample.finder o source m) :
    ∀ a ∈ e.tries h m subject start output, a.Orderly := by
  obtain ⟨comp, hshape⟩ := hm.shape
  intro a ha t unchecked _
  refine Task.orderly_of_no_trust ?_
  rw [Engine.matcher_of_mem_tries ha, hshape.program]
  decide

/-- The program that finds a letter, on two letters and a stack as it comes. -/
theorem Engine.stack_size_finder :
    ∃ (e : Engine) (m : Matcher), e.Reachable {} ∧
      e.check ⟨0⟩ (.latin1 #[98, 97]) 0 2 = .ok m ∧ m.Fits e ∧
      (∀ a ∈ e.tries ⟨0⟩ m (.latin1 #[98, 97]) 0 #[7, 7], a.Orderly) ∧
      ((∃ r, e.exec ⟨0⟩ (.latin1 #[98, 97]) 0 #[7, 7] = some r ∧
          r.answer = .error .stackOverflow) ↔
        ∃ a ∈ e.tries ⟨0⟩ m (.latin1 #[98, 97]) 0 #[7, 7], ∃ live, a.PushesAt live ∧
          Config.largestSize {} ≤ 4 * live + 128) := by
  have hw : Config.Words {} := by constructor <;> decide
  obtain ⟨e, m, he, hgap, -, hregs, hm, hget, hgranted⟩ :=
    Sample.exists_engine 16 hw (by decide) rfl
  have hfits : m.Fits e :=
    Sample.fits_finder hgap (congrArg Config.nativeBudget he.sane.config) hregs
  have hcheck : e.check ⟨0⟩ (.latin1 #[98, 97]) 0 (#[7, 7] : Array Int32).size = .ok m :=
    Sample.check_finder he hm hget hgranted _
  have hord : ∀ a ∈ e.tries ⟨0⟩ m (.latin1 #[98, 97]) 0 #[7, 7], a.Orderly :=
    Sample.orderly_tries hm
  obtain ⟨-, -, -, -, hexec⟩ := stack_size he
  exact ⟨e, m, he, hcheck, hfits, hord, (hexec _ _ _ _ _ hcheck hfits hord).1⟩

end NativeMatcher
