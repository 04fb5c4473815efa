import NativeMatcher.Proofs.GlobalSearch

/-!
# What a step reports

Only a success reports anything. Every other step leaves the output and the count of matches as
they are, and if it ends the run, the answer is the number of matches so far
(`NativeMatcher.Task.silent_step`). A success adds one capture set to the output, and the run goes
on only in a global mode, with all registers unset (`NativeMatcher.Task.succeed_cases`). What was
reported stays in the output to the end of the run (`NativeMatcher.Task.output_of_run`).

Of the attempts of a match only the last gets as far as reporting something: all others ask to be
repeated (`NativeMatcher.Engine.exists_last_attempt`). So a match leaves the output of its last
attempt, and answers with its count (`NativeMatcher.Engine.exec_cases`).
-/

namespace NativeMatcher

namespace Task

variable {k : Task} {t u : Thread} {s : Status}

/-- The number of matches that a thread answers with if it ends without another one. -/
def countSoFar (k : Task) (t : Thread) : Nat :=
  if k.matcher.options.globalMode.isGlobal then t.captures else 0

/-! ### Steps that report nothing -/

/-- The outcome of something that reports nothing. -/
def Silent (k : Task) (t : Thread) (o : Outcome) : Prop :=
  o.Satisfies t.SameReport fun s u =>
    t.SameReport u ∧ ∀ n, Engine.countOf s = .ok n → n = k.countSoFar t

theorem Silent.of_sameReport {o : Outcome} (h : k.Silent u o) (htu : t.SameReport u) :
    k.Silent t o := by
  refine h.imp (fun _ hu => htu.trans hu) fun s _ ⟨hu, hcount⟩ => ⟨htu.trans hu, fun n hn => ?_⟩
  rw [hcount n hn, countSoFar, countSoFar, htu.captures]

theorem Silent.andThen {o : Outcome} {f : Thread → Outcome} (h : k.Silent t o)
    (hf : ∀ u, k.Silent u (f u)) : k.Silent t (o.andThen f) :=
  Outcome.Satisfies.andThen h fun u hu => (hf u).of_sameReport hu

/-- The exit answers with the count so far, in a global matcher, and with nothing found in any
other. -/
theorem silent_exit (t : Thread) : k.Silent t (k.exit t) := by
  unfold exit
  split
  · next hg =>
    refine ⟨.refl t, fun n hn => ?_⟩
    rw [Engine.countOf_ofCount] at hn
    rw [countSoFar, if_pos hg]
    exact (Except.ok.inj hn).symm
  · next hg =>
    refine ⟨.refl t, fun n hn => ?_⟩
    rw [countSoFar, if_neg hg]
    exact (Except.ok.inj hn).symm

/-- A poll that ends a run ends it with an error. An exhausted stack and a request to repeat are all
it can end with, and neither is a number of matches. -/
theorem silent_poll (t : Thread) : k.Silent t (k.poll t) := by
  have hunwind {s : Status} (h : t.guard.answer k.origin (returnSlot k.sp) = .unwind s) (n : Nat) :
      Engine.countOf s ≠ .ok n := by
    unfold Guard.answer at h
    split at h
    · obtain rfl := PollAnswer.unwind.inj h
      simp [Engine.countOf]
    · split at h
      · split at h
        · obtain rfl := PollAnswer.unwind.inj h
          simp [Engine.countOf]
        · cases h
      · split at h
        · obtain rfl := PollAnswer.unwind.inj h
          simp [Engine.countOf]
        · cases h
  unfold poll
  split
  · exact .refl t
  · simp only
    split
    · next s hanswer =>
      exact ⟨⟨rfl, rfl, rfl, rfl⟩, fun n hn => absurd hn (hunwind hanswer n)⟩
    · exact ⟨rfl, rfl, rfl, rfl⟩
    · exact ⟨rfl, rfl, rfl, rfl⟩

/-- Counting a backtrack may end the run, through the exit or with the request for a fallback, and
the latter is not a number of matches. -/
theorem silent_countBacktrack (t : Thread) : k.Silent t (k.countBacktrack t) := by
  unfold countBacktrack
  split
  · exact .refl t
  · simp only
    split
    · exact ⟨rfl, rfl, rfl, rfl⟩
    · split
      · exact ⟨⟨rfl, rfl, rfl, rfl⟩, fun n hn => by cases hn⟩
      · exact (silent_exit _).of_sameReport ⟨rfl, rfl, rfl, rfl⟩

/-- A backtrack takes up an earlier place of the program, or fails through the exit. -/
theorem silent_resume (t : Thread) : k.Silent t (k.resume t) := by
  unfold resume
  split
  · exact silent_exit t
  · split
    · trivial
    · split
      · trivial
      · exact ⟨rfl, rfl, rfl, rfl⟩

/-- A push stores one entry on the stack, or ends the run with an error if the stack cannot grow. -/
theorem silent_push (t : Thread) (e : UInt32) (checked : Bool) :
    k.Silent t (t.push e checked) := by
  unfold Thread.push
  simp only
  split
  · trivial
  · split
    · split
      · exact ⟨rfl, rfl, rfl, rfl⟩
      · exact ⟨⟨rfl, rfl, rfl, rfl⟩, fun n hn => by cases hn⟩
    · exact ⟨rfl, rfl, rfl, rfl⟩

/-- **Only a success reports.** One case for each move that is not a success; the output and the
count are as they were, whether the run goes on or ends. -/
theorem silent_step (hmove : k.move t ≠ .succeed) : k.Silent t (k.step t) := by
  rw [step_eq_act]
  cases hm : k.move t with
  | go c => exact ⟨rfl, rfl, rfl, rfl⟩
  | poll pc => exact (silent_poll t).andThen fun u => ⟨rfl, rfl, rfl, rfl⟩
  | backtrack depth =>
    exact (((silent_poll _).andThen silent_countBacktrack).andThen silent_resume).of_sameReport
      ⟨rfl, rfl, rfl, rfl⟩
  | push e checked => exact silent_push t e checked
  | exit => exact silent_exit t
  | succeed => exact absurd hm hmove
  | stray => trivial

/-! ### A success -/

theorem silent_restart (t : Thread) : k.Silent t (k.restart t) := by
  rcases k.restart_cases t with h | ⟨c, h⟩
  · rw [h]
    trivial
  · rw [h]
    exact ⟨rfl, rfl, rfl, rfl⟩

theorem silent_begin (t : Thread) : k.Silent t ((k.poll t).andThen k.restart) :=
  (silent_poll t).andThen silent_restart

/-- Starting over reports nothing, and unsets the registers. -/
theorem startOver_cases (start : Int64) (t : Thread) :
    k.Silent t (k.startOver start t) ∧ ∀ u, k.startOver start t = .next u →
      u.regs = Array.replicate k.matcher.object.registers k.before := by
  have hrestart (v u : Thread) (h : k.restart v = .next u) :
      u.regs = Array.replicate k.matcher.object.registers k.before := by
    rcases k.restart_cases v with hstray | ⟨c, hnext⟩
    · rw [hstray] at h
      cases h
    · rw [hnext] at h
      obtain rfl := Outcome.next.inj h
      rfl
  unfold startOver
  split
  · split
    · exact ⟨silent_exit t, fun u h => absurd h (exit_ne_next t u)⟩
    · split
      · exact ⟨trivial, fun u h => by cases h⟩
      · exact ⟨(silent_restart _).of_sameReport ⟨rfl, rfl, rfl, rfl⟩, fun u h => hrestart _ u h⟩
  · exact ⟨silent_restart t, fun u h => hrestart t u h⟩

/-- **What a success does.** It stores a capture set. The run goes on only in a global mode, if
there is room for another one, and then with all registers unset; if it ends there, the match is
counted. -/
theorem succeed_cases (k : Task) (t : Thread) :
    (∀ u, k.succeed t = .next u → k.matcher.options.globalMode.isGlobal = true ∧
        k.matcher.program.saved + k.matcher.program.saved ≤ t.remaining ∧
        (k.turn t).SameReport u ∧
        u.regs = Array.replicate k.matcher.object.registers k.before) ∧
      ∀ s u, k.succeed t = .done s u → u.output = (k.report t).output ∧
        ∀ n, Engine.countOf s = .ok n → n = k.countSoFar t + 1 := by
  have hsucceed : k.succeed t = if k.matcher.options.globalMode.isGlobal then
      if t.remaining < k.matcher.program.saved + k.matcher.program.saved then k.exit (k.report t)
      else k.startOver (t.reg 0) (k.turn t)
    else .done (.success 1) { k.report t with captures := t.captures } := rfl
  rw [hsucceed]
  split
  · next hg =>
    have hcount {v : Thread} {n : Nat} (hv : v.captures = t.captures + 1)
        (hn : n = k.countSoFar v) : n = k.countSoFar t + 1 := by
      rw [hn, countSoFar, countSoFar, if_pos hg, if_pos hg, hv]
    split
    · refine ⟨fun u h => absurd h (exit_ne_next _ u), fun s u h => ?_⟩
      have hsilent := silent_exit (k := k) (k.report t)
      rw [h] at hsilent
      exact ⟨hsilent.1.output, fun n hn => hcount rfl (hsilent.2 n hn)⟩
    · next hroom =>
      obtain ⟨hsilent, hregs⟩ := startOver_cases (k := k) (t.reg 0) (k.turn t)
      refine ⟨fun u h => ?_, fun s u h => ?_⟩
      · rw [h] at hsilent
        exact ⟨hg, Nat.le_of_not_lt hroom, hsilent, hregs u h⟩
      · rw [h] at hsilent
        exact ⟨hsilent.1.output, fun n hn => hcount rfl (hsilent.2 n hn)⟩
  · next hg =>
    refine ⟨fun u h => (by cases h), fun s u h => ?_⟩
    obtain ⟨rfl, rfl⟩ := Outcome.done.inj h
    refine ⟨rfl, fun n hn => ?_⟩
    rw [countSoFar, if_neg hg]
    exact (Except.ok.inj hn).symm

theorem step_of_move_succeed (hmove : k.move t = .succeed) : k.step t = k.succeed t := by
  rw [step_eq_act, hmove]
  rfl

/-! ### The size of the output -/

/-- A step leaves the output as large as it is. -/
theorem size_output_step (t : Thread) :
    (k.step t).Satisfies (fun u => u.output.size = t.output.size)
      fun _ u => u.output.size = t.output.size := by
  by_cases hmove : k.move t = .succeed
  · have hreport : (k.report t).output.size = t.output.size := k.size_storeCaptures _ _ _ _
    obtain ⟨hnext, hdone⟩ := k.succeed_cases t
    rw [step_of_move_succeed hmove]
    cases hs : k.succeed t with
    | next u => exact (congrArg Array.size (hnext u hs).2.2.1.output).trans hreport
    | done s u => exact (congrArg Array.size (hdone s u hs).1).trans hreport
    | stray => trivial
  · exact (silent_step hmove).imp (fun _ h => congrArg Array.size h.output)
      fun _ _ h => congrArg Array.size h.1.output

/-- So does an attempt. -/
theorem size_output_of_attempt (h : k.attempt t = some (.done s u)) :
    u.output.size = t.output.size := by
  have hbegin := silent_begin (k := k) t
  unfold attempt at h
  cases hb : (k.poll t).andThen k.restart with
  | next t₀ =>
    rw [hb] at h hbegin
    obtain ⟨n, v, hn, hv⟩ := exists_last_step (k := k) (t := t₀) h
    have hsize : v.output.size = t₀.output.size :=
      steps_induct (P := fun v => v.output.size = t₀.output.size) (fun v w hv hs => by
        have hw := size_output_step (k := k) v
        rw [hs] at hw
        exact hw.trans hv) rfl hn
    have hlast := size_output_step (k := k) v
    rw [hv] at hlast
    have hlast : u.output.size = v.output.size := hlast
    rw [hlast, hsize, hbegin.output]
  | done s' v =>
    rw [hb] at h hbegin
    obtain ⟨-, rfl⟩ := Ending.done.inj (Option.some.inj h)
    exact congrArg Array.size hbegin.1.output
  | stray =>
    rw [hb] at h
    cases h

/-! ### What was reported stays -/

/-- A step leaves alone what was reported before. -/
theorem keeps_output_step (t : Thread) :
    (k.step t).Satisfies
      (fun u => t.outBase ≤ u.outBase ∧ ∀ n < t.outBase, u.output[n]? = t.output[n]?)
      fun _ u => ∀ n < t.outBase, u.output[n]? = t.output[n]? := by
  by_cases hmove : k.move t = .succeed
  · have hreport (n : Nat) (hn : n < t.outBase) : (k.report t).output[n]? = t.output[n]? :=
      k.getElem?_storeCaptures_of_lt _ _ hn
    obtain ⟨hnext, hdone⟩ := k.succeed_cases t
    rw [step_of_move_succeed hmove]
    cases hs : k.succeed t with
    | next u =>
      obtain ⟨-, -, hsame, -⟩ := hnext u hs
      refine ⟨?_, fun n hn => ?_⟩
      · rw [hsame.outBase]
        exact Nat.le_add_right _ _
      · rw [hsame.output]
        exact hreport n hn
    | done s u =>
      intro n hn
      rw [(hdone s u hs).1]
      exact hreport n hn
    | stray => trivial
  · refine (silent_step hmove).imp (fun u hu => ⟨Nat.le_of_eq hu.outBase.symm, fun n _ => ?_⟩)
      fun s u hu n _ => ?_
    · rw [hu.output]
    · rw [hu.1.output]

/-- So does the rest of a run. -/
theorem output_of_run (h : k.run t = some (.done s u)) {n : Nat} (hn : n < t.outBase) :
    u.output[n]? = t.output[n]? := by
  obtain ⟨count, v, hv, hlast⟩ := exists_last_step h
  have hkept : n < v.outBase ∧ v.output[n]? = t.output[n]? :=
    steps_induct (P := fun v => n < v.outBase ∧ v.output[n]? = t.output[n]?)
      (fun v w ⟨hlt, hv⟩ hs => by
        have hw := keeps_output_step (k := k) v
        rw [hs] at hw
        exact ⟨Nat.lt_of_lt_of_le hlt hw.1, (hw.2 n hlt).trans hv⟩) ⟨hn, rfl⟩ hv
  have hend := keeps_output_step (k := k) v
  rw [hlast] at hend
  exact (hend n hkept.1).trans hkept.2

end Task

/-! ### The attempt that counts -/

/-- An attempt that gets past its first poll does not ask to be repeated. -/
theorem Attempt.ne_retry_of_begin {a : Attempt} {t₀ : Thread} (hb : a.begin = .next t₀)
    (hlimit : a.entry.limit = a.entry.guard.interruptLimit) (t : Thread) :
    a.ending ≠ some (.done .retry t) := by
  obtain ⟨u, hp⟩ := exists_poll_of_begin hb
  intro hend
  exact (host_of_ending hp (Task.settled_of_poll hlimit hp) hend).1 rfl

namespace Engine

variable {h : Handle} {m : Matcher} {subject : Subject} {start : Nat} {origin : CallOrigin}
  {e : Engine} {output : Array Int32} {retries : Nat}

/-- All attempts of a match have as much room for what they report. -/
theorem size_output_of_mem_history {a : Attempt}
    (ha : a ∈ history h m subject start retries origin e output) :
    a.entry.output.size = output.size := by
  obtain ⟨_, _, output', hsize, rfl⟩ := history_induct (R := fun x y => y.2.size = x.2.size)
    (fun _ => rfl) (fun _ _ _ hxy hyz => hyz.trans hxy)
    (fun _ _ _ _ ht => Task.size_output_of_attempt ht) ha
  exact hsize

variable (h m subject start origin e output retries) in
/-- **The last attempt is the answer of a match**: those before it asked to be repeated. If it asks
for it, too, the match is aborted. -/
theorem exists_last_attempt :
    ∃ a ∈ history h m subject start retries origin e output,
      (∀ b ∈ history h m subject start retries origin e output,
        b = a ∨ ∃ t, b.ending = some (.done .retry t)) ∧
      ((∃ r, attempts h m subject start retries origin e output = some r ∧
          r.answer = .error .aborted ∧ ∃ t, a.ending = some (.done .retry t)) ∨
        ∃ e' output', attempts h m subject start retries origin e output =
          conclude e' h output' a.ending) := by
  induction retries using Nat.strong_induction_on generalizing origin e output with
  | _ retries ih =>
  let a := e.nextAttempt m subject start origin output
  by_cases hretry : ∃ t, a.ending = some (.done .retry t)
  · obtain ⟨t, ht⟩ := hretry
    have hend : (e.nextAttempt m subject start origin output).ending = some (.done .retry t) := ht
    rw [history.eq_1, attempts_eq]
    simp only [hend]
    split
    · exact ⟨a, List.mem_singleton_self _, fun b hb => Or.inl (List.mem_singleton.mp hb),
        Or.inl ⟨_, rfl, rfl, t, ht⟩⟩
    · cases retries with
      | zero =>
        exact ⟨a, List.mem_singleton_self _, fun b hb => Or.inl (List.mem_singleton.mp hb),
          Or.inl ⟨_, rfl, rfl, t, ht⟩⟩
      | succ n =>
        obtain ⟨last, hlast, hbefore, hanswer⟩ := ih n (Nat.lt_succ_self n) .runtime
          ((e.beginAttempt.absorb h t).countRetry).1 t.output
        refine ⟨last, List.mem_cons_of_mem _ hlast, fun b hb => ?_, hanswer⟩
        rcases List.mem_cons.mp hb with rfl | hb
        · exact Or.inr ⟨t, ht⟩
        · exact hbefore b hb
  · have hne (t : Thread) : a.ending ≠ some (.done .retry t) := fun ht => hretry ⟨t, ht⟩
    obtain ⟨hatt, hhistory⟩ := attempts_of_ne_retry h retries hne
    rw [hatt, hhistory]
    exact ⟨a, List.mem_singleton_self _, fun b hb => Or.inl (List.mem_singleton.mp hb),
      Or.inr ⟨e, output, rfl⟩⟩

/-- A match that does not go astray is aborted, or answers as its last attempt does. -/
theorem exec_cases {r : Result Nat} (hcheck : e.check h subject start output.size = .ok m)
    (hr : e.exec h subject start output = some r) (hstray : r.answer ≠ .error .stray) :
    (r.answer = .error .aborted ∧
        ∀ b ∈ e.tries h m subject start output, ∃ t, b.ending = some (.done .retry t)) ∨
      ∃ a ∈ e.tries h m subject start output, ∃ s t, a.ending = some (.done s t) ∧
        r.output = t.output ∧ r.answer = answerOf s ∧
        ∀ b ∈ e.tries h m subject start output, b = a ∨ ∃ t, b.ending = some (.done .retry t) := by
  obtain ⟨a, ha, hbefore, hanswer⟩ :=
    exists_last_attempt h m subject start .direct e output e.config.maxRetries
  rw [exec_of_check hcheck] at hr
  obtain ⟨r', hr', rfl⟩ := Option.map_eq_some_iff.mp hr
  rcases hanswer with ⟨r, hsome, haborted, hretry⟩ | ⟨e', output', hconclude⟩
  · obtain rfl := Option.some.inj (hsome.symm.trans hr')
    refine Or.inl ⟨?_, fun b hb => ?_⟩
    · rw [Result.counted, haborted]
      rfl
    · rcases hbefore b hb with rfl | h
      · exact hretry
      · exact h
  · rw [hconclude] at hr'
    rcases conclude_cases hr' with ⟨-, rfl⟩ | ⟨s, t, hend, rfl⟩
    · exact absurd rfl hstray
    · exact Or.inr ⟨a, ha, s, t, hend, rfl, rfl, hbefore⟩

end Engine

end NativeMatcher
