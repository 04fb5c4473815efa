import NativeMatcher.Proofs.Recorded
import NativeMatcher.Proofs.Refusal

/-!
# What a match leaves in the output

A match writes capture sets and nothing else. It puts them one after another into the output, from
its beginning on, each as wide as the program reports registers, and what comes after them is left
as it was (`NativeMatcher.Stored`). They are the capture sets of the matches that the run has
completed (`NativeMatcher.Task.reports`), also if it does not end well, and none of them comes from
an attempt that is repeated (`NativeMatcher.Engine.Completes`). What the answer tells of them is
`NativeMatcher.Engine.exec_stores`.

There is room for them because a run in a global mode starts over only with room for another one,
which is part of what the past tells of a thread (`NativeMatcher.Task.Tallied`). So each success
adds one more to those that are there (`NativeMatcher.Stored.concat`), and no other step changes
the output.
-/

namespace NativeMatcher

/-! ### Capture sets in the output -/

/-- Capture sets of a given width have been put into the output, one after another. -/
structure Stored (width : Nat) (sets : List (List Int32)) (before after : Array Int32) : Prop where
  /-- They have that width. -/
  widths : ∀ set ∈ sets, set.length = width
  /-- There is room for them. -/
  room : sets.length * width ≤ before.size
  /-- They are at the beginning of the output, and the rest of it is left as it was. -/
  output : after.toList = sets.flatten ++ before.toList.drop (sets.length * width)

namespace Stored

variable {width : Nat} {sets : List (List Int32)} {before after : Array Int32}

theorem nil (width : Nat) (before : Array Int32) : Stored width [] before before :=
  ⟨fun _ h => absurd h List.not_mem_nil, by simp, by simp⟩

theorem eq_of_nil (h : Stored width [] before after) : after = before :=
  Array.ext' (by simpa using h.output)

theorem length_flatten (h : Stored width sets before after) :
    sets.flatten.length = sets.length * width := by
  have hwidths : sets.map List.length = List.replicate sets.length width :=
    List.eq_replicate_iff.mpr ⟨List.length_map _, List.forall_mem_map.mpr h.widths⟩
  rw [List.length_flatten, hwidths, List.sum_replicate_nat]

theorem size (h : Stored width sets before after) : after.size = before.size := by
  have hroom := h.room
  have hlength := congrArg List.length h.output
  rw [List.length_append, h.length_flatten, List.length_drop] at hlength
  simp only [Array.length_toList] at hlength
  omega

/-- **A report adds a capture set.** The output is one list: the sets so far, and what was there
behind them. A report takes its place at the boundary of the two. -/
theorem concat (k : Task) (regs : Array Int64) (h : Stored width sets before after)
    (hroom : sets.length * width + width ≤ before.size) :
    Stored width (sets ++ [k.reported width regs]) before
      (k.storeCaptures width (sets.length * width) regs after) := by
  have hlength : (sets ++ [k.reported width regs]).length * width =
      sets.length * width + width := by
    rw [List.length_append, List.length_singleton, Nat.succ_mul]
  refine ⟨fun set hset => ?_, hlength ▸ hroom, ?_⟩
  · rcases List.mem_append.mp hset with hset | hset
    · exact h.widths set hset
    · rw [List.mem_singleton.mp hset, k.length_reported]
  · have htake : after.toList.take (sets.length * width) = sets.flatten := by
      rw [h.output, List.take_left' h.length_flatten]
    have hdrop : after.toList.drop (sets.length * width + width) =
        before.toList.drop (sets.length * width + width) := by
      rw [h.output, ← List.drop_drop, List.drop_left' h.length_flatten, List.drop_drop]
    rw [k.toList_storeCaptures regs (h.size ▸ hroom), htake, hdrop, hlength,
      List.flatten_append, List.flatten_singleton]

end Stored

/-! ### Along a run -/

namespace Task

variable {k : Task} {t t₀ u : Thread} {s : Status} {past : List Thread}

/-- The capture sets that were reported, the first one in front. -/
def reports (k : Task) : List Thread → List (List Int32)
  | [] => []
  | t :: past =>
    if k.opcode? t = some .succeed then
      reports k past ++ [k.reported k.matcher.program.saved t.regs]
    else reports k past

/-- There is one report for each success in the past of a thread. -/
theorem length_reports (k : Task) (past : List Thread) :
    (k.reports past).length = k.successes past := by
  induction past with
  | nil => rfl
  | cons t past ih =>
    rw [reports, successes_cons]
    split
    · rw [List.length_append, List.length_singleton, ih]
    · exact ih

/-- The output after a step. -/
def outputAfter (k : Task) (t : Thread) : Array Int32 :=
  if k.opcode? t = some .succeed then (k.report t).output else t.output

/-- A step changes the output only where it succeeds, and what it stores then is the report of that
success. -/
theorem output_step (t : Thread) :
    (k.step t).Satisfies (fun u => u.output = k.outputAfter t)
      fun _ u => u.output = k.outputAfter t := by
  unfold outputAfter
  split
  · next hop =>
    obtain ⟨hnext, hdone⟩ := k.succeed_cases t
    rw [step_of_move_succeed (move_eq_succeed_iff.mpr hop)]
    cases hs : k.succeed t with
    | next u => exact (hnext u hs).2.2.1.output
    | done s u => exact (hdone s u hs).1
    | stray => trivial
  · next hop =>
    exact (silent_step fun hmove => hop (move_eq_succeed_iff.mp hmove)).imp
      (fun _ hu => hu.output) fun _ _ hu => hu.1.output

/-- **A step stores what it reports**, after what is there. Where it stores is said by the tally of
the run, and what it stores by the registers of the thread. -/
theorem stored_step {output : Array Int32} (htally : k.Tallied past t)
    (h : Stored k.matcher.program.saved (k.reports past) output t.output) :
    Stored k.matcher.program.saved (k.reports (t :: past)) output (k.outputAfter t) := by
  unfold reports outputAfter
  split
  · have hplace : t.outBase = (k.reports past).length * k.matcher.program.saved := by
      rw [length_reports]
      exact htally.outBase
    have hleft := htally.remaining
    have hroom := htally.room
    have hsize := h.size
    rw [report, hplace]
    exact h.concat k t.regs (by omega)
  · exact h

/-- Along a run the output has the reports so far, one block after the other, and behind them what
was there before. By induction on the past; where blocks go is what the tally of the run says. -/
theorem Trail.stored (h : k.Trail t₀ past t) (h₀ : k.Tallied [] t₀) :
    Stored k.matcher.program.saved (k.reports past) t₀.output t.output := by
  induction h with
  | start => exact .nil _ _
  | @step past t u hp hs ih =>
    have houtput := output_step (k := k) t
    rw [hs] at houtput
    have houtput : u.output = k.outputAfter t := houtput
    rw [houtput]
    exact stored_step (hp.tallied h₀) ih

/-- **What a run that ends has stored**: the capture sets of the matches it has completed. If it
ends with a count, it is theirs. -/
theorem Trail.stored_of_done (h : k.Trail t₀ past t) (h₀ : k.Tallied [] t₀)
    (hs : k.step t = .done s u) :
    Stored k.matcher.program.saved (k.reports (t :: past)) t₀.output u.output ∧
      ∀ n, Engine.countOf s = .ok n → (k.reports (t :: past)).length = n := by
  have htally := h.tallied h₀
  have houtput := output_step (k := k) t
  rw [hs] at houtput
  have houtput : u.output = k.outputAfter t := houtput
  refine ⟨houtput ▸ stored_step htally (h.stored h₀), fun n hn => ?_⟩
  rw [length_reports, successes_cons, ← htally.countSoFar_eq]
  split
  · next hop =>
    rw [step_of_move_succeed (move_eq_succeed_iff.mpr hop)] at hs
    exact (((k.succeed_cases t).2 s u hs).2 n hn).symm
  · next hop =>
    have hsilent := silent_step (k := k) (t := t) fun hmove => hop (move_eq_succeed_iff.mp hmove)
    rw [hs] at hsilent
    exact (hsilent.2 n hn).symm

/-- Outside the global modes a run is done with its first match: if it reports one, it answers
with one. -/
theorem Trail.reports_of_done (h : k.Trail t₀ past t) (h₀ : k.Tallied [] t₀)
    (hs : k.step t = .done s u) (hglobal : k.matcher.options.globalMode.isGlobal = false) :
    k.reports (t :: past) = [] ∨ s = .success 1 := by
  by_cases hop : k.opcode? t = some .succeed
  · rw [step_of_move_succeed (move_eq_succeed_iff.mpr hop), succeed] at hs
    simp only [hglobal, Bool.false_eq_true, if_false] at hs
    exact Or.inr (Outcome.done.inj hs).1.symm
  · refine Or.inl (List.eq_nil_of_length_eq_zero ?_)
    rw [length_reports, successes_cons, if_neg hop]
    exact (h.tallied h₀).once hglobal

end Task

/-! ### Along a match -/

/-- An attempt is done, and these are the capture sets of the matches it has completed. -/
inductive Attempt.Completes (a : Attempt) : List (List Int32) → Prop
  /-- It has not got past its first poll. -/
  | unbegun {s : Status} {u : Thread} : a.begin = .done s u → a.Completes []
  /-- Its last step may be a success. -/
  | done {past : List Thread} {t u : Thread} {s : Status} : a.Trail past t →
      a.task.step t = .done s u → a.Completes (a.task.reports (t :: past))

/-- An attempt that asks to be repeated has completed nothing and stored nothing. -/
theorem Attempt.completes_of_retry {a : Attempt} {t : Thread}
    (hlimit : a.entry.limit = a.entry.guard.interruptLimit)
    (hend : a.ending = some (.done .retry t)) :
    a.Completes [] ∧ t.output = a.entry.output := by
  have hsilent : a.task.Silent a.entry a.begin := Task.silent_begin a.entry
  cases hb : a.begin with
  | next t₀ => exact absurd hend (ne_retry_of_begin hb hlimit t)
  | done s u =>
    change a.begin.ending a.task.run = _ at hend
    rw [hb] at hend hsilent
    obtain ⟨-, rfl⟩ := Ending.done.inj (Option.some.inj hend)
    exact ⟨.unbegun hb, hsilent.1.output⟩
  | stray =>
    rw [ending_of_stray hb] at hend
    cases hend

namespace Engine

variable {c : Config} {e : Engine} {h : Handle} {m : Matcher} {subject : Subject} {start : Nat}
  {output : Array Int32} {origin : CallOrigin} {retries : Nat}

/-- These are the capture sets of the matches that one attempt of a match has completed, and no
other attempt has completed any. -/
def Completes (e : Engine) (h : Handle) (m : Matcher) (subject : Subject) (start : Nat)
    (output : Array Int32) (sets : List (List Int32)) : Prop :=
  ∃ a ∈ e.tries h m subject start output, a.Completes sets ∧
    ∀ b ∈ e.tries h m subject start output, b = a ∨ b.Completes []

/-- All attempts of a match find the output as it was before the match. -/
theorem output_of_mem_history {a : Attempt}
    (ha : a ∈ history h m subject start retries origin e output) : a.entry.output = output := by
  obtain ⟨_, _, output', houtput, rfl⟩ := history_induct (R := fun x y => y.2 = x.2)
    (fun _ => rfl) (fun _ _ _ hxy hyz => hyz.trans hxy)
    (fun _ _ _ _ ht => (Attempt.completes_of_retry rfl ht).2) ha
  exact houtput

/-- A match that is aborted leaves the output as it was. All of its attempts asked at their first
poll to be repeated, and had stored nothing by then. -/
theorem output_of_aborted {r : Result Status}
    (hr : attempts h m subject start retries origin e output = some r)
    (haborted : r.answer.bind countOf = .error .aborted) : r.output = output := by
  induction retries using Nat.strong_induction_on generalizing origin e output with
  | _ retries ih =>
  let a := e.nextAttempt m subject start origin output
  by_cases hretry : ∃ t, a.ending = some (.done .retry t)
  · obtain ⟨t, ht⟩ := hretry
    have houtput : t.output = output := (Attempt.completes_of_retry rfl ht).2
    have hend : (e.nextAttempt m subject start origin output).ending = some (.done .retry t) := ht
    rw [attempts_eq] at hr
    simp only [hend] at hr
    split at hr
    · obtain rfl := Option.some.inj hr
      exact houtput
    · cases retries with
      | zero =>
        obtain rfl := Option.some.inj hr
        exact houtput
      | succ n => exact (ih n (Nat.lt_succ_self n) hr).trans houtput
  · have hne (t : Thread) : a.ending ≠ some (.done .retry t) := fun ht => hretry ⟨t, ht⟩
    rw [(attempts_of_ne_retry h retries hne).1] at hr
    -- Any other ending has another answer.
    rcases conclude_cases hr with ⟨-, rfl⟩ | ⟨s, t, hend, rfl⟩
    · cases haborted
    · have hanswer : answerOf s = .error .aborted := haborted
      rcases answerOf_cases s with heq | ⟨n, -, -, herr⟩
      · rw [heq] at hanswer
        cases s with
        | retry => exact absurd hend (hne t)
        | success | failure | exception | fallback => cases hanswer
      · rw [herr] at hanswer
        cases hanswer

/-- **What an attempt that ends has stored.** The sets are those of the matches that it completed,
also if it ended for want of stack or of backtracks. -/
theorem stored_of_ending (he : e.Reachable c)
    (hcheck : e.check h subject start output.size = .ok m) {a : Attempt}
    (ha : a ∈ e.tries h m subject start output) {s : Status} {u : Thread}
    (hend : a.ending = some (.done s u)) :
    ∃ sets, a.Completes sets ∧ Stored m.program.saved sets output u.output ∧
      (∀ n, countOf s = .ok n → sets.length = n) ∧
      (m.options.globalMode.isGlobal = false → sets = [] ∨ s = .success 1) := by
  have hmatcher := matcher_of_mem_tries ha
  have houtput : a.entry.output = output := output_of_mem_history ha
  have hsilent : a.task.Silent a.entry a.begin := Task.silent_begin a.entry
  cases hb : a.begin with
  | next t₀ =>
    have htally := tallied_of_begin he hcheck ha hb
    rw [Attempt.ending_of_begin hb] at hend
    obtain ⟨count, t, ht, hlast⟩ := Task.exists_last_step hend
    obtain ⟨past, hp⟩ := Task.exists_trail_of_steps ht
    have hfirst : t₀.output = output := by
      rw [(Attempt.begin_cases hb).1.output, houtput]
    obtain ⟨hstored, hcount⟩ := hp.stored_of_done htally hlast
    rw [hmatcher, hfirst] at hstored
    exact ⟨_, .done ⟨t₀, hb, hp⟩ hlast, hstored, hcount,
      fun hglobal => hp.reports_of_done htally hlast (by rwa [hmatcher])⟩
  | done s' u' =>
    change a.begin.ending a.task.run = _ at hend
    rw [hb] at hend hsilent
    obtain ⟨rfl, rfl⟩ := Ending.done.inj (Option.some.inj hend)
    refine ⟨[], .unbegun hb, ?_, fun n hn => ?_, fun _ => Or.inl rfl⟩
    · rw [hsilent.1.output, houtput]
      exact .nil _ _
    · rw [hsilent.2 n hn, Task.countSoFar]
      obtain ⟨e', origin, output', -, rfl⟩ := exists_kept_of_mem_history ha
      split <;> rfl
  | stray =>
    rw [Attempt.ending_of_stray hb] at hend
    cases hend

/-- The check refuses a match with no error that a run can end with. -/
theorem not_ofRun_of_check {size : Nat} {err : MatchError}
    (hcheck : e.check h subject start size = .error err) : ¬err.OfRun := by
  unfold check at hcheck
  split at hcheck
  · obtain rfl := Except.error.inj hcheck
    exact id
  · split_ifs at hcheck <;> obtain rfl := Except.error.inj hcheck <;> exact id

/-- What a match that answers, or runs out of stack or of backtracks, has stored. It has an attempt
that ended with that answer, and this is what that attempt has stored. -/
theorem exists_stored (he : e.Reachable c) (hget : e.store.get? h = some m) {r : Result Nat}
    (hr : e.exec h subject start output = some r)
    (hanswer : ∀ err, r.answer = .error err → err = .stackOverflow ∨ err = .fallback) :
    ∃ sets, e.Completes h m subject start output sets ∧
      Stored m.object.saved sets output r.output ∧
      (∀ n, r.answer = .ok n → sets.length = n) ∧
      (m.object.globalMode.isGlobal = false → sets = [] ∨ r.answer = .ok 1) := by
  obtain ⟨comp, hshape⟩ := (he.sane.compiled h m hget).shape
  have hcheck : e.check h subject start output.size = .ok m := by
    cases hcheck : e.check h subject start output.size with
    | error err =>
      rw [exec, hcheck] at hr
      obtain rfl := Option.some.inj hr
      have hnot := not_ofRun_of_check hcheck
      rcases hanswer err rfl with rfl | rfl <;> exact absurd trivial hnot
    | ok m' => rw [Option.some.inj ((of_check hcheck).1.symm.trans hget)]
  have hne {err : MatchError} (hstack : err ≠ .stackOverflow) (hfall : err ≠ .fallback) :
      r.answer ≠ .error err :=
    fun herr => (hanswer err herr).elim hstack hfall
  rcases exec_cases hcheck hr (hne (by decide) (by decide)) with
    ⟨haborted, -⟩ | ⟨a, ha, s, t, hend, houtput, hcount, hbefore⟩
  · exact absurd haborted (hne (by decide) (by decide))
  · obtain ⟨sets, hsets, hstored, hlength, honce⟩ := stored_of_ending he hcheck ha hend
    refine ⟨sets, ⟨a, ha, hsets, fun b hb => ?_⟩, ?_, fun n hn => ?_, fun hglobal => ?_⟩
    · rcases hbefore b hb with rfl | ⟨u, hu⟩
      · exact Or.inl rfl
      · obtain ⟨e', origin, output', -, rfl⟩ := exists_kept_of_mem_history hb
        exact Or.inr (Attempt.completes_of_retry rfl hu).1
    · rw [hshape.saved, houtput]
      exact hstored
    · exact hlength n (countOf_of_answerOf (hcount.symm.trans hn))
    · rw [hshape.globalMode] at hglobal
      refine (honce hglobal).imp_right fun hs => ?_
      rw [hcount, hs]
      rfl

/-- **What a match stores.** It stores whole capture sets, one after another from the beginning of
the output on, for the matches it has completed, and leaves the rest of the output alone.

* If it answers with a count, that is their number, at most one outside the global modes.
* If it is aborted, there are none, and the output is as it was.
* If it runs out of stack or of backtracks, there are some in a global mode only.

A match whose program goes astray has none of these answers, and what it stores is left open. -/
theorem exec_stores (he : e.Reachable c) (hget : e.store.get? h = some m) {r : Result Nat}
    (hr : e.exec h subject start output = some r) :
    (∀ n, r.answer = .ok n → ∃ sets, e.Completes h m subject start output sets ∧
        Stored m.object.saved sets output r.output ∧ sets.length = n ∧
        (m.object.globalMode.isGlobal = false → n ≤ 1)) ∧
      (r.answer = .error .aborted → r.output = output) ∧
      (r.answer = .error .stackOverflow ∨ r.answer = .error .fallback →
        ∃ sets, e.Completes h m subject start output sets ∧
          Stored m.object.saved sets output r.output ∧
          (m.object.globalMode.isGlobal = false → r.output = output)) := by
  refine ⟨fun n hn => ?_, fun haborted => ?_, fun herr => ?_⟩
  · obtain ⟨sets, hsets, hstored, hcount, honce⟩ := exists_stored he hget hr
      (by rw [hn]; exact fun err herr => (by cases herr))
    refine ⟨sets, hsets, hstored, hcount n hn, fun hglobal => ?_⟩
    rcases honce hglobal with rfl | hone
    · rw [← hcount n hn]
      exact Nat.zero_le 1
    · rw [Except.ok.inj (hn.symm.trans hone)]
  · unfold exec at hr
    split at hr
    · obtain rfl := Option.some.inj hr
      rfl
    · obtain ⟨r', hr', rfl⟩ := Option.map_eq_some_iff.mp hr
      exact output_of_aborted hr' haborted
  · obtain ⟨sets, hsets, hstored, -, honce⟩ := exists_stored he hget hr fun err herr' => by
      rcases herr with herr | herr
      · exact Or.inl (Except.error.inj (herr'.symm.trans herr))
      · exact Or.inr (Except.error.inj (herr'.symm.trans herr))
    refine ⟨sets, hsets, hstored, fun hglobal => ?_⟩
    rcases honce hglobal with rfl | hone
    · exact hstored.eq_of_nil
    · rw [hone] at herr
      rcases herr with herr | herr <;> cases herr

end Engine

/-! ### An output with room for one and a half matches -/

namespace Sample

/-- With room for one match, but not for another one, `blank` is done with the first. -/
theorem run_blank {k : Task} {t : Thread} (hprogram : k.matcher.program = blank)
    (hoptions : k.matcher.options = everywhere) (hpc : t.pc = 0) (hcaptures : t.captures = 0)
    (hroom : t.remaining < 4) : ∃ u, k.run t = some (.done (.success 1) u) := by
  let t₁ := (t.setReg 0 (t.pos + k.bytes 0)).advance
  let t₂ := (t₁.setReg 1 (t₁.pos + k.bytes 0)).advance
  have h₁ : k.step t = .next t₁ := by
    simp only [Task.step, hprogram, hpc]
    rfl
  have h₂ : k.step t₁ = .next t₂ := by
    have hpc₁ : t₁.pc = 1 := congrArg (· + 1) hpc
    simp only [Task.step, hprogram, hpc₁]
    rfl
  have h₃ : k.step t₂ = k.succeed t₂ := by
    have hpc₂ : t₂.pc = 2 := congrArg (· + 2) hpc
    simp only [Task.step, hprogram, hpc₂]
    rfl
  have hdone : k.succeed t₂ = .done (.success 1) (k.report t₂) := by
    have hfull : t₂.remaining < blank.saved + blank.saved := hroom
    have hcount : t₂.captures = 0 := hcaptures
    simp only [Task.succeed, hprogram, hoptions, Task.report, if_pos hfull, Task.exit, hcount]
    rfl
  rw [Task.run_eq, h₁, Outcome.ending, Task.run_eq, h₂, Outcome.ending, Task.run_eq, h₃, hdone]
  exact ⟨_, rfl⟩

end Sample

/-- In an output of three registers only the first two are written. -/
theorem Engine.exec_stores_blank :
    ∃ (e : Engine) (m : Matcher) (r : Result Nat), e.Reachable {} ∧
      e.store.get? ⟨0⟩ = some m ∧ m.object.globalMode.isGlobal = true ∧
      e.exec ⟨0⟩ Sample.face 0 #[7, 7, 7] = some r ∧ r.answer = .ok 1 ∧
      ∃ set, e.Completes ⟨0⟩ m Sample.face 0 #[7, 7, 7] [set] ∧
        r.output.toList = set ++ [7] := by
  obtain ⟨m, -, hcompile, -⟩ := Sample.exists_compile_blank
  obtain ⟨e, he, hgap, hquiet, hget, hchecks⟩ := Sample.exists_engine_of_compile hcompile
  have hcheck : e.check ⟨0⟩ Sample.face 0 3 = .ok m := hchecks _ 0 3 rfl (Nat.zero_le _) (by decide)
  have hm : Compiled Sample.blank Sample.everywhere "" m := .fresh hcompile
  obtain ⟨comp, hshape⟩ := hm.shape
  have hsaved : m.object.saved = 2 := hshape.saved
  have hglobal : m.object.globalMode.isGlobal = true := by
    rw [hshape.globalMode]
    rfl
  have hmode : Sample.face.mode = m.options.mode := by
    rw [hshape.options]
    rfl
  have hroom : nativeLimit e.gap e.config.nativeBudget < nativePointer m.object.registers := by
    rw [hgap, he.sane.config, hm.registers_eq]
    decide
  let a := e.nextAttempt m Sample.face 0 .direct #[7, 7, 7]
  have hb : a.begin = .next (a.task.afresh 0 a.entry) :=
    (begin_of_room #[7, 7, 7] hmode (by decide) (Nat.zero_le _) hquiet hroom).1
  obtain ⟨u, hu⟩ := Sample.run_blank (k := a.task) (t := a.task.afresh 0 a.entry) hshape.program
    hshape.options rfl rfl (Nat.lt_succ_self 3)
  have hexec : e.exec ⟨0⟩ Sample.face 0 #[7, 7, 7] =
      some ⟨e.beginAttempt.absorb ⟨0⟩ u, u.output, .ok 1⟩ := by
    rw [exec_of_room hcheck hquiet hroom]
    change (e.conclude ⟨0⟩ #[7, 7, 7] a.ending).map Result.counted = _
    rw [Attempt.ending_of_begin hb, hu]
    rfl
  obtain ⟨sets, hsets, hstored, hone, -⟩ := (exec_stores he hget hexec).1 1 rfl
  obtain ⟨set, rfl⟩ := List.length_eq_one_iff.mp hone
  refine ⟨e, m, _, he, hget, hglobal, hexec, rfl, set, hsets, ?_⟩
  rw [hstored.output, hsaved, List.flatten_singleton]
  rfl

end NativeMatcher
