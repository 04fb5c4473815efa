import NativeMatcher.Proofs.Handles
import NativeMatcher.Proofs.Recorded

/-!
# Requests that are refused

A request is refused before anything is done: a compilation that ends with a report, a removal of
a dead handle and a match whose arguments fail a check leave the engine and the output exactly as
they were. What can be wrong with a match is listed in the order it is looked for
(`NativeMatcher.Engine.complaints`, for a search for all matches
`NativeMatcher.Engine.searchComplaints`), and the first complaint is the answer.

The only errors that come after something was done are those of a run
(`NativeMatcher.MatchError.OfRun`); nothing is said of a run that goes astray. A search for all
matches runs its program many times, but what lets the first call through lets the others through
too: a call changes neither what is permitted nor what is compiled, and keeps the size of the output
(`NativeMatcher.Engine.complaints_of_ran`). So a search that is refused is refused at its first
call.
-/

namespace NativeMatcher

/-- The errors that a match can end with once it runs. -/
def MatchError.OfRun : MatchError → Prop
  | .stackOverflow | .aborted | .fallback | .unexpectedStatus _ => True
  | _ => False

/-! ### More matches than an answer can count -/

namespace Sample

/-- The match without ends, everywhere. -/
def barren : Program where
  opcodes := #[.succeed]
  labels := 0
  saved := 2

theorem bodySize?_barren : barren.bodySize? .latin1 = some 10 := by
  decide +kernel

/-- Options for all matches that never look for empty ones. -/
def unchecked : Options := { mode := .latin1, globalMode := .noZeroLengthCheck }

/-- With nothing to hold it up, `barren` reports its match as often as there is room for it. By
induction on the room that is left. So the count is as large as the output allows. -/
theorem run_barren {k : Task} (hprogram : k.matcher.program = barren)
    (hoptions : k.matcher.options = unchecked) (hmode : k.subject.mode = k.mode)
    (hbytes : k.subject.byteSize ≤ Memory.maxBlock) {i : Nat} (hi : i ≤ k.subject.size) (n : Nat)
    {t : Thread} (hpc : t.pc = 0) (hpos : t.pos = k.position i)
    (hremaining : t.remaining = 2 * (n + 1)) :
    ∃ u, k.run t = some (.done (.ofCount (t.captures + (n + 1))) u) := by
  have hsaved : k.matcher.program.saved = 2 := congrArg Program.saved hprogram
  have hoption : k.matcher.options.globalMode = .noZeroLengthCheck :=
    congrArg Options.globalMode hoptions
  have hstep {v : Thread} (hv : v.pc = 0) : k.step v = k.succeed v := by
    simp only [Task.step, hprogram, hv]
    rfl
  induction n generalizing t with
  | zero =>
    have hfull : t.remaining < k.matcher.program.saved + k.matcher.program.saved := by omega
    refine ⟨k.report t, ?_⟩
    rw [Task.run_eq, hstep hpc, Task.succeed_of_full (by rw [hoption]; rfl) hfull]
    rfl
  | succ n ih =>
    have hroom : k.matcher.program.saved + k.matcher.program.saved ≤ t.remaining := by omega
    have hturn : (k.turn t).pos = k.position i := hpos
    have hleft : (k.afresh i (k.turn t)).remaining = 2 * (n + 1) := by
      change t.remaining - k.matcher.program.saved = _
      omega
    obtain ⟨u, hu⟩ := ih (t := k.afresh i (k.turn t)) rfl rfl hleft
    have hcount : t.captures + (n + 1 + 1) = (k.afresh i (k.turn t)).captures + (n + 1) := by
      change _ = t.captures + 1 + (n + 1)
      omega
    refine ⟨u, ?_⟩
    rw [Task.run_eq, hstep hpc, Task.succeed_of_unchecked hoption hroom,
      Task.restart_position hmode hbytes hi hturn, hcount]
    exact hu

end Sample

namespace Engine

variable {e e' : Engine} {h : Handle} {subject : Subject} {start size : Nat}
  {output : Array Int32} {err : MatchError}

/-! ### What can be wrong -/

/-- Everything that is wrong with a match, what is looked for first in front. -/
def complaints (e : Engine) (h : Handle) (subject : Subject) (start size : Nat) :
    List MatchError :=
  match e.store.get? h with
  | none => [.invalidHandle]
  | some m =>
    (if e.permissions.isGranted .nativeExecution m.object.source then []
      else [.permissionDenied .nativeExecution]) ++
    (if subject.mode = m.object.mode then [] else [.modeMismatch m.object.mode subject.mode]) ++
    (if start ≤ subject.size then [] else [.startOutOfBounds start subject.size]) ++
    (if m.object.saved ≤ size then [] else [.outputTooSmall m.object.saved size])

/-- Everything that is wrong with a search for all matches, what is looked for first in front. -/
def searchComplaints (e : Engine) (h : Handle) (subject : Subject) : List MatchError :=
  match e.store.get? h with
  | none => [.invalidHandle]
  | some m =>
    (if m.object.globalMode.isGlobal then [] else [.notGlobal]) ++
      e.complaints h subject 0 (m.object.saved * e.config.batch)

/-- The check of a match finds the first complaint. -/
theorem check_eq_complaints (e : Engine) (h : Handle) (subject : Subject) (start size : Nat) :
    match (e.complaints h subject start size).head? with
    | some err => e.check h subject start size = .error err
    | none => ∃ m, e.store.get? h = some m ∧ e.check h subject start size = .ok m := by
  unfold complaints check
  cases e.store.get? h with
  | none => rfl
  | some m =>
    by_cases hgranted : e.permissions.isGranted .nativeExecution m.object.source = true
    · by_cases hmode : subject.mode = m.object.mode
      · by_cases hstart : start ≤ subject.size
        · have hstart' := Nat.not_lt.mpr hstart
          by_cases hsize : m.object.saved ≤ size
          · simp [hgranted, hmode, hstart, hstart', hsize, Nat.not_lt.mpr hsize]
          · simp [hgranted, hmode, hstart, hstart', hsize, Nat.lt_of_not_le hsize]
        · simp [hgranted, hmode, hstart, Nat.lt_of_not_le hstart]
      · simp [hgranted, hmode]
    · simp [hgranted]

/-! ### A match -/

/-- The errors that a status stands for are errors of a run. -/
theorem ofRun_of_answerOf {s : Status} (hs : answerOf s = .error err) : err.OfRun := by
  rcases answerOf_cases s with heq | ⟨n, -, -, herr⟩
  · rw [heq] at hs
    cases s with
    | success n => cases hs
    | failure => cases hs
    | exception | fallback | retry =>
      obtain rfl := Except.error.inj hs
      trivial
  · obtain rfl := Except.error.inj (herr.symm.trans hs)
    trivial

/-- Attempts that end in another error than those of a run went astray. -/
theorem ofRun_of_attempts {m : Matcher} {retries : Nat} {origin : CallOrigin} {r : Result Status}
    (hr : attempts h m subject start retries origin e output = some r)
    (herr : r.counted.answer = .error err) (hstray : err ≠ .stray) : err.OfRun := by
  obtain ⟨a, -, -, ⟨r', hr', haborted, -⟩ | ⟨e', output', hconclude⟩⟩ :=
    exists_last_attempt h m subject start origin e output retries
  · obtain rfl := Option.some.inj (hr.symm.trans hr')
    rw [Result.counted, haborted] at herr
    obtain rfl := Except.error.inj herr
    trivial
  · rw [hconclude] at hr
    rcases conclude_cases hr with ⟨-, rfl⟩ | ⟨s, t, -, rfl⟩
    · exact absurd (Except.error.inj herr).symm hstray
    · exact ofRun_of_answerOf herr

/-- **A match is refused for the first complaint**, with nothing done. -/
theorem exec_of_complaint (herr : (e.complaints h subject start output.size).head? = some err) :
    e.exec h subject start output = some ⟨e, output, .error err⟩ := by
  have hcheck := e.check_eq_complaints h subject start output.size
  rw [herr] at hcheck
  rw [exec, hcheck]

/-- A match without a complaint ends in no other error than one of a run. -/
theorem ofRun_of_exec {r : Result Nat} (hr : e.exec h subject start output = some r)
    (herr : r.answer = .error err) (hstray : err ≠ .stray)
    (hnone : (e.complaints h subject start output.size).head? = none) : err.OfRun := by
  have hcheck := e.check_eq_complaints h subject start output.size
  rw [hnone] at hcheck
  obtain ⟨m, -, hm⟩ := hcheck
  rw [exec, hm] at hr
  obtain ⟨r', hr', rfl⟩ := Option.map_eq_some_iff.mp hr
  exact ofRun_of_attempts hr' herr hstray

/-- The errors of a match that are not those of a run are the refusals. -/
theorem refused_of_exec {r : Result Nat} (hr : e.exec h subject start output = some r)
    (herr : r.answer = .error err) (hrun : ¬err.OfRun) (hstray : err ≠ .stray) :
    (e.complaints h subject start output.size).head? = some err ∧ r.engine = e ∧
      r.output = output := by
  cases hhead : (e.complaints h subject start output.size).head? with
  | none => exact absurd (ofRun_of_exec hr herr hstray hhead) hrun
  | some err' =>
    rw [exec_of_complaint hhead] at hr
    obtain rfl := Option.some.inj hr
    obtain rfl := Except.error.inj herr
    exact ⟨rfl, rfl, rfl⟩

/-- A match writes into the output and does not change its size. -/
theorem size_output_of_exec {r : Result Nat} (hr : e.exec h subject start output = some r) :
    r.output.size = output.size := by
  unfold exec at hr
  split at hr
  · obtain rfl := Option.some.inj hr
    rfl
  · obtain ⟨r', hr', rfl⟩ := Option.map_eq_some_iff.mp hr
    exact attempts_induct (R := fun x y => y.2.size = x.2.size) (fun _ => rfl)
      (fun _ _ _ hxy hyz => hyz.trans hxy)
      (fun _ _ _ _ _ ht => Task.size_output_of_attempt ht) (fun _ _ => rfl) hr'

/-! ### A search for all matches -/

/-- What lets one call through lets the next one through. -/
theorem complaints_of_ran {start' : Nat} (hran : e.Ran e')
    (hnone : e.complaints h subject start size = []) (hstart : start' ≤ subject.size) :
    e'.complaints h subject start' size = [] := by
  unfold complaints at hnone ⊢
  rcases hran.store.get? h with hget | hget
  all_goals
    rw [hget, hran.permissions]
    cases hm : e.store.get? h with
    | none =>
      rw [hm] at hnone
      cases hnone
    | some m =>
      rw [hm] at hnone
      simp only [List.append_eq_nil_iff] at hnone
      obtain ⟨⟨⟨hgranted, hmode⟩, -⟩, hsize⟩ := hnone
      simp only [Option.map_some, List.append_eq_nil_iff]
      exact ⟨⟨⟨hgranted, hmode⟩, if_pos hstart⟩, hsize⟩

/-- A search that is refused is refused at its first call. Later calls make the same complaints to
the same handle, and the first call has met none, so there is nothing to refuse them for. -/
theorem refused_of_findFrom {m : Matcher} {found : Array Captures}
    {r : Engine × Except MatchError (List Captures)}
    (hr : findFrom h subject m e start output found = some r) (herr : r.2 = .error err)
    (hrun : ¬err.OfRun) (hstray : err ≠ .stray) :
    start ≤ subject.size ∧ (e.complaints h subject start output.size).head? = some err ∧
      r.1 = e := by
  refine findFrom.partial_correctness h subject m (fun e start output _ r => r.2 = .error err →
    start ≤ subject.size ∧ (e.complaints h subject start output.size).head? = some err ∧
      r.1 = e) ?_ e start output found r hr herr
  intro f ih e start output found r hr herr
  simp only at hr
  split at hr
  · obtain rfl := Option.some.inj hr
    cases herr
  · next hstart =>
    split at hr
    · cases hr
    · next e' _ err' he =>
      obtain rfl := Option.some.inj hr
      obtain rfl := Except.error.inj herr
      obtain ⟨hhead, hengine, -⟩ := refused_of_exec he rfl hrun hstray
      exact ⟨Nat.le_of_not_lt hstart, hhead, hengine⟩
    · next e' output' n he =>
      split at hr
      · obtain rfl := Option.some.inj hr
        cases herr
      · -- The first call went through, so there is nothing to complain of at the next one.
        obtain ⟨hstart', hhead, -⟩ := ih _ _ _ _ _ hr herr
        have hnone : e.complaints h subject start output.size = [] := by
          cases hc : e.complaints h subject start output.size with
          | nil => rfl
          | cons err' rest =>
            rw [exec_of_complaint (by rw [hc]; rfl)] at he
            cases he
        have hsize : output'.size = output.size := size_output_of_exec he
        rw [hsize, complaints_of_ran (ran_exec he) hnone hstart'] at hhead
        cases hhead

/-- **A search for all matches is refused for the first complaint**, with nothing done, if the
output it needs can be had. -/
theorem findAll_of_complaint (herr : (e.searchComplaints h subject).head? = some err)
    (hmemory : ∀ m, e.store.get? h = some m → m.object.globalMode.isGlobal = true →
      4 * (m.object.saved * e.config.batch) ≤ Memory.maxBlock) :
    e.findAll h subject = .ok (some (e, .error err)) := by
  unfold searchComplaints at herr
  cases hget : e.store.get? h with
  | none =>
    rw [hget] at herr
    obtain rfl := Option.some.inj herr
    rw [findAll, hget]
  | some m =>
    rw [hget] at herr
    cases hglobal : m.object.globalMode.isGlobal with
    | false =>
      simp only [hglobal, Bool.false_eq_true, if_false, List.cons_append, List.head?_cons] at herr
      obtain rfl := Option.some.inj herr
      simp only [findAll, hget, hglobal, Bool.not_false, if_true]
    | true =>
      simp only [hglobal, if_true, List.nil_append] at herr
      rw [← Array.size_replicate (n := m.object.saved * e.config.batch) (v := (-1 : Int32))] at herr
      rw [findAll_of_memory hget hglobal (hmemory m hget hglobal), findFrom_of_le (Nat.zero_le _),
        exec_of_complaint herr]
      rfl

/-- The errors of a search for all matches that are not those of a run are the refusals. -/
theorem refused_of_findAll {r : Engine × Except MatchError (List Captures)}
    (hr : e.findAll h subject = .ok (some r)) (herr : r.2 = .error err) (hrun : ¬err.OfRun)
    (hstray : err ≠ .stray) :
    (e.searchComplaints h subject).head? = some err ∧ r.1 = e := by
  unfold searchComplaints
  rcases findAll_cases hr with ⟨hget, rfl⟩ | ⟨m, hget, ⟨hglobal, rfl⟩ | ⟨hglobal, hfrom⟩⟩
  · rw [hget]
    obtain rfl := Except.error.inj herr
    exact ⟨rfl, rfl⟩
  · simp only [hget, hglobal, Bool.false_eq_true, if_false]
    obtain rfl := Except.error.inj herr
    exact ⟨rfl, trivial⟩
  · obtain ⟨-, hhead, hengine⟩ := refused_of_findFrom hfrom herr hrun hstray
    rw [Array.size_replicate] at hhead
    simp only [hget, hglobal, if_true, List.nil_append]
    exact ⟨hhead, hengine⟩

/-! ### A search for one match -/

/-- The number of registers that a match of a handle reports. -/
def reportSize (e : Engine) (h : Handle) : Nat :=
  (e.store.get? h).elim 0 fun m => m.object.saved

/-- A search for one match is a match whose output is just large enough, or whatever size for a dead
handle, as that is refused first. -/
theorem find_eq (e : Engine) (h : Handle) (subject : Subject) (start : Nat) :
    e.find h subject start =
      (e.exec h subject start (Array.replicate (e.reportSize h) (-1))).map fun r =>
        (r.engine, r.answer.map fun n =>
          if n = 0 then none else some (Captures.ofRegisters r.output.toList)) := by
  unfold find reportSize
  cases hget : e.store.get? h with
  | none => simp only [exec, check, hget, Option.map_some, Except.map]
  | some m => rfl

/-- A search for one match is refused as the match is. -/
theorem find_of_complaint
    (herr : (e.complaints h subject start (e.reportSize h)).head? = some err) :
    e.find h subject start = some (e, .error err) := by
  rw [← Array.size_replicate (n := e.reportSize h) (v := (-1 : Int32))] at herr
  rw [find_eq, exec_of_complaint herr]
  rfl

/-- So its errors are those of a match: the first complaint with nothing changed, or an error of the
run. -/
theorem refused_of_find {answer : Except MatchError (Option Captures)}
    (hr : e.find h subject start = some (e', answer)) (herr : answer = .error err)
    (hrun : ¬err.OfRun) (hstray : err ≠ .stray) :
    (e.complaints h subject start (e.reportSize h)).head? = some err ∧ e' = e := by
  rw [find_eq] at hr
  obtain ⟨r, hexec, heq⟩ := Option.map_eq_some_iff.mp hr
  obtain ⟨rfl, rfl⟩ := Prod.mk.inj heq
  have hanswer : r.answer = .error err := by
    cases ha : r.answer with
    | error err' =>
      rw [ha] at herr
      exact congrArg Except.error (Except.error.inj herr)
    | ok n =>
      rw [ha] at herr
      cases herr
  obtain ⟨hhead, hengine, -⟩ := refused_of_exec hexec hanswer hrun hstray
  rw [Array.size_replicate] at hhead
  exact ⟨hhead, hengine⟩

/-- In an empty text `barren` reports as many matches as the output has room for. More of them than
32 bits count are an error, but the match has been run. -/
theorem exists_exec_barren {n : Nat} (hn : 4294967295 < n + 1) :
    ∃ (e : Engine) (r : Result Nat), e.Reachable {} ∧
      e.exec ⟨0⟩ (.latin1 #[]) 0 (Array.replicate (2 * (n + 1)) (-7)) = some r ∧
      r.answer = .error (.unexpectedStatus (n + 1 : Nat)) ∧
      r.engine.stats.executions = e.stats.executions + 1 := by
  obtain ⟨m, hm, -⟩ := Program.exists_compile (o := Sample.unchecked) Sample.bodySize?_barren
    (by decide) (by simp [Sample.barren, Opcode.InRange]) (by decide) "" Sample.heap
  have hroom : 2 ≤ (Array.replicate (2 * (n + 1)) (-7 : Int32)).size := by
    rw [Array.size_replicate]
    omega
  obtain ⟨e, a, guard, h, hentry⟩ := Sample.exists_firstTry_freshStack hm (.latin1 #[]) 0
    (Array.replicate (2 * (n + 1)) (-7)) rfl (Nat.le_refl 0) (by decide) hroom (by decide)
  have hremaining : (a.task.afresh 0 a.entry).remaining = 2 * (n + 1) := by
    change a.entry.remaining = _
    rw [hentry]
    exact Array.size_replicate
  have hbytes : a.task.subject.byteSize ≤ Memory.maxBlock := by
    rw [h.text]
    decide
  obtain ⟨u, hu⟩ := Sample.run_barren h.program_eq (h.matcher ▸ h.options) h.subject_mode hbytes
    (Nat.zero_le _) n (t := a.task.afresh 0 a.entry) rfl rfl hremaining
  have hcaptures : (a.task.afresh 0 a.entry).captures = 0 := by
    change a.entry.captures = 0
    rw [hentry]
    rfl
  rw [hcaptures, Nat.zero_add] at hu
  have hexec := h.exec
  rw [Attempt.ending_of_begin h.begins, hu] at hexec
  exact ⟨e, _, h.reachable, hexec, answerOf_ofCount_of_lt hn, rfl⟩

/-! ### All requests -/

/-- **A refused request does nothing, and says what is wrong first.** Whatever the engine:

* a compilation that returns an error leaves it as it is;
* so does a removal that finds nothing to remove;
* a match, or a search for one match, is refused for the first complaint, with the engine and the
  output as they are, and every error but those of a run is such a refusal, unless the run goes
  astray;
* so is a search for all matches, which looks at the handle and the global mode first, provided
  the output for a batch can be had. -/
theorem unchanged_of_refused (e : Engine) :
    (∀ p o source heap e' err, e.compile p o source heap = .ok (e', .error err) → e' = e) ∧
      (∀ h e', e.remove h = (e', false) → e' = e) ∧
      (∀ h subject start output,
        (∀ err, (e.complaints h subject start output.size).head? = some err →
          e.exec h subject start output = some ⟨e, output, .error err⟩) ∧
        ∀ r err, e.exec h subject start output = some r → r.answer = .error err → ¬err.OfRun →
          err ≠ .stray → (e.complaints h subject start output.size).head? = some err ∧
            r.engine = e ∧ r.output = output) ∧
      (∀ h subject start,
        (∀ err, (e.complaints h subject start (e.reportSize h)).head? = some err →
          e.find h subject start = some (e, .error err)) ∧
        ∀ e' err, e.find h subject start = some (e', .error err) → ¬err.OfRun → err ≠ .stray →
          (e.complaints h subject start (e.reportSize h)).head? = some err ∧ e' = e) ∧
      ∀ h subject,
        (∀ err, (e.searchComplaints h subject).head? = some err →
          (∀ m, e.store.get? h = some m → m.object.globalMode.isGlobal = true →
            4 * (m.object.saved * e.config.batch) ≤ Memory.maxBlock) →
          e.findAll h subject = .ok (some (e, .error err))) ∧
        ∀ e' err, e.findAll h subject = .ok (some (e', .error err)) → ¬err.OfRun →
          err ≠ .stray → (e.searchComplaints h subject).head? = some err ∧ e' = e := by
  refine ⟨fun p o source heap e' err hc => ?_, fun h e' hremove => ?_, fun h subject start output =>
    ⟨fun err => exec_of_complaint, fun r err => refused_of_exec⟩, fun h subject start =>
    ⟨fun err => find_of_complaint, fun e' err hr => refused_of_find hr rfl⟩, fun h subject =>
    ⟨fun err => findAll_of_complaint, fun e' err hr => refused_of_findAll hr rfl⟩⟩
  · rcases compile_cases hc with ⟨-, rfl, -⟩ | ⟨hd, -, -, hok⟩ | ⟨m, -, -, -, hok⟩ | ⟨_, -, rfl, -⟩
    · rfl
    · cases hok
    · cases hok
    · rfl
  · cases hget : e.store.get? h with
    | none =>
      simp only [Engine.remove, Store.remove, hget] at hremove
      exact (congrArg Prod.fst hremove).symm
    | some m =>
      simp only [Engine.remove, Store.remove, hget] at hremove
      cases congrArg Prod.snd hremove

/-- **A match that fails and is not without effect.** An output of `2 ^ 45` registers takes
`2 ^ 44` matches. Their number is no status, which is an error but neither a stack overflow nor an
abort nor a fallback, and the engine has counted the run. -/
theorem executions_of_unexpectedStatus :
    ∃ (e : Engine) (r : Result Nat), e.Reachable {} ∧
      e.exec ⟨0⟩ (.latin1 #[]) 0 (Array.replicate (2 ^ 45) (-7)) = some r ∧
      r.answer = .error (.unexpectedStatus (2 ^ 44)) ∧
      r.engine.stats.executions = e.stats.executions + 1 := by
  have hsize : 2 * (2 ^ 44 - 1 + 1) = 2 ^ 45 := by decide
  have hcount : ((2 ^ 44 - 1 + 1 : Nat) : Int) = 2 ^ 44 := by decide
  have h := exists_exec_barren (n := 2 ^ 44 - 1) (by decide)
  rwa [hsize, hcount] at h

end Engine

end NativeMatcher
