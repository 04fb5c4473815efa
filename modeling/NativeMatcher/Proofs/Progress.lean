import Mathlib.Logic.Relation
import NativeMatcher.Proofs.Handles
import NativeMatcher.Proofs.Stored

/-!
# The progress of searches

A search for all matches is a row of calls (`NativeMatcher.Engine.Search`). A call that fills the
batch is followed by another one (`NativeMatcher.Engine.Search.Continues`), which starts at the end
of the last match, or one character on if that match is empty. Nothing else brings the search
forward, so it comes to an end if each such match *leads on* (`NativeMatcher.Captures.LeadsOn`);
this is `NativeMatcher.Engine.Search.findAll_progress`.

A match that begins where the call did, or later, leads on. But a program may report a match
without ends, and then the search goes on as after an empty match at the start of the subject. So a
search can go back (`NativeMatcher.Engine.Search.continues_back`), and it can go on for ever
(`NativeMatcher.Engine.Search.findAll_barren`).
-/

namespace NativeMatcher

/-- After a match with these captures a search that began its last call at `start` goes on farther
on. A match without its ends counts as an empty one at the start of the subject. -/
def Captures.LeadsOn (c : Captures) (subject : Subject) (unicode : Bool) (start : Nat) : Prop :=
  match c.get 0 with
  | some (first, stop) => start < subject.indexAfter unicode first stop
  | none => start < subject.step 0 unicode

namespace Captures

variable {c : Captures} {subject : Subject} {unicode : Bool} {start first stop : Nat}

/-- A match that begins where the call did, or later, leads on. -/
theorem leadsOn_of_get (h : c.get 0 = some (first, stop)) (hstart : start ≤ first)
    (hle : first ≤ stop) : c.LeadsOn subject unicode start := by
  simp only [LeadsOn, h]
  exact Nat.lt_of_le_of_lt hstart (Subject.lt_indexAfter hle)

theorem resumeIndex_of_get (h : c.get 0 = some (first, stop)) :
    Engine.resumeIndex subject unicode start (some c) = subject.indexAfter unicode first stop := by
  simp only [Engine.resumeIndex, Option.map_some, Option.getD_some, span, h]
  rfl

/-- A match without its ends counts as an empty one at the start of the subject. -/
theorem resumeIndex_of_unset (h : c.get 0 = none) :
    Engine.resumeIndex subject unicode start (some c) = subject.step 0 unicode := by
  simp only [Engine.resumeIndex, Option.map_some, Option.getD_some, span, h, Option.getD_none,
    if_true]

/-- Whether a search goes on farther on depends on the captures of the last match of the batch. -/
theorem lt_resumeIndex_iff :
    start < Engine.resumeIndex subject unicode start (some c) ↔
      c.LeadsOn subject unicode start := by
  cases hget : c.get 0 with
  | some ends =>
    rw [resumeIndex_of_get hget]
    simp only [LeadsOn, hget]
  | none =>
    rw [resumeIndex_of_unset hget]
    simp only [LeadsOn, hget]

end Captures

namespace Engine

/-! ### The calls of a search -/

/-- A search for all matches before one of its calls. -/
structure Search where
  /-- The engine. -/
  engine : Engine
  /-- Where the call starts. -/
  start : Nat
  /-- The output. -/
  output : Array Int32
  /-- What has been found. -/
  found : Array Captures

namespace Search

/-- Before the first call. -/
def first (e : Engine) (m : Matcher) : Search where
  engine := e
  start := 0
  output := Array.replicate (m.object.saved * e.config.batch) (-1)
  found := #[]

/-- The call. -/
def call (h : Handle) (subject : Subject) (s : Search) : Option (Result Nat) :=
  s.engine.exec h subject s.start s.output

/-- The matches after the call. -/
def collect (m : Matcher) (s : Search) (r : Result Nat) (n : Nat) : Array Captures :=
  s.found ++ captureSets m.object.saved n r.output.toList

/-- The search after a call that filled the batch. -/
def resume (subject : Subject) (m : Matcher) (s : Search) (r : Result Nat) (n : Nat) : Search where
  engine := r.engine
  start := resumeIndex subject (m.object.globalMode = .unicode) s.start (s.collect m r n).back?
  output := r.output
  found := s.collect m r n

/-- The call fills the batch, and the search goes on with another one. -/
inductive Continues (h : Handle) (subject : Subject) (m : Matcher) : Search → Search → Prop
  /-- It starts in the subject and reports as many matches as the batch is large. -/
  | full {s : Search} {r : Result Nat} {n : Nat} : s.start ≤ subject.size →
    s.call h subject = some r → r.answer = .ok n → s.engine.config.batch ≤ n →
    Continues h subject m s (s.resume subject m r n)

/-- The search comes to this call. -/
def Reaches (h : Handle) (subject : Subject) (m : Matcher) (e : Engine) (s : Search) : Prop :=
  Relation.ReflTransGen (Continues h subject m) (first e m) s

/-- What holds before every call of a search. -/
structure Along (c : Config) (h : Handle) (m : Matcher) (s : Search) : Prop where
  /-- The engine is reachable. -/
  reachable : s.engine.Reachable c
  /-- The program is the same, but for where its code is. -/
  get : ∃ m', s.engine.store.get? h = some m' ∧ (m' = m ∨ m' = m.relocated)
  /-- The output has the size of a batch. -/
  output : s.output.size = m.object.saved * c.batch

variable {c : Config} {h : Handle} {m : Matcher} {subject : Subject} {e : Engine} {s s' : Search}

theorem along_first (he : e.Reachable c) (hget : e.store.get? h = some m) :
    (first e m).Along c h m := by
  refine ⟨he, ⟨m, hget, Or.inl rfl⟩, ?_⟩
  rw [first, Array.size_replicate, he.sane.config]

/-- **What one call keeps.** The engine stays reachable, and the handle has the same program up to
where its code is. -/
theorem Along.step (hs : s.Along c h m) (hc : Continues h subject m s s') : s'.Along c h m := by
  obtain ⟨-, hcall, hanswer, -⟩ := hc
  obtain ⟨m', hget, hm'⟩ := hs.get
  obtain ⟨sets, -, hstored, -⟩ := (exec_stores hs.reachable hget hcall).1 _ hanswer
  refine ⟨.after (.exec h subject s.start s.output) hs.reachable ?_, ?_, ?_⟩
  · have hexec : s.engine.exec h subject s.start s.output = _ := hcall
    rw [Engine.after, hexec]
    rfl
  · -- Code that moved once more is still the same program.
    rcases (ran_exec hcall).store.get? h with hsame | hmoved
    · exact ⟨m', hsame.trans hget, hm'⟩
    · refine ⟨m'.relocated, hmoved.trans (congrArg _ hget), Or.inr ?_⟩
      rcases hm' with rfl | rfl <;> rfl
  · exact hstored.size.trans hs.output

theorem Reaches.along (he : e.Reachable c) (hget : e.store.get? h = some m)
    (hr : Reaches h subject m e s) : s.Along c h m := by
  induction hr with
  | refl => exact along_first he hget
  | tail _ hstep ih => exact ih.step hstep

/-- A call that answers has room in the output for a match. -/
theorem saved_le_of_answer {start : Nat} {output : Array Int32} {r : Result Nat} {n : Nat}
    (hget : e.store.get? h = some m) (hr : e.exec h subject start output = some r)
    (hanswer : r.answer = .ok n) : m.object.saved ≤ output.size := by
  rw [exec] at hr
  split at hr
  · obtain rfl := Option.some.inj hr
    cases hanswer
  · next m' hcheck =>
    obtain ⟨hget', -, hle⟩ := of_check hcheck
    obtain rfl := Option.some.inj (hget.symm.trans hget')
    exact hle

/-- A full batch has a last match. A search goes on only after a call that filled its output, and an
output has room for one match at least. -/
theorem Along.exists_last (hs : s.Along c h m) (hglobal : m.object.globalMode.isGlobal = true)
    (hc : Continues h subject m s s') : ∃ last, s'.found.back? = some last := by
  obtain ⟨-, hcall, hanswer, hfull⟩ := hc
  next r n =>
  obtain ⟨m', hget, hm'⟩ := hs.get
  obtain ⟨comp, hshape⟩ := (hs.reachable.sane.compiled h m' hget).shape
  have hobject : m'.object.saved = m.object.saved ∧ m'.object.globalMode = m.object.globalMode := by
    rcases hm' with rfl | rfl <;> exact ⟨rfl, rfl⟩
  have htwo : 2 ≤ m.object.saved := by
    rw [← hobject.1, hshape.saved]
    refine hshape.two_le_saved ?_
    rw [← hshape.globalMode, hobject.2, hglobal]
  have hroom : m.object.saved ≤ m.object.saved * c.batch := by
    rw [← hs.output, ← hobject.1]
    exact saved_le_of_answer hget hcall hanswer
  have hpos : 0 < c.batch := by
    rcases Nat.eq_zero_or_pos c.batch with hzero | hpos
    · rw [hzero] at hroom
      omega
    · exact hpos
  rw [hs.reachable.sane.config] at hfull
  obtain ⟨k, rfl⟩ : ∃ k, n = k + 1 := ⟨n - 1, by omega⟩
  simp only [resume, collect, captureSets_succ, append_concat, Array.back?_push]
  exact ⟨_, rfl⟩

/-! ### Progress -/

/-- What a search comes to from one of its calls on, if every later call returns and starts
farther on. -/
theorem exists_findFrom (hcalls : ∀ s', Relation.ReflTransGen (Continues h subject m) s s' →
      s'.start ≤ subject.size → ∃ r, s'.call h subject = some r)
    (hprogress : ∀ s' s'', Relation.ReflTransGen (Continues h subject m) s s' →
      Continues h subject m s' s'' → s'.start < s''.start) :
    ∃ r, findFrom h subject m s.engine s.start s.output s.found = some r := by
  -- By induction on what is left of the subject.
  induction hleft : subject.size + 1 - s.start using Nat.strong_induction_on generalizing s with
  | _ left ih =>
  subst hleft
  rcases Nat.lt_or_ge subject.size s.start with hend | hstart
  · exact ⟨_, findFrom_of_lt hend⟩
  obtain ⟨r, hr⟩ := hcalls s .refl hstart
  have hexec : s.engine.exec h subject s.start s.output = some r := hr
  rw [findFrom_of_le hstart, hexec, Option.bind_some, afterBatch]
  cases hanswer : r.answer with
  | error err => exact ⟨_, rfl⟩
  | ok n =>
    simp only
    split
    · exact ⟨_, rfl⟩
    · next hfull =>
      have hc : Continues h subject m s (s.resume subject m r n) :=
        .full hstart hr hanswer (Nat.le_of_not_lt hfull)
      have hlt := hprogress s _ .refl hc
      exact ih _ (by omega) (fun s' hs' => hcalls s' (.head hc hs'))
        (fun s' s'' hs' => hprogress s' s'' (.head hc hs')) rfl

/-- **When a search for all matches comes to an end.** After a full batch the next call starts
farther on exactly if the last match of the batch leads on. If all of them do, and all calls return,
the search returns. -/
theorem findAll_progress (he : e.Reachable c) (hget : e.store.get? h = some m)
    (hglobal : m.object.globalMode.isGlobal = true) (subject : Subject) :
    (∀ s s', Reaches h subject m e s → Continues h subject m s s' →
      ∃ last, s'.found.back? = some last ∧ (s.start < s'.start ↔
        last.LeadsOn subject (m.object.globalMode = .unicode) s.start)) ∧
    (4 * (m.object.saved * c.batch) ≤ Memory.maxBlock →
      (∀ s, Reaches h subject m e s → s.start ≤ subject.size →
        ∃ r, s.call h subject = some r) →
      (∀ s s' last, Reaches h subject m e s → Continues h subject m s s' →
        s'.found.back? = some last →
        last.LeadsOn subject (m.object.globalMode = .unicode) s.start) →
      ∃ r, e.findAll h subject = .ok (some r)) := by
  have hlast {s s' : Search} (hs : Reaches h subject m e s) (hc : Continues h subject m s s') :
      ∃ last, s'.found.back? = some last ∧ (s.start < s'.start ↔
        last.LeadsOn subject (m.object.globalMode = .unicode) s.start) := by
    obtain ⟨last, hlast⟩ := (hs.along he hget).exists_last hglobal hc
    refine ⟨last, hlast, ?_⟩
    cases hc
    rw [← Captures.lt_resumeIndex_iff, ← hlast]
    rfl
  refine ⟨fun s s' hs hc => hlast hs hc, fun hmemory hcalls hleads => ?_⟩
  rw [← he.sane.config] at hmemory
  obtain ⟨r, hr⟩ := exists_findFrom (s := first e m) hcalls fun s s' hs hc => by
    obtain ⟨last, hback, hiff⟩ := hlast hs hc
    exact hiff.mpr (hleads s s' last hs hc hback)
  exact ⟨r, (findAll_of_memory hget hglobal hmemory).trans (congrArg _ hr)⟩

/-- If every call fills the batch within the subject, the search never returns. -/
theorem findFrom_eq_none (hgoes : ∀ s', Relation.ReflTransGen (Continues h subject m) s s' →
      ∃ s'', Continues h subject m s' s'') :
    findFrom h subject m s.engine s.start s.output s.found = none := by
  suffices hnone : ∀ r,
      findFrom h subject m s.engine s.start s.output s.found ≠ some r by
    exact Option.eq_none_iff_forall_ne_some.mpr hnone
  intro r hr
  refine findFrom.partial_correctness h subject m (fun e start output found _ =>
    ¬∀ s', Relation.ReflTransGen (Continues h subject m) ⟨e, start, output, found⟩ s' →
      ∃ s'', Continues h subject m s' s'') ?_ _ _ _ _ r hr hgoes
  intro f ih e start output found r hr hgoes
  obtain ⟨s', hstep⟩ := hgoes _ .refl
  have hlater (s'' : Search) (hs'' : Relation.ReflTransGen (Continues h subject m) s' s'') :=
    hgoes s'' (.head hstep hs'')
  obtain ⟨hstart, hcall, hanswer, hfull⟩ := hstep
  next r' n =>
  have hexec : e.exec h subject start output = some r' := hcall
  rw [if_neg (Nat.not_lt.mpr hstart), hexec] at hr
  obtain ⟨e', output', answer⟩ := r'
  obtain rfl : answer = .ok n := hanswer
  have hnot : ¬n < e.config.batch := Nat.not_lt.mpr hfull
  simp only [hnot, if_false] at hr
  exact ih _ _ _ _ _ hr hlater

/-- A call does the same whenever it is made. -/
theorem Continues.unique {s'' : Search} (hc : Continues h subject m s s')
    (hc' : Continues h subject m s s'') : s' = s'' := by
  obtain ⟨-, hcall, hanswer, -⟩ := hc
  obtain ⟨-, hcall', hanswer', -⟩ := hc'
  obtain rfl := Option.some.inj (hcall.symm.trans hcall')
  obtain rfl := Except.ok.inj (hanswer.symm.trans hanswer')
  rfl

theorem Continues.exists_call (hc : Continues h subject m s s') :
    ∃ r, s.call h subject = some r := by
  obtain ⟨-, hcall, -⟩ := hc
  exact ⟨_, hcall⟩

theorem Continues.start_le (hc : Continues h subject m s s') : s.start ≤ subject.size := by
  obtain ⟨hstart, -⟩ := hc
  exact hstart

/-! ### Searches that nothing disturbs -/

/-- Nothing stands in the way of a call. -/
structure Calm (c : Config) (h : Handle) (m : Matcher) (s : Search) : Prop where
  /-- The engine is reachable. -/
  reachable : s.engine.Reachable c
  /-- The program is there. -/
  get : s.engine.store.get? h = some m
  /-- Nothing is raised. -/
  quiet : s.engine.guard.isRaised = false
  /-- The program may be run. -/
  granted : s.engine.permissions.isGranted .nativeExecution m.object.source = true
  /-- There is room for a frame. -/
  room : nativeLimit s.engine.gap s.engine.config.nativeBudget < nativePointer m.object.registers
  /-- The output has the size of a batch. -/
  output : s.output.size = m.program.saved * c.batch

/-- The thread with which a call begins. -/
def entry (subject : Subject) (m : Matcher) (s : Search) : Thread :=
  (Task.ofMatcher m subject .direct).afresh s.start
    (s.engine.nextAttempt m subject s.start .direct s.output).entry

/-- The search after a call that went undisturbed, and ended with this thread. -/
def after (h : Handle) (subject : Subject) (m : Matcher) (s : Search) (n : Nat) (u : Thread) :
    Search :=
  s.resume subject m ⟨s.engine.beginAttempt.absorb h u, u.output, .ok n⟩ n

namespace Calm

variable (hs : s.Calm c h m) (hmode : subject.mode = m.options.mode)
  (hbytes : subject.byteSize ≤ Memory.maxBlock) (hstart : s.start ≤ subject.size)
  (hbatch : 1 ≤ c.batch)

include hs hmode hbytes hstart hbatch

/-- The call answers as the run of its thread ends. -/
theorem call_eq {n : Nat} {u : Thread} (hn : n ≤ 4294967295)
    (hrun : (Task.ofMatcher m subject .direct).run (s.entry subject m) =
      some (.done (.ofCount n) u)) :
    s.call h subject = some ⟨s.engine.beginAttempt.absorb h u, u.output, .ok n⟩ := by
  have hsaved : m.program.saved ≤ s.output.size := by
    rw [hs.output]
    exact Nat.le_mul_of_pos_right _ hbatch
  have hcheck := check_eq_ok hs.reachable.sane hs.get hs.granted hmode hstart hsaved
  have hbegin := (begin_of_room s.output hmode hbytes hstart hs.quiet hs.room).1
  have hending : (s.engine.nextAttempt m subject s.start .direct s.output).ending =
      some (.done (.ofCount n) u) := (Attempt.ending_of_begin hbegin).trans hrun
  have hok : (statusOf (Status.ofCount n).raw).bind countOf = .ok n := answerOf_ofCount hn
  rw [call, exec_of_room hcheck hs.quiet hs.room, hending]
  simp only [conclude, Option.map_some, Result.counted, hok]

/-- **A search that nothing disturbs** stays so. With nothing pending a call makes one attempt and
leaves the guard as it was. -/
theorem after {n : Nat} {u : Thread} (hn : n ≤ 4294967295)
    (hrun : (Task.ofMatcher m subject .direct).run (s.entry subject m) =
      some (.done (.ofCount n) u))
    (hhost : (s.entry subject m).SameHost u) (hsize : u.output.size = s.output.size) :
    (s.after h subject m n u).Calm c h m := by
  have hcall : s.engine.exec h subject s.start s.output = _ :=
    hs.call_eq hmode hbytes hstart hbatch hn hrun
  have hquiet : u.guard.isRaised = false := by
    rw [hhost.guard]
    exact hs.quiet
  have hstore : (s.engine.beginAttempt.absorb h u).store = s.engine.store :=
    if_pos hhost.relocations
  refine ⟨.after (.exec h subject s.start s.output) hs.reachable ?_, ?_, hquiet, hs.granted,
    hs.room, hsize.trans hs.output⟩
  · rw [Engine.after, hcall]
    rfl
  · exact (congrArg (fun store : Store => store.get? h) hstore).trans hs.get

end Calm

end Search

end Engine

/-! ### Batches of one match -/

/-- From this thread on, a run reports one match, with these ends. -/
def Task.ReportsOnce (k : Task) (t : Thread) (x y : Int64) : Prop :=
  ∃ u, k.run t = some (.done (.ofCount 1) (k.report u)) ∧ t.SameHost u ∧ t.SameReport u ∧
    u.reg 0 = x ∧ u.reg 1 = y

/-- A run that reports one match does so from any of its earlier threads that still has the same to
report. -/
theorem Task.ReportsOnce.of_step {k : Task} {t u : Thread} {x y : Int64}
    (hstep : k.step t = .next u) (hhost : t.SameHost u) (hsame : t.SameReport u)
    (h : k.ReportsOnce u x y) : k.ReportsOnce t x y := by
  obtain ⟨v, hrun, hhost', hsame', hx, hy⟩ := h
  refine ⟨v, ?_, hhost.trans hhost', hsame.trans hsame', hx, hy⟩
  rw [Task.run_eq, hstep]
  exact hrun

/-- The ends of a match as they are reported. -/
theorem Task.get_reported (k : Task) {count : Nat} (hcount : 2 ≤ count) (t : Thread) :
    (Captures.ofRegisters (k.reported count t.regs)).get 0 =
      Captures.spanOf (k.captureIndex (t.reg 0)) (k.captureIndex (t.reg 1)) := by
  obtain ⟨rest, hrest⟩ := k.exists_reported hcount t.regs
  simp only [Captures.get, Captures.ofRegisters, hrest, Captures.pairs]
  rfl

namespace Engine.Search

variable {c : Config} {h : Handle} {m : Matcher} {subject : Subject} {s : Search}

/-- A call that reports one match, in batches of one. -/
theorem Calm.exists_continues (hs : s.Calm c h m) (hmode : subject.mode = m.options.mode)
    (hbytes : subject.byteSize ≤ Memory.maxBlock) (hstart : s.start ≤ subject.size)
    (hbatch : c.batch = 1) (hsaved : m.object.saved = m.program.saved)
    (htwo : 2 ≤ m.program.saved) {x y : Int64}
    (hreports : (Task.ofMatcher m subject .direct).ReportsOnce (s.entry subject m) x y) :
    ∃ s', Continues h subject m s s' ∧ s'.Calm c h m ∧ ∃ last, s'.found.back? = some last ∧
      last.get 0 = Captures.spanOf ((Task.ofMatcher m subject .direct).captureIndex x)
        ((Task.ofMatcher m subject .direct).captureIndex y) ∧
      s'.start = resumeIndex subject (m.object.globalMode = .unicode) s.start (some last) := by
  let k := Task.ofMatcher m subject .direct
  obtain ⟨u, hrun, hhost, hsame, rfl, rfl⟩ := hreports
  have hcall := hs.call_eq hmode hbytes hstart (Nat.le_of_eq hbatch.symm) (by decide) hrun
  have hbase : u.outBase = 0 * m.program.saved := by
    rw [hsame.outBase, Nat.zero_mul]
    rfl
  have houtput : u.output = s.output := hsame.output
  have hsets : captureSets m.program.saved (0 + 1) (k.report u).output.toList =
      [] ++ [.ofRegisters (k.reported m.program.saved u.regs)] := by
    have hroom : 0 * m.program.saved + m.program.saved ≤ u.output.size := by
      rw [houtput, hs.output, hbatch]
      omega
    have hreport : (k.report u).output =
        k.storeCaptures m.program.saved (0 * m.program.saved) u.regs u.output := by
      rw [← hbase]
      rfl
    rw [hreport]
    exact k.captureSets_storeCaptures u.regs hroom
  have hback : (s.after h subject m 1 (k.report u)).found.back? =
      some (.ofRegisters (k.reported m.program.saved u.regs)) := by
    simp only [Search.after, resume, collect, hsaved]
    rw [hsets, append_concat, Array.back?_push]
  refine ⟨s.after h subject m 1 (k.report u), .full hstart hcall rfl ?_, ?_, _, hback,
    k.get_reported htwo u, ?_⟩
  · rw [hs.reachable.sane.config, hbatch]
  · refine hs.after hmode hbytes hstart (Nat.le_of_eq hbatch.symm) (by decide) hrun
      ⟨hhost.limit, hhost.guard, hhost.polls, hhost.relocations⟩ ?_
    change (k.storeCaptures _ _ _ _).size = _
    rw [Task.size_storeCaptures, houtput]
  · rw [← hback]
    rfl

end Engine.Search

/-! ### Searches in batches of one -/

namespace Sample

/-- Options for all matches. -/
def throughout : Options := { mode := .latin1, globalMode := .global }

/-- A text of two characters. -/
def letters : Subject := .latin1 #[97, 98]

/-- The whole text at its start, a match without ends at its end, and nothing in between. -/
def rewinder : Program where
  opcodes := #[.onPlace (.outside 0) (some ⟨0⟩), .onPlace (.notAtStart 0) (some ⟨1⟩),
    .writePosition 0 0, .writePosition 1 2, .bind ⟨0⟩, .succeed, .bind ⟨1⟩, .fail]
  labels := 2
  saved := 2

/-- A program that looks for all matches in `letters`. -/
structure Searching (p : Program) (m : Matcher) (k : Task) : Prop where
  /-- The task. -/
  task : k = Task.ofMatcher m letters .direct
  /-- The matcher is that of the program. -/
  program : m.program = p
  /-- It was compiled with the options. -/
  options : m.options = throughout
  /-- It reports two registers. -/
  saved : m.object.saved = 2
  /-- It looks for all matches. -/
  globalMode : m.object.globalMode = .global
  /-- It has two registers. -/
  registers : m.object.registers = 2

theorem bodySize?_searched : rewinder.bodySize? .latin1 = some 56 ∧
    blank.bodySize? .latin1 = some 21 := by
  decide +kernel

/-- A program of two registers that compiles can be searched for all matches one at a time, in a new
engine on the sample text. -/
theorem exists_compile_throughout {p : Program} {n : Nat} (hbody : p.bodySize? .latin1 = some n)
    (hn : n < 2 ^ 30) (hrange : ∀ op ∈ p.opcodes, op.InRange)
    (hreports : (p.reports throughout).head? = none) (hsaved : p.saved = 2)
    (hregisters : p.registerCount = 2) :
    ∃ m, Searching p m (Task.ofMatcher m letters .direct) ∧
      ∃ e, e.Reachable { batch := 1 } ∧ (Engine.Search.first e m).Calm { batch := 1 } ⟨0⟩ m := by
  obtain ⟨m, hm, hregs, -⟩ := Program.exists_compile (o := throughout) hbody hn hrange hreports ""
    Sample.heap
  obtain ⟨comp, hs⟩ := Compiled.shape_of_compile hm
  have hregs : m.object.registers = 2 := hregs.trans hregisters
  have hw : Config.Words { batch := 1 } := by constructor <;> decide
  obtain ⟨e₀, hnew⟩ : ∃ e, Engine.new { batch := 1 } 16 = .ok (.ok e) := ⟨_, rfl⟩
  have hquiet : e₀.guard.isRaised = false := by
    obtain rfl := Except.ok.inj (Except.ok.inj hnew)
    rfl
  obtain ⟨e, hstocked, hstore⟩ := Engine.exists_stocked hw (by decide) hnew hm
  have he := hstocked.reachable
  refine ⟨m, ⟨rfl, hs.program, hs.options, hs.saved.trans hsaved, hs.globalMode, hregs⟩, e, he, he,
    ?_, ?_, ?_, ?_, ?_⟩
  · change e.store.get? ⟨0⟩ = some m
    rw [hstore]
    rfl
  · change e.guard.isRaised = false
    rw [hstocked.guard, hquiet]
  · change e.permissions.isGranted .nativeExecution m.object.source = true
    rw [hstocked.permissions, (Engine.empty_of_new hnew).2]
    rfl
  · rw [hregs]
    change nativeLimit e.gap e.config.nativeBudget < _
    rw [hstocked.gap, Engine.gap_of_new hnew, he.sane.config]
    decide
  · rw [Engine.Search.first, Array.size_replicate, he.sane.config, hs.saved, hs.program]

section Runs

variable {p : Program} {m : Matcher} {k : Task} {t : Thread}

theorem step_searching (hk : Searching p m k) (op : Opcode) (hop : p.opcodes[t.pc]? = some op) :
    k.step t = k.perform op t := by
  have hprogram : k.matcher.program.opcodes = p.opcodes := by
    rw [hk.task]
    exact congrArg Program.opcodes hk.program
  simp only [Task.step, hprogram, hop]

/-- With room for one match only, the first match ends the run. -/
theorem succeed_searching (hk : Searching p m k) (hsaved : p.saved = 2)
    (hcaptures : t.captures = 0) (hremaining : t.remaining = 2) :
    k.succeed t = .done (.ofCount 1) (k.report t) := by
  have hglobal : k.matcher.options.globalMode.isGlobal = true := by
    rw [hk.task]
    change m.options.globalMode.isGlobal = true
    rw [hk.options]
    rfl
  have hprogram : k.matcher.program.saved = 2 := by
    rw [hk.task]
    exact (congrArg Program.saved hk.program).trans hsaved
  rw [Task.succeed_of_full hglobal (by omega), hcaptures]

section Words

variable (hk : Searching p m k)

include hk

theorem mode_searching : k.mode = .latin1 := by
  rw [hk.task]
  change m.options.mode = _
  rw [hk.options]
  rfl

theorem length_searching : k.length = 2 := by
  rw [Task.length, hk.task]
  rfl

theorem position_searching (i : Nat) : k.position i = Int64.ofNat i - 2 := by
  rw [Task.position, mode_searching hk, length_searching hk, Mode.charSize, Nat.mul_one]

theorem before_searching : k.before = -3 := by
  rw [Task.before, Task.unit, mode_searching hk, length_searching hk]
  decide

theorem bytes_searching (count : Int32) : k.bytes count = Int64.ofInt count.toInt := by
  rw [Task.bytes, mode_searching hk]
  simp only [Mode.charSize, Int.natCast_one, Int.mul_one]

theorem unit_searching : k.unit = 1 := by
  rw [Task.unit, mode_searching hk]
  rfl

theorem captureIndex_searching (v : Int64) : k.captureIndex v = (v + 2).toInt32 := by
  simp only [Task.captureIndex, mode_searching hk, length_searching hk]

/-- Tests of the position on the sample text, with its numbers filled in. -/
theorem placeHolds_searching (test : PlaceTest) :
    k.placeHolds t test = match test with
      | .atStart o => t.pos + (Int64.ofInt o.toInt - 1) == -3
      | .notAtStart o => t.pos + (Int64.ofInt o.toInt - 1) != -3
      | .outside o => if 0 ≤ o then -Int64.ofInt o.toInt ≤ t.pos
        else t.pos + Int64.ofInt o.toInt ≤ -3 := by
  cases test <;>
    simp only [Task.placeHolds, bytes_searching hk, unit_searching hk, before_searching hk]

end Words

/-- The end of a run that reports a match. -/
theorem reportsOnce_succeed (hk : Searching p m k) (hsaved : p.saved = 2)
    (hop : p.opcodes[t.pc]? = some .succeed) (hcaptures : t.captures = 0)
    (hremaining : t.remaining = 2) : k.ReportsOnce t (t.reg 0) (t.reg 1) := by
  have hstep : k.step t = .done (.ofCount 1) (k.report t) :=
    (step_searching hk _ hop).trans (succeed_searching hk hsaved hcaptures hremaining)
  refine ⟨t, ?_, .refl t, .refl t, rfl, rfl⟩
  rw [Task.run_eq, hstep]
  rfl

/-- Writing both registers before a report. -/
theorem reportsOnce_written (hk : Searching p m k) (hsize : t.regs.size = 2) {a b : Int32}
    {x y : Int64} (hfirst : p.opcodes[t.pc]? = some (.writePosition 0 a))
    (hlast : p.opcodes[t.pc + 1]? = some (.writePosition 1 b))
    (h : ∀ u : Thread, u.pc = t.pc + 2 → t.SameReport u → u.reg 0 = t.pos + k.bytes a →
      u.reg 1 = t.pos + k.bytes b → k.ReportsOnce u x y) : k.ReportsOnce t x y := by
  let t₁ := (t.setReg 0 (t.pos + k.bytes a)).advance
  let t₂ := (t₁.setReg 1 (t₁.pos + k.bytes b)).advance
  have hsize₁ : t₁.regs.size = 2 := (t.size_regs_setReg 0 _).trans hsize
  have h₁ : k.step t = .next t₁ := step_searching hk _ hfirst
  have h₂ : k.step t₁ = .next t₂ := step_searching hk (t := t₁) _ hlast
  refine .of_step h₁ ⟨rfl, rfl, rfl, rfl⟩ ⟨rfl, rfl, rfl, rfl⟩
    (.of_step h₂ ⟨rfl, rfl, rfl, rfl⟩ ⟨rfl, rfl, rfl, rfl⟩ (h t₂ rfl ⟨rfl, rfl, rfl, rfl⟩ ?_ ?_))
  · exact (t₁.reg_setReg_of_ne _ (by decide)).trans (t.reg_setReg_self _ (by omega))
  · exact t₁.reg_setReg_self _ (by omega)

/-- `blank` finds the empty match wherever it starts. -/
theorem reportsOnce_blank (hk : Searching blank m k) (hpc : t.pc = 0)
    (hsize : t.regs.size = 2) (hcaptures : t.captures = 0)
    (hremaining : t.remaining = 2) : k.ReportsOnce t t.pos t.pos := by
  refine reportsOnce_written hk hsize (a := 0) (b := 0) (by rw [hpc]; rfl) (by rw [hpc]; rfl)
    fun u hpc' hsame hfirst hlast => ?_
  rw [Task.bytes_zero, Int64.add_zero] at hfirst hlast
  have h := reportsOnce_succeed hk (t := u) rfl (by rw [hpc', hpc]; rfl)
    (hsame.captures.trans hcaptures) (hsame.remaining.trans hremaining)
  rwa [hfirst, hlast] at h

/-- `rewinder` finds the whole text at its start. -/
theorem reportsOnce_rewinder (hk : Searching rewinder m k) (hpc : t.pc = 0)
    (hpos : t.pos = k.position 0) (hsize : t.regs.size = 2) (hcaptures : t.captures = 0)
    (hremaining : t.remaining = 2) : k.ReportsOnce t (k.position 0) (k.position 2) := by
  have hpc₁ : t.advance.pc = 1 := congrArg (· + 1) hpc
  have hpc₂ : t.advance.advance.pc = 2 := congrArg (· + 2) hpc
  have hpos₀ : t.pos = -2 := hpos.trans (position_searching hk 0)
  have hpos₁ : t.advance.pos = -2 := hpos₀
  have h₀ : k.step t = .next t.advance := by
    rw [step_searching hk (.onPlace (.outside 0) (some ⟨0⟩)) (by rw [hpc]; rfl), Task.perform,
      Task.branchIf, placeHolds_searching hk, hpos₀]
    rfl
  have h₁ : k.step t.advance = .next t.advance.advance := by
    rw [step_searching hk (.onPlace (.notAtStart 0) (some ⟨1⟩)) (by rw [hpc₁]; rfl),
      Task.perform, Task.branchIf, placeHolds_searching hk, hpos₁]
    rfl
  refine .of_step h₀ ⟨rfl, rfl, rfl, rfl⟩ ⟨rfl, rfl, rfl, rfl⟩
    (.of_step h₁ ⟨rfl, rfl, rfl, rfl⟩ ⟨rfl, rfl, rfl, rfl⟩ ?_)
  refine reportsOnce_written hk (t := t.advance.advance) hsize (a := 0) (b := 2)
    (by rw [hpc₂]; rfl) (by rw [hpc₂]; rfl) fun u hpc' hsame hfirst hlast => ?_
  have hpc₄ : u.pc = 4 := hpc'.trans (congrArg (· + 2) hpc₂)
  have hpc₅ : u.advance.pc = 5 := congrArg (· + 1) hpc₄
  have h := reportsOnce_succeed hk (t := u.advance) rfl (by rw [hpc₅]; rfl)
    (hsame.captures.trans hcaptures) (hsame.remaining.trans hremaining)
  have hstep : k.step u = .next u.advance :=
    step_searching hk (.bind ⟨0⟩) (by rw [hpc₄]; rfl)
  have hfirst : u.advance.reg 0 = k.position 0 := by
    rw [← hpos, ← Int64.add_zero t.pos, ← k.bytes_zero]
    exact hfirst
  have hlast : u.advance.reg 1 = k.position 2 := by
    refine hlast.trans ?_
    change t.advance.pos + k.bytes 2 = _
    rw [hpos₁, bytes_searching hk, position_searching hk]
    rfl
  rw [hfirst, hlast] at h
  exact .of_step hstep ⟨rfl, rfl, rfl, rfl⟩ ⟨rfl, rfl, rfl, rfl⟩ h

/-- The labels of the sample lie where they are bound. -/
theorem place?_rewinder (hk : Searching rewinder m k) :
    k.place? ⟨0⟩ = some 4 ∧ k.place? ⟨1⟩ = some 6 := by
  have hplaces : k.places = rewinder.places := by
    rw [hk.task]
    exact congrArg Program.places hk.program
  rw [Task.place?, Task.place?, hplaces]
  decide +kernel

/-- At the end of the text it finds a match without ends. -/
theorem reportsOnce_rewinder_end (hk : Searching rewinder m k) (hpc : t.pc = 0)
    (hpos : t.pos = k.position 2) (hcaptures : t.captures = 0) (hremaining : t.remaining = 2) :
    k.ReportsOnce t (t.reg 0) (t.reg 1) := by
  let t₁ : Thread := { t with pc := 4 }
  have hpos₀ : t.pos = 0 := hpos.trans (position_searching hk 2)
  have h₀ : k.step t = .next t₁ := by
    rw [step_searching hk (.onPlace (.outside 0) (some ⟨0⟩)) (by rw [hpc]; rfl), Task.perform,
      Task.branchIf, placeHolds_searching hk, hpos₀, Task.branch, Task.jump,
      (place?_rewinder hk).1]
    rfl
  have h₁ : k.step t₁ = .next t₁.advance := step_searching hk (.bind ⟨0⟩) rfl
  exact .of_step h₀ ⟨rfl, rfl, rfl, rfl⟩ ⟨rfl, rfl, rfl, rfl⟩
    (.of_step h₁ ⟨rfl, rfl, rfl, rfl⟩ ⟨rfl, rfl, rfl, rfl⟩
      (reportsOnce_succeed hk (t := t₁.advance) rfl rfl hcaptures hremaining))

/-- In between it finds none. -/
theorem run_rewinder_middle (hk : Searching rewinder m k) (hpc : t.pc = 0)
    (hpos : t.pos = k.position 1) (hcaptures : t.captures = 0) :
    ∃ u, k.run t = some (.done (.ofCount 0) u) := by
  let t₂ : Thread := { t with pc := 6 }
  have hpc₁ : t.advance.pc = 1 := congrArg (· + 1) hpc
  have hpos₀ : t.pos = -1 := hpos.trans (position_searching hk 1)
  have hpos₁ : t.advance.pos = -1 := hpos₀
  have h₀ : k.step t = .next t.advance := by
    rw [step_searching hk (.onPlace (.outside 0) (some ⟨0⟩)) (by rw [hpc]; rfl), Task.perform,
      Task.branchIf, placeHolds_searching hk, hpos₀]
    rfl
  have h₁ : k.step t.advance = .next t₂ := by
    rw [step_searching hk (.onPlace (.notAtStart 0) (some ⟨1⟩)) (by rw [hpc₁]; rfl),
      Task.perform, Task.branchIf, placeHolds_searching hk, hpos₁, Task.branch, Task.jump,
      (place?_rewinder hk).2]
    rfl
  have h₂ : k.step t₂ = .next t₂.advance := step_searching hk (.bind ⟨1⟩) rfl
  have h₃ : k.step t₂.advance = .done (.ofCount 0) t₂.advance := by
    have hglobal : k.matcher.options.globalMode.isGlobal = true := by
      rw [hk.task]
      change m.options.globalMode.isGlobal = true
      rw [hk.options]
      rfl
    have hcaptures : t₂.advance.captures = 0 := hcaptures
    rw [step_searching hk .fail rfl, Task.perform, Task.exit, if_pos hglobal, hcaptures]
  refine ⟨t₂.advance, ?_⟩
  rw [Task.run_eq, h₀, Outcome.ending, Task.run_eq, h₁, Outcome.ending, Task.run_eq, h₂,
    Outcome.ending, Task.run_eq, h₃]
  rfl

end Runs

/-! ### Where the searches go -/

section Searches

variable {p : Program} {m : Matcher} (hk : Searching p m (Task.ofMatcher m letters .direct))
  {s : Engine.Search} (hs : s.Calm { batch := 1 } ⟨0⟩ m)

include hk hs

theorem remaining_searching (hsaved : p.saved = 2) : (s.entry letters m).remaining = 2 := by
  have houtput := hs.output
  rw [hk.program, hsaved] at houtput
  exact houtput

omit hs in
theorem regs_searching :
    (s.entry letters m).regs = Array.replicate 2 (Task.ofMatcher m letters .direct).before :=
  congrArg (Array.replicate · _) hk.registers

omit hs in
theorem size_regs_searching : (s.entry letters m).regs.size = 2 := by
  rw [regs_searching hk, Array.size_replicate]

/-- A call that reports a match fills the batch. -/
theorem exists_continues_searching (hsaved : p.saved = 2) (hstart : s.start ≤ 2) {x y : Int64}
    (hreports : (Task.ofMatcher m letters .direct).ReportsOnce (s.entry letters m) x y) :
    ∃ s', Engine.Search.Continues ⟨0⟩ letters m s s' ∧ s'.Calm { batch := 1 } ⟨0⟩ m ∧
      ∃ last, s'.found.back? = some last ∧
        last.get 0 = Captures.spanOf (x + 2).toInt32 (y + 2).toInt32 ∧
        s'.start = Engine.resumeIndex letters false s.start (some last) := by
  have hmode : letters.mode = m.options.mode := by
    rw [hk.options]
    rfl
  have hsame : m.object.saved = m.program.saved := by rw [hk.saved, hk.program, hsaved]
  obtain ⟨s', hc, hs', last, hback, hget, hstart'⟩ := hs.exists_continues hmode (by decide) hstart
    rfl hsame (by rw [hk.program, hsaved]) hreports
  rw [captureIndex_searching hk, captureIndex_searching hk] at hget
  rw [hk.globalMode] at hstart'
  exact ⟨s', hc, hs', last, hback, hget, hstart'⟩

end Searches

end Sample

namespace Engine.Search

/-- **A search that goes back.** All its calls return, and the one at the end of the text is
followed by one at its second character, since a match without ends counts as an empty one at the
start. -/
theorem continues_back :
    ∃ (e : Engine) (m : Matcher), e.Reachable { batch := 1 } ∧ e.store.get? ⟨0⟩ = some m ∧
      m.object.globalMode.isGlobal = true ∧
      (∀ s, Reaches ⟨0⟩ Sample.letters m e s → s.start ≤ Sample.letters.size →
        ∃ r, s.call ⟨0⟩ Sample.letters = some r) ∧
      ∃ s s', Reaches ⟨0⟩ Sample.letters m e s ∧ Continues ⟨0⟩ Sample.letters m s s' ∧
        s.start = 2 ∧ s'.start = 1 := by
  obtain ⟨m, hk, e, he, hs₀⟩ := Sample.exists_compile_throughout (p := Sample.rewinder) (n := 56)
    Sample.bodySize?_searched.1 (by decide) (by simp [Sample.rewinder, Opcode.InRange, InReach])
    (by decide) rfl rfl
  have hglobal : m.object.globalMode.isGlobal = true := by
    rw [hk.globalMode]
    rfl
  let k := Task.ofMatcher m Sample.letters .direct
  -- The first call reports the whole text,
  have hfirst : k.ReportsOnce ((first e m).entry Sample.letters m) (k.position 0) (k.position 2) :=
    Sample.reportsOnce_rewinder hk rfl rfl (Sample.size_regs_searching hk) rfl
      (Sample.remaining_searching hk hs₀ rfl)
  obtain ⟨s₁, hc₀, hs₁, last₀, -, hget₀, hstart₁⟩ :=
    Sample.exists_continues_searching hk hs₀ rfl (Nat.zero_le 2) hfirst
  rw [Sample.position_searching hk, Sample.position_searching hk] at hget₀
  rw [Captures.resumeIndex_of_get hget₀] at hstart₁
  replace hstart₁ : s₁.start = 2 := hstart₁
  -- the second one an unset match at its end,
  have hpos₁ : (s₁.entry Sample.letters m).pos = k.position 2 := congrArg k.position hstart₁
  have hsecond : k.ReportsOnce (s₁.entry Sample.letters m) k.before k.before := by
    have h := Sample.reportsOnce_rewinder_end hk rfl hpos₁ rfl
      (Sample.remaining_searching hk hs₁ rfl)
    rwa [Thread.reg, Thread.reg, Sample.regs_searching hk] at h
  obtain ⟨s₂, hc₁, hs₂, last₁, -, hget₁, hstart₂⟩ :=
    Sample.exists_continues_searching hk hs₁ rfl (Nat.le_of_eq hstart₁) hsecond
  rw [Sample.before_searching hk] at hget₁
  rw [Captures.resumeIndex_of_unset hget₁] at hstart₂
  replace hstart₂ : s₂.start = 1 := hstart₂
  -- and the third one nothing.
  have hpos₂ : (s₂.entry Sample.letters m).pos = k.position 1 := congrArg k.position hstart₂
  have hmode : Sample.letters.mode = m.options.mode := by
    rw [hk.options]
    rfl
  obtain ⟨u, hu⟩ := Sample.run_rewinder_middle hk rfl hpos₂ rfl
  have hcall₂ := hs₂.call_eq hmode (by decide) (by rw [hstart₂]; decide) (Nat.le_refl 1)
    (by decide) hu
  refine ⟨e, m, he, hs₀.get, hglobal, fun s hs _ => ?_, s₁, s₂, .single hc₀, hc₁, hstart₁, hstart₂⟩
  have hlast : ∀ s', ¬Continues ⟨0⟩ Sample.letters m s₂ s' := by
    rintro s' ⟨-, hcall, hanswer, hfull⟩
    obtain rfl := Option.some.inj (hcall.symm.trans hcall₂)
    obtain rfl := Except.ok.inj hanswer
    rw [hs₂.reachable.sane.config] at hfull
    exact absurd hfull (by decide)
  -- There are no other calls.
  obtain rfl | ⟨s', hc, hs⟩ := hs.cases_head
  · exact hc₀.exists_call
  obtain rfl := hc₀.unique hc
  obtain rfl | ⟨s', hc, hs⟩ := hs.cases_head
  · exact hc₁.exists_call
  obtain rfl := hc₁.unique hc
  obtain rfl | ⟨s', hc, -⟩ := hs.cases_head
  · exact ⟨_, hcall₂⟩
  · exact absurd hc (hlast s')

/-- **A search that never ends.** All its calls return, each with a match that has no ends. -/
theorem findAll_barren :
    ∃ (e : Engine) (m : Matcher), e.Reachable { batch := 1 } ∧ e.store.get? ⟨0⟩ = some m ∧
      m.object.globalMode.isGlobal = true ∧
      (∀ s, Reaches ⟨0⟩ Sample.letters m e s → ∃ r, s.call ⟨0⟩ Sample.letters = some r) ∧
      e.findAll ⟨0⟩ Sample.letters = .ok none := by
  obtain ⟨m, hk, e, he, hs₀⟩ := Sample.exists_compile_throughout (p := Sample.barren) (n := 10)
    Sample.bodySize?_barren (by decide) (by simp [Sample.barren, Opcode.InRange])
    (by decide) rfl rfl
  have hglobal : m.object.globalMode.isGlobal = true := by
    rw [hk.globalMode]
    rfl
  let k := Task.ofMatcher m Sample.letters .direct
  -- Every call starts at one of the first two characters.
  have hstep {s : Search} (hs : s.Calm { batch := 1 } ⟨0⟩ m) (hstart : s.start ≤ 1) :
      ∃ s', Continues ⟨0⟩ Sample.letters m s s' ∧ s'.Calm { batch := 1 } ⟨0⟩ m ∧
        s'.start ≤ 1 := by
    have hreports : k.ReportsOnce (s.entry Sample.letters m) k.before k.before := by
      have h := Sample.reportsOnce_succeed hk (t := s.entry Sample.letters m) rfl rfl rfl
        (Sample.remaining_searching hk hs rfl)
      rwa [Thread.reg, Thread.reg, Sample.regs_searching hk] at h
    obtain ⟨s', hc, hs', last, -, hget, hstart'⟩ :=
      Sample.exists_continues_searching hk hs rfl (Nat.le_succ_of_le hstart) hreports
    have hunset : last.get 0 = none := by
      rw [hget, Sample.before_searching hk]
      decide
    rw [Captures.resumeIndex_of_unset hunset] at hstart'
    exact ⟨s', hc, hs', Nat.le_of_eq hstart'⟩
  have hall (s : Search) (hs : Reaches ⟨0⟩ Sample.letters m e s) :
      s.Calm { batch := 1 } ⟨0⟩ m ∧ s.start ≤ 1 := by
    induction hs with
    | refl => exact ⟨hs₀, Nat.zero_le 1⟩
    | tail _ hc ih =>
      obtain ⟨s', hc', hs', hstart'⟩ := hstep ih.1 ih.2
      obtain rfl := hc.unique hc'
      exact ⟨hs', hstart'⟩
  have hgoes (s : Search) (hs : Reaches ⟨0⟩ Sample.letters m e s) :
      ∃ s', Continues ⟨0⟩ Sample.letters m s s' := by
    obtain ⟨hcalm, hstart⟩ := hall s hs
    obtain ⟨s', hc, -⟩ := hstep hcalm hstart
    exact ⟨s', hc⟩
  refine ⟨e, m, he, hs₀.get, hglobal, fun s hs => ?_, ?_⟩
  · obtain ⟨s', hc⟩ := hgoes s hs
    exact hc.exists_call
  · have hget : e.store.get? ⟨0⟩ = some m := hs₀.get
    rw [findAll_of_memory hget hglobal (by rw [hk.saved, he.sane.config]; decide)]
    exact congrArg _ (findFrom_eq_none (s := first e m) hgoes)

/-- A search that finds the empty match everywhere comes to its end. -/
theorem findAll_progress_blank :
    ∃ (e : Engine) (m : Matcher), e.Reachable { batch := 1 } ∧ e.store.get? ⟨0⟩ = some m ∧
      m.object.globalMode.isGlobal = true ∧
      (∃ s', Continues ⟨0⟩ Sample.letters m (first e m) s' ∧ (first e m).start < s'.start) ∧
      ∃ r, e.findAll ⟨0⟩ Sample.letters = .ok (some r) := by
  obtain ⟨m, hk, e, he, hs₀⟩ := Sample.exists_compile_throughout (p := Sample.blank) (n := 21)
    Sample.bodySize?_searched.2 (by decide) (by simp [Sample.blank, Opcode.InRange, InReach])
    (by decide) rfl rfl
  have hglobal : m.object.globalMode.isGlobal = true := by
    rw [hk.globalMode]
    rfl
  let k := Task.ofMatcher m Sample.letters .direct
  have hstep {s : Search} (hs : s.Calm { batch := 1 } ⟨0⟩ m) (hstart : s.start ≤ 2) :
      ∃ s', Continues ⟨0⟩ Sample.letters m s s' ∧ s'.Calm { batch := 1 } ⟨0⟩ m ∧
        ∃ last, s'.found.back? = some last ∧ last.get 0 = some (s.start, s.start) := by
    have hreports : k.ReportsOnce (s.entry Sample.letters m) (k.position s.start)
        (k.position s.start) :=
      Sample.reportsOnce_blank hk rfl (Sample.size_regs_searching hk) rfl
        (Sample.remaining_searching hk hs rfl)
    obtain ⟨s', hc, hs', last, hback, hget, -⟩ :=
      Sample.exists_continues_searching hk hs rfl hstart hreports
    refine ⟨s', hc, hs', last, hback, ?_⟩
    rw [hget, Sample.position_searching hk]
    obtain hi | hi | hi : s.start = 0 ∨ s.start = 1 ∨ s.start = 2 := by omega
    all_goals
      rw [hi]
      decide
  have hcalm (s : Search) (hs : Reaches ⟨0⟩ Sample.letters m e s) :
      s.Calm { batch := 1 } ⟨0⟩ m := by
    induction hs with
    | refl => exact hs₀
    | tail _ hc ih =>
      obtain ⟨s', hc', hs', -⟩ := hstep ih hc.start_le
      obtain rfl := hc.unique hc'
      exact hs'
  have hget : e.store.get? ⟨0⟩ = some m := hs₀.get
  obtain ⟨hnext, hends⟩ := findAll_progress he hget hglobal Sample.letters
  refine ⟨e, m, he, hget, hglobal, ?_, hends ?_ (fun s hs hstart => ?_)
    fun s s' last hs hc hlast => ?_⟩
  · obtain ⟨s', hc, -, last, hback, hlast⟩ := hstep hs₀ (Nat.zero_le 2)
    obtain ⟨last', hback', hiff⟩ := hnext _ s' .refl hc
    obtain rfl := Option.some.inj (hback.symm.trans hback')
    exact ⟨s', hc, hiff.mpr (Captures.leadsOn_of_get hlast (Nat.le_refl _) (Nat.le_refl _))⟩
  · rw [hk.saved]
    decide
  · obtain ⟨s', hc, -⟩ := hstep (hcalm s hs) hstart
    exact hc.exists_call
  · obtain ⟨s'', hc', -, last', hback, hget'⟩ := hstep (hcalm s hs) hc.start_le
    obtain rfl := hc.unique hc'
    obtain rfl := Option.some.inj (hback.symm.trans hlast)
    exact Captures.leadsOn_of_get hget' (Nat.le_refl _) (Nat.le_refl _)

end Engine.Search

end NativeMatcher
