import NativeMatcher.Proofs.Attempt
import NativeMatcher.Proofs.Report
import NativeMatcher.Proofs.Tracking

/-!
# Searching for all matches

A search for all matches has two places that decide where the next match starts: generated
code, which starts over inside one call as long as the output has room, and the host, which
asks again after a full batch. This file compares them with a search that knows of neither: one
that asks for a single match at a time and moves its own index
(`NativeMatcher.Engine.searchFrom`).

Up to the first success the two make the same run (`NativeMatcher.Task.Globalizes`). There the
one is done, and the other starts over as a new call from the next index would start
(`NativeMatcher.Task.startOver_position`), the memory of the backtrack stack included, since an
engine keeps what a match leaves there.

The induction (`NativeMatcher.Engine.Ready.conclude_eq_searchFrom`) is on what is left of the
subject. It treats a start over inside a call and one between two calls alike, so the size of a
batch does not matter; whatever it is, the answer is that of the search one by one
(`NativeMatcher.Engine.findAll_eq_search`).
-/

namespace NativeMatcher

/-! ### What is compared -/

/-- A matcher for all matches beside one of the same program that stops at the first. Neither
counts backtracks. -/
structure Matcher.Pair (m m' : Matcher) : Prop where
  /-- The programs are the same. -/
  program : m'.program = m.program
  /-- The encodings are the same. -/
  mode : m'.options.mode = m.options.mode
  /-- The sources are the same. -/
  source : m'.object.source = m.object.source
  /-- The one looks for all matches, and goes on after empty ones. -/
  global : m.options.globalMode = .global ∨ m.options.globalMode = .unicode
  /-- The other stops at the first. -/
  notGlobal : m'.options.globalMode = .notGlobal
  /-- The one does not count backtracks. -/
  unlimited : m.options.backtrackLimit = none
  /-- Nor does the other. -/
  unlimited' : m'.options.backtrackLimit = none

/-- The match that a thread is about to report goes from index `i` to index `j`, and the thread
stands at its end; both are reported as what they are. -/
structure Task.Spans (k : Task) (t : Thread) (i j : Nat) : Prop where
  /-- It does not end before it starts. -/
  le : i ≤ j
  /-- It ends within the subject. -/
  le_size : j ≤ k.subject.size
  /-- Its start is in register 0. -/
  first : t.reg 0 = k.position i
  /-- Its end is in register 1. -/
  last : t.reg 1 = k.position j
  /-- The position is the end. -/
  pos : t.pos = t.reg 1
  /-- The start as it is reported. -/
  firstIndex : (k.captureIndex (t.reg 0)).toInt = i
  /-- The end as it is reported. -/
  lastIndex : (k.captureIndex (t.reg 1)).toInt = j

namespace Task

variable {k : Task} {t : Thread} {i j : Nat}

/-- In a subject of fewer than `2 ^ 31` characters the registers are all there is to see to. -/
theorem Spans.of_position (hij : i ≤ j) (hj : j ≤ k.subject.size) (hsize : k.subject.size < 2 ^ 31)
    (hfirst : t.reg 0 = k.position i) (hlast : t.reg 1 = k.position j) (hpos : t.pos = t.reg 1) :
    k.Spans t i j := by
  refine ⟨hij, hj, hfirst, hlast, hpos, ?_, ?_⟩
  · rw [hfirst]
    exact toInt_captureIndex_position hsize (Nat.le_trans hij hj)
  · rw [hlast]
    exact toInt_captureIndex_position hsize hj

/-- The captures of a match have its span. -/
theorem Spans.span_reported (h : k.Spans t i j) {count : Nat} (hcount : 2 ≤ count) :
    (Captures.ofRegisters (k.reported count t.regs)).span = (i, j) := by
  obtain ⟨rest, hrest⟩ := k.exists_reported hcount t.regs
  have hfirst : (k.captureIndex (t.regs.getD 0 0)).toInt = i := h.firstIndex
  have hlast : (k.captureIndex (t.regs.getD 1 0)).toInt = j := h.lastIndex
  have hspan : Captures.spanOf (k.captureIndex (t.regs.getD 0 0))
      (k.captureIndex (t.regs.getD 1 0)) = some (i, j) := by
    rw [Captures.spanOf, hfirst, hlast, if_pos ⟨Int.natCast_nonneg i, Int.natCast_nonneg j⟩]
    rfl
  simp only [Captures.span, Captures.get, Captures.ofRegisters, hrest, Captures.pairs, hspan]
  rfl

/-- The thread after the report of a match. -/
def report (k : Task) (t : Thread) : Thread :=
  { t with
    output := k.storeCaptures k.matcher.program.saved t.outBase t.regs t.output
    captures := t.captures + 1 }

/-- The thread after the report of a match, with the output turned to the next one. -/
def turn (k : Task) (t : Thread) : Thread :=
  { k.report t with
    remaining := t.remaining - k.matcher.program.saved
    outBase := t.outBase + k.matcher.program.saved
    depth := 0 }

/-- A success in a global mode that leaves no room for another match is the end. -/
theorem succeed_of_full
    (hglobal : k.matcher.options.globalMode.isGlobal = true)
    (hfull : t.remaining < k.matcher.program.saved + k.matcher.program.saved) :
    k.succeed t = .done (.ofCount (t.captures + 1)) (k.report t) := by
  simp only [succeed, exit, hglobal, if_true, if_pos hfull]
  rfl

/-- A success of a global mode that minds no empty matches tries anew from the same place, if there
is room for another match. -/
theorem succeed_of_unchecked
    (hoption : k.matcher.options.globalMode = .noZeroLengthCheck)
    (hroom : k.matcher.program.saved + k.matcher.program.saved ≤ t.remaining) :
    k.succeed t = k.restart (k.turn t) := by
  have hglobal : GlobalMode.noZeroLengthCheck.isGlobal = true := rfl
  have hcheck : GlobalMode.noZeroLengthCheck.checksZeroLength = false := rfl
  simp only [succeed, startOver, hoption, hglobal, hcheck, if_true, if_neg (Nat.not_lt.mpr hroom),
    Bool.false_and, Bool.false_eq_true, if_false]
  rfl

variable {k' : Task} (hk : Globalizes k k')

include hk

/-- Threads that are alike up to the number of matches have the same span. -/
theorem Spans.of_tracks {u : Thread} (h : k'.Spans u i j) (htracks : t.Tracks u) :
    k.Spans t i j := by
  obtain ⟨r, rfl⟩ := htracks
  refine ⟨h.le, ?_, ?_, ?_, h.pos, ?_, ?_⟩
  · rw [hk.subject]
    exact h.le_size
  · rw [hk.position_eq]
    exact h.first
  · rw [hk.position_eq]
    exact h.last
  · rw [hk.captureIndex_eq]
    exact h.firstIndex
  · rw [hk.captureIndex_eq]
    exact h.lastIndex

/-- Threads that track each other report the same match. -/
theorem reported_of_tracks {u : Thread} (htracks : t.Tracks u) (count : Nat) :
    k'.reported count u.regs = k.reported count t.regs := by
  obtain ⟨r, rfl⟩ := htracks
  rw [reported, reported, hk.captureIndex_eq]
  rfl

/-- Two threads that try anew from the same index track each other. -/
theorem tracks_afresh {u : Thread} (i : Nat) (hdepth : u.depth = t.depth)
    (hlimit : u.limit = t.limit) (hstack : u.stack = t.stack) (hguard : u.guard = t.guard) :
    (k.afresh i t).Tracks (k'.afresh i u) := by
  refine .of_eq ?_ hlimit hstack hguard
  simp only [Thread.cursor, afresh, hk.position_eq, hk.charBefore?_eq, hk.registers, hk.before_eq,
    hdepth]

/-- **What a success does in a global mode**: it reports the match, and tries anew from the
index after it unless the output is full or the subject at its end. -/
theorem succeed_of_spans {next : Nat} (hmode : k.subject.mode = k.mode)
    (hbytes : k.subject.byteSize ≤ Memory.maxBlock) (h : k.Spans t i j)
    (hnext : k.subject.indexAfter (k.matcher.options.globalMode = .unicode) i j = next) :
    k.succeed t =
      if t.remaining < k.matcher.program.saved + k.matcher.program.saved then
        .done (.ofCount (t.captures + 1)) (k.report t)
      else if k.subject.size < next then .done (.ofCount (t.captures + 1)) (k.turn t)
      else .next (k.afresh next (k.turn t)) := by
  have hpos : (k.turn t).pos = k.position j := h.pos.trans h.last
  have hover := startOver_position hmode hbytes h.le h.le_size hpos hk.global hnext
  rw [← h.first, hk.exit_eq] at hover
  unfold succeed
  simp only [hk.isGlobal, if_true]
  split
  · exact hk.exit_eq _
  · exact hover

end Task

/-- Every success of an attempt is a match that does not start before `start`. -/
def Attempt.SpansFrom (a : Attempt) (start : Nat) : Prop :=
  ∀ t unchecked, a.Passes t unchecked → a.task.move t = .succeed →
    ∃ i j, start ≤ i ∧ a.task.Spans t i j

/-- The matchers of a pair have the same code. -/
theorem Matcher.Pair.globalizes {c : Config} {e : Engine} {h h' : Handle} {m m' : Matcher}
    (hpair : m.Pair m') (hs : e.Sane c) (hget : e.store.get? h = some m)
    (hget' : e.store.get? h' = some m') (subject : Subject) :
    (Task.ofMatcher m subject .direct).Globalizes (Task.ofMatcher m' subject .direct) := by
  have hm := hs.compiled h m hget
  have hm' := hs.compiled h' m' hget'
  rw [hpair.program] at hm'
  refine ⟨hm.sameCode hm' hpair.mode.symm subject .direct .direct, ?_, hpair.notGlobal,
    hpair.unlimited, hpair.unlimited'⟩
  change m.options.globalMode.checksZeroLength = true
  rcases hpair.global with hg | hg <;> rw [hg] <;> rfl

namespace Engine

/-- The engine with another size of batches. -/
def withBatch (e : Engine) (batch : Nat) : Engine :=
  { e with config := { e.config with batch := batch } }

/-- Collects matches one by one, with a program that stops at the first: from the end of each
match on, or one character on if it is empty. -/
def searchFrom (h : Handle) (subject : Subject) (m : Matcher) (unicode : Bool) (e : Engine)
    (start : Nat) (found : Array Captures) : Option (Engine × Except MatchError (List Captures)) :=
  if subject.size < start then some (e, .ok found.toList)
  else
    match e.exec h subject start (Array.replicate m.object.saved (-1)) with
    | none => none
    | some ⟨e', _, .error err⟩ => some (e', .error err)
    | some ⟨e', output, .ok n⟩ =>
      if n = 0 then some (e', .ok found.toList)
      else
        let first := (output.getD 0 0).toInt.toNat
        let stop := (output.getD 1 0).toInt.toNat
        e' |>.searchFrom h subject m unicode (subject.indexAfter unicode first stop)
          (found.push (.ofRegisters output.toList))
partial_fixpoint

/-- Every match, one by one. -/
def search (e : Engine) (h : Handle) (subject : Subject) (m : Matcher) (unicode : Bool) :
    Option (Engine × Except MatchError (List Captures)) :=
  searchFrom h subject m unicode e 0 #[]

/-! ### One call -/

/-- What a search in batches does with the result of a call. -/
def afterBatch (h : Handle) (subject : Subject) (m : Matcher) (batch start : Nat)
    (found : Array Captures) (r : Result Nat) :
    Option (Engine × Except MatchError (List Captures)) :=
  match r.answer with
  | .error err => some (r.engine, .error err)
  | .ok n =>
    let found := found ++ captureSets m.object.saved n r.output.toList
    if n < batch then some (r.engine, .ok found.toList)
    else
      let start := resumeIndex subject (m.object.globalMode = .unicode) start found.back?
      findFrom h subject m r.engine start r.output found

theorem countOf_ofCount (n : Nat) : countOf (.ofCount n) = .ok n := by
  cases n <;> rfl

/-- After a call that reported `n` matches, a search in batches is done unless the batch is
full. -/
theorem afterBatch_of_done {E : Engine} {h : Handle} {subject : Subject} {m : Matcher}
    {batch start n : Nat} {output : Array Int32} {found : Array Captures} {t : Thread}
    (hn : n ≤ 4294967295) :
    ((E.conclude h output (some (.done (.ofCount n) t))).map Result.counted).bind
        (afterBatch h subject m batch start found) =
      if n < batch then
        some (E.beginAttempt.absorb h t,
          .ok (found ++ captureSets m.object.saved n t.output.toList).toList)
      else
        findFrom h subject m (E.beginAttempt.absorb h t)
          (resumeIndex subject (m.object.globalMode = .unicode) start
            (found ++ captureSets m.object.saved n t.output.toList).back?)
          t.output (found ++ captureSets m.object.saved n t.output.toList) := by
  have hok : (statusOf (Status.ofCount n).raw).bind countOf = .ok n := answerOf_ofCount hn
  simp only [conclude, Option.map_some, Result.counted, Option.bind_some, afterBatch, hok]

/-- What a search one by one does with the result of a call. -/
def afterMatch (h : Handle) (subject : Subject) (m : Matcher) (unicode : Bool)
    (found : Array Captures) (r : Result Nat) :
    Option (Engine × Except MatchError (List Captures)) :=
  match r.answer with
  | .error err => some (r.engine, .error err)
  | .ok n =>
    if n = 0 then some (r.engine, .ok found.toList)
    else
      let first := (r.output.getD 0 0).toInt.toNat
      let stop := (r.output.getD 1 0).toInt.toNat
      searchFrom h subject m unicode r.engine (subject.indexAfter unicode first stop)
        (found.push (.ofRegisters r.output.toList))

section Calls

variable {e : Engine} {h : Handle} {m : Matcher} {subject : Subject} {start : Nat}
  {output : Array Int32} {found : Array Captures}

theorem findFrom_of_lt (hstart : subject.size < start) :
    findFrom h subject m e start output found = some (e, .ok found.toList) := by
  rw [findFrom.eq_1, if_pos hstart]

theorem findFrom_of_le (hstart : start ≤ subject.size) :
    findFrom h subject m e start output found =
      (e.exec h subject start output).bind (afterBatch h subject m e.config.batch start found) := by
  rw [findFrom.eq_1, if_neg (Nat.not_lt.mpr hstart)]
  rcases e.exec h subject start output with - | ⟨e', output', - | n⟩ <;> rfl

theorem searchFrom_of_lt {unicode : Bool} (hstart : subject.size < start) :
    searchFrom h subject m unicode e start found = some (e, .ok found.toList) := by
  rw [searchFrom.eq_1, if_pos hstart]

theorem searchFrom_of_le {unicode : Bool} (hstart : start ≤ subject.size) :
    searchFrom h subject m unicode e start found =
      (e.exec h subject start (Array.replicate m.object.saved (-1))).bind
        (afterMatch h subject m unicode found) := by
  rw [searchFrom.eq_1, if_neg (Nat.not_lt.mpr hstart)]
  rcases e.exec h subject start _ with - | ⟨e', output', - | n⟩ <;> rfl

/-- A call of a permitted program passes the check, if the subject and the output are fit. -/
theorem check_eq_ok {c : Config} (hs : e.Sane c) (hget : e.store.get? h = some m)
    (hgranted : e.permissions.isGranted .nativeExecution m.object.source = true)
    (hmode : subject.mode = m.options.mode) (hstart : start ≤ subject.size)
    (houtput : m.program.saved ≤ output.size) :
    e.check h subject start output.size = .ok m := by
  rw [check_of_permitted hs hget hgranted, if_neg (not_not.mpr hmode), if_neg (by omega),
    if_neg (by omega)]

/-- Without permission there is no call. -/
theorem answer_of_denied (hget : e.store.get? h = some m)
    (hdenied : e.permissions.isGranted .nativeExecution m.object.source = false) :
    (e.exec h subject start output).map Result.answer =
      some (.error (.permissionDenied .nativeExecution)) := by
  have hcheck : e.check h subject start output.size =
      .error (.permissionDenied .nativeExecution) := by
    simp only [check, hget, hdenied, Bool.not_false, if_true]
  rw [exec, hcheck]
  rfl

/-- With nothing raised a call makes one attempt, if there is room for its frame. -/
theorem exec_of_room (hcheck : e.check h subject start output.size = .ok m)
    (hquiet : e.guard.isRaised = false)
    (hroom : nativeLimit e.gap e.config.nativeBudget < nativePointer m.object.registers) :
    e.exec h subject start output =
      (e.conclude h output (e.nextAttempt m subject start .direct output).ending).map
        Result.counted := by
  have hne := ne_retry_of_quiet subject start .direct output hroom hquiet
  rw [exec_of_check hcheck, (attempts_of_ne_retry h e.config.maxRetries hne).1]

/-- Without room the first poll finds the native stack exhausted. It fires since the limit lies
above its stack pointer, and the host refuses it, for the return slot lies lower still. -/
theorem answer_of_no_room (hcheck : e.check h subject start output.size = .ok m)
    (hquiet : e.guard.isRaised = false)
    (hroom : ¬nativeLimit e.gap e.config.nativeBudget < nativePointer m.object.registers) :
    (e.exec h subject start output).map Result.answer = some (.error .stackOverflow) := by
  let a := e.nextAttempt m subject start .direct output
  have hlimit : ¬a.entry.limit < a.task.sp := by
    have hno : a.entry.guard.isRaised = false := hquiet
    change ¬a.entry.guard.interruptLimit < _
    rw [Guard.interruptLimit, hno]
    exact hroom
  have hanswer : a.entry.guard.answer a.task.origin (returnSlot a.task.sp) =
      .unwind .exception := by
    have hle : returnSlot a.task.sp ≤ a.entry.guard.nativeLimit :=
      UInt64.le_trans (returnSlot_le _) (UInt64.not_lt.mp hroom)
    simp only [Guard.answer, if_pos hle]
  have hending : a.ending = some (.done .exception { a.entry with polls := 1 }) := by
    have hpoll : a.task.poll a.entry = .done .exception { a.entry with polls := 1 } := by
      have hzero : a.entry.polls + 1 = 1 := rfl
      simp only [Task.poll, if_neg hlimit, hanswer, hzero]
    change ((a.task.poll a.entry).andThen a.task.restart).ending a.task.run = _
    rw [hpoll]
    rfl
  have hne : ∀ t, a.ending ≠ some (.done .retry t) := by
    intro t hcon
    rw [hending] at hcon
    cases hcon
  rw [exec_of_check hcheck, (attempts_of_ne_retry h e.config.maxRetries hne).1]
  change ((e.conclude h output a.ending).map _).map _ = _
  rw [hending]
  rfl

variable (output) in
/-- With nothing raised and room for its frame, an attempt tries from its start on. -/
theorem begin_of_room (hmode : subject.mode = m.options.mode)
    (hbytes : subject.byteSize ≤ Memory.maxBlock) (hstart : start ≤ subject.size)
    (hquiet : e.guard.isRaised = false)
    (hroom : nativeLimit e.gap e.config.nativeBudget < nativePointer m.object.registers) :
    let a := e.nextAttempt m subject start .direct output
    a.begin = .next (a.task.afresh start a.entry) ∧
      a.task.Settled (a.task.afresh start a.entry) := by
  intro a
  obtain ⟨hp, hset⟩ := opened_of_quiet subject start .direct output hroom hquiet
  refine ⟨?_, hset.limit, hset.room, hset.calm⟩
  rw [Attempt.begin_of_opened hp]
  exact Task.restart_position hmode hbytes hstart rfl

end Calls

/-! ### Two searches at the same place -/

/-- What holds of an engine throughout a search. -/
structure Ready (c : Config) (h h' : Handle) (m m' : Matcher) (e : Engine) : Prop where
  /-- It is reachable. -/
  reachable : e.Reachable c
  /-- The one handle is for all matches. -/
  get : e.store.get? h = some m
  /-- The other is for the first. -/
  get' : e.store.get? h' = some m'
  /-- Nothing is raised. -/
  quiet : e.guard.isRaised = false
  /-- The programs may be run. -/
  granted : e.permissions.isGranted .nativeExecution m.object.source = true
  /-- There is room for a frame. -/
  room : nativeLimit e.gap e.config.nativeBudget < nativePointer m.object.registers

/-- What the two searches are about: a pair of matchers, a subject of their encoding that fits
into memory, and successes that are matches. -/
structure Searchable (c : Config) (m m' : Matcher) (subject : Subject) : Prop where
  /-- The matchers are a pair. -/
  pair : m.Pair m'
  /-- The subject has their encoding. -/
  mode : subject.mode = m.options.mode
  /-- It fits into memory. -/
  bytes : subject.byteSize ≤ Memory.maxBlock
  /-- Successes are matches, whatever a session has left behind. -/
  spans : ∀ (e : Engine) (start : Nat), e.Reachable c → start ≤ subject.size →
    (e.nextAttempt m' subject start .direct
      (Array.replicate m'.object.saved (-1))).SpansFrom start

/-- An engine that searches in batches beside one that searches one by one. -/
structure Beside (batch : Nat) (e e' : Engine) : Prop where
  /-- The configurations differ in the size of batches. -/
  config : e.config = { e'.config with batch := batch }
  /-- The gaps are the same. -/
  gap : e.gap = e'.gap
  /-- The permissions are the same. -/
  permissions : e.permissions = e'.permissions
  /-- So are the compiled programs. -/
  store : e.store = e'.store
  /-- And the interrupts, once a call has begun. -/
  guard : e.beginAttempt.guard = e'.beginAttempt.guard

/-- The two stay beside each other while the one goes on inside a call. -/
theorem Beside.inside {batch : Nat} {E e e' : Engine} (hb : Beside batch E e)
    (hconfig : e'.config = e.config) (hgap : e'.gap = e.gap)
    (hpermissions : e'.permissions = e.permissions) (hstore : e'.store = e.store)
    (hguard : e'.guard = e.beginAttempt.guard) : Beside batch E e' := by
  refine ⟨?_, ?_, ?_, ?_, ?_⟩
  · rw [hconfig, hb.config]
  · rw [hgap, hb.gap]
  · rw [hpermissions, hb.permissions]
  · rw [hstore, hb.store]
  · change _ = e'.guard.setNativeLimit _
    rw [hb.guard, hguard, hconfig, hgap]
    rfl

/-- And when it makes another one. -/
theorem Beside.between {batch : Nat} {E e : Engine} {h : Handle} {t : Thread}
    (hb : Beside batch E e) (hguard : t.guard = E.beginAttempt.guard)
    (hrelocations : t.relocations = 0) : Beside batch (E.beginAttempt.absorb h t) e := by
  refine ⟨hb.config, hb.gap, hb.permissions, ?_, ?_⟩
  · exact (if_pos hrelocations).trans hb.store
  · change t.guard.setNativeLimit _ = _
    rw [hguard]
    exact hb.guard

/-- A thread that has reported `count` of the `batch` matches it has room for is about to try
anew, as a call to an engine would. -/
structure Resumes (e : Engine) (saved batch count : Nat) (t : Thread) : Prop where
  /-- The backtrack stack is empty. -/
  depth : t.depth = 0
  /-- Its memory is the engine's. -/
  stack : t.stack = e.stack
  /-- The interrupts are the engine's. -/
  guard : t.guard = e.beginAttempt.guard
  /-- The limit is up to date. -/
  limit : t.limit = t.guard.interruptLimit
  /-- The code has not moved. -/
  relocations : t.relocations = 0
  /-- The capture sets are counted. -/
  captures : t.captures = count
  /-- The next one goes after the others. -/
  outBase : t.outBase = count * saved
  /-- The rest of the output is left. -/
  remaining : t.remaining = (batch - count) * saved
  /-- The output holds a batch. -/
  output : t.output.size = batch * saved

namespace Ready

variable {c : Config} {h h' : Handle} {m m' : Matcher} {e : Engine} {subject : Subject}
  (hr : Ready c h h' m m' e)

include hr

theorem saved_eq : m.object.saved = m.program.saved := by
  obtain ⟨comp, hshape⟩ := (hr.reachable.sane.compiled h m hr.get).shape
  exact hshape.saved

theorem globalMode_eq : m.object.globalMode = m.options.globalMode := by
  obtain ⟨comp, hshape⟩ := (hr.reachable.sane.compiled h m hr.get).shape
  exact hshape.globalMode

theorem saved_eq' (hpair : m.Pair m') : m'.object.saved = m.program.saved := by
  obtain ⟨comp, hshape⟩ := (hr.reachable.sane.compiled h' m' hr.get').shape
  rw [hshape.saved, hpair.program]

/-- A search for all matches reports their ends. -/
theorem two_le_saved (hpair : m.Pair m') : 2 ≤ m.program.saved := by
  obtain ⟨comp, hshape⟩ := (hr.reachable.sane.compiled h m hr.get).shape
  refine hshape.two_le_saved ?_
  rcases hpair.global with hg | hg <;> rw [hg] <;> rfl

theorem globalizes (hpair : m.Pair m') (subject : Subject) :
    (Task.ofMatcher m subject .direct).Globalizes (Task.ofMatcher m' subject .direct) :=
  hpair.globalizes hr.reachable.sane hr.get hr.get' subject

theorem room' (hpair : m.Pair m') :
    nativeLimit e.gap e.config.nativeBudget < nativePointer m'.object.registers := by
  have hregs := (hr.globalizes hpair (.latin1 #[])).registers
  have hroom := hr.room
  change m.object.registers = m'.object.registers at hregs
  rwa [← hregs]

/-- A search one by one makes a call. -/
theorem searchFrom_eq (hs : Searchable c m m' subject) {i : Nat} (hi : i ≤ subject.size)
    (unicode : Bool) (found : Array Captures) :
    let a := e.nextAttempt m' subject i .direct (Array.replicate m'.object.saved (-1))
    e.exec h' subject i (Array.replicate m'.object.saved (-1)) =
        (e.conclude h' (Array.replicate m'.object.saved (-1))
          (a.task.run (a.task.afresh i a.entry))).map Result.counted ∧
      searchFrom h' subject m' unicode e i found =
        ((e.conclude h' (Array.replicate m'.object.saved (-1))
          (a.task.run (a.task.afresh i a.entry))).map Result.counted).bind
            (afterMatch h' subject m' unicode found) := by
  intro a
  have hmode : subject.mode = m'.options.mode := by rw [hs.mode, hs.pair.mode]
  have hgranted : e.permissions.isGranted .nativeExecution m'.object.source = true := by
    rw [hs.pair.source]
    exact hr.granted
  have houtput : m'.program.saved ≤ (Array.replicate m'.object.saved (-1 : Int32)).size := by
    rw [Array.size_replicate, hr.saved_eq' hs.pair, hs.pair.program]
  have hcheck := check_eq_ok hr.reachable.sane hr.get' hgranted hmode hi houtput
  have hbegin := (begin_of_room (Array.replicate m'.object.saved (-1)) hmode hs.bytes hi hr.quiet
    (hr.room' hs.pair)).1
  have hending : a.ending = a.task.run (a.task.afresh i a.entry) := Attempt.ending_of_begin hbegin
  rw [searchFrom_of_le hi, exec_of_room hcheck hr.quiet (hr.room' hs.pair), ← hending]
  exact ⟨rfl, rfl⟩

variable {E : Engine} {batch i : Nat} {output : Array Int32}

/-- A search in batches makes a call, and the thread at its entry has reported nothing. -/
theorem findFrom_eq (hs : Searchable c m m' subject) (hb : Beside batch E e) (hbatch : 0 < batch)
    (hstack : E.stack = e.stack) (houtput : output.size = batch * m.program.saved)
    (hi : i ≤ subject.size) (found : Array Captures) :
    let a := E.nextAttempt m subject i .direct output
    let k := Task.ofMatcher m subject .direct
    Resumes e m.program.saved batch 0 a.entry ∧
      findFrom h subject m E i output found =
        ((E.conclude h output (k.run (k.afresh i a.entry))).map Result.counted).bind
          (afterBatch h subject m batch i found) := by
  intro a k
  have hquiet : E.guard.isRaised = false := by
    have hup : E.beginAttempt.guard.isRaised = false := by
      rw [hb.guard]
      exact hr.quiet
    exact hup
  have hroom : nativeLimit E.gap E.config.nativeBudget < nativePointer m.object.registers := by
    rw [hb.gap, hb.config]
    exact hr.room
  have hcheck : E.check h subject i output.size = .ok m := by
    have hsame : E.check h subject i output.size = e.check h subject i output.size := by
      simp only [check, hb.store, hb.permissions]
    have hle : m.program.saved ≤ output.size := by
      rw [houtput]
      exact Nat.le_mul_of_pos_left _ hbatch
    rw [hsame]
    exact check_eq_ok hr.reachable.sane hr.get hr.granted hs.mode hi hle
  have hending : a.ending = k.run (k.afresh i a.entry) :=
    Attempt.ending_of_begin (begin_of_room output hs.mode hs.bytes hi hquiet hroom).1
  refine ⟨⟨rfl, hstack, hb.guard, rfl, rfl, rfl, ?_, ?_, houtput⟩, ?_⟩
  · rw [Nat.zero_mul]
    rfl
  · exact houtput
  · rw [findFrom_of_le hi, exec_of_room hcheck hquiet hroom, ← hending, hb.config]

/-- After a match the search one by one goes on from the index after it, with an engine that
took over the memory of the backtrack stack. -/
theorem searchFrom_of_success (hs : Searchable c m m' subject) (hi : i ≤ subject.size)
    (unicode : Bool) (found : Array Captures) {first stop n : Nat} {u : Thread} :
    let a := e.nextAttempt m' subject i .direct (Array.replicate m'.object.saved (-1))
    a.task.steps n (a.task.afresh i a.entry) = .next u →
    (a.task.afresh i a.entry).SameReport u → a.task.move u = .succeed →
    a.task.Spans u first stop →
    ∃ e' : Engine, Ready c h h' m m' e' ∧ e'.config = e.config ∧ e'.gap = e.gap ∧
      e'.permissions = e.permissions ∧ e'.store = e.store ∧ e'.stack = u.stack ∧
      e'.guard = u.guard ∧ u.guard = e.beginAttempt.guard ∧
      searchFrom h' subject m' unicode e i found =
        searchFrom h' subject m' unicode e' (subject.indexAfter unicode first stop)
          (found.push (.ofRegisters (a.task.reported m.program.saved u.regs))) := by
  intro a hn hsame hmove hspan
  have hk : (Task.ofMatcher m subject .direct).Globalizes a.task := hr.globalizes hs.pair subject
  have hmode : subject.mode = m'.options.mode := by rw [hs.mode, hs.pair.mode]
  obtain ⟨-, hset⟩ := begin_of_room (Array.replicate m'.object.saved (-1)) hmode hs.bytes hi
    hr.quiet (hr.room' hs.pair)
  have hhost := hset.sameHost_of_steps hr.quiet hn
  have hsaved : a.task.matcher.program.saved = m'.object.saved := by
    rw [hr.saved_eq' hs.pair, ← hs.pair.program]
    rfl
  -- The call ends with the report of the match.
  have hlast : a.task.step u = (Ending.done (.success 1) { u with
      output := a.task.storeCaptures m'.object.saved 0 u.regs
        (Array.replicate m'.object.saved (-1)) }).outcome := by
    rw [Task.step_eq_act, hmove, Task.act, hk.succeed_eq', hsaved, hsame.outBase, hsame.output]
    rfl
  obtain ⟨hexec, hsearch⟩ := hr.searchFrom_eq hs hi unicode found
  rw [Task.run_of_last_step hn hlast] at hexec hsearch
  -- What it leaves behind is reachable, so the search can be repeated from there.
  let e' := e.beginAttempt.absorb h' { u with
    output := a.task.storeCaptures m'.object.saved 0 u.regs (Array.replicate m'.object.saved (-1)) }
  have hstore : e'.store = e.store := if_pos hhost.relocations
  have hquiet : e'.guard.isRaised = false := by
    change u.guard.isRaised = false
    rw [hhost.guard]
    exact hr.quiet
  have hafter : e.after (.exec h' subject i (Array.replicate m'.object.saved (-1))) = some e' := by
    rw [after, hexec]
    rfl
  refine ⟨e', ⟨.after _ hr.reachable hafter, ?_, ?_, hquiet, hr.granted, hr.room⟩, rfl, rfl, rfl,
    hstore, rfl, rfl, hhost.guard, ?_⟩
  · rw [hstore]
    exact hr.get
  · rw [hstore]
    exact hr.get'
  · have houtput := a.task.toList_storeCaptures_replicate m'.object.saved u.regs
    have htwo : 2 ≤ m'.object.saved := by
      rw [hr.saved_eq' hs.pair]
      exact hr.two_le_saved hs.pair
    have hfirst : ((a.task.storeCaptures m'.object.saved 0 u.regs
        (Array.replicate m'.object.saved (-1))).getD 0 0).toInt = first := by
      rw [Task.getD_storeCaptures_replicate a.task u.regs (by omega)]
      exact hspan.firstIndex
    have hstop : ((a.task.storeCaptures m'.object.saved 0 u.regs
        (Array.replicate m'.object.saved (-1))).getD 1 0).toInt = stop := by
      rw [Task.getD_storeCaptures_replicate a.task u.regs (by omega)]
      exact hspan.lastIndex
    rw [hsearch, ← hr.saved_eq' hs.pair, ← houtput, ← Int.toNat_natCast first, ← hfirst,
      ← Int.toNat_natCast stop, ← hstop]
    rfl

omit hr in
/-- Where the two runs end without a success, so do the two searches, with the same answer. -/
theorem conclude_of_follows {o : Outcome} {ending : Ending} {t u : Thread} {unicode : Bool}
    {output' : Array Int32} {start : Nat} {found : Array Captures} {run : Thread → Option Ending}
    (hfollows : o.Follows t u ending.outcome) (hcount : t.captures < batch)
    (hfew : t.captures ≤ 4294967295) :
    (((E.conclude h output (o.ending run)).map Result.counted).bind
        (afterBatch h subject m batch start found)).map Prod.snd =
      (((e.conclude h' output' (some ending)).map Result.counted).bind
        (afterMatch h' subject m' unicode
          (found ++ captureSets m.object.saved t.captures t.output.toList))).map Prod.snd := by
  rcases ending with ⟨s, w⟩ | -
  · rcases o with v | ⟨s', v⟩ | -
    · exact hfollows.elim
    · obtain ⟨-, hsame, -, ⟨rfl, rfl⟩ | ⟨rfl, rfl⟩⟩ := hfollows
      · rfl
      · -- Without a match the one has failed, the other tells what it has reported so far.
        rw [Outcome.ending, afterBatch_of_done hfew, if_pos hcount, hsame.output]
        rfl
    · exact hfollows.elim
  · rcases o with v | ⟨s', v⟩ | -
    · exact hfollows.elim
    · exact hfollows.elim
    · rfl

end Ready

section Resuming

variable {c : Config} {h h' : Handle} {m m' : Matcher} {e : Engine} {subject : Subject}
  {batch count : Nat} {t : Thread} (hr : Ready c h h' m m' e)
  (ht : Resumes e m.program.saved batch count t)

include hr ht

/-- Nothing is raised when a search resumes. -/
theorem Ready.quiet_of_resumes : t.guard.isRaised = false := by
  rw [ht.guard]
  exact hr.quiet

/-- A thread that resumes is settled. -/
theorem Ready.settled_of_resumes (i : Nat) :
    (Task.ofMatcher m subject .direct).Settled
      ((Task.ofMatcher m subject .direct).afresh i t) := by
  refine ⟨ht.limit, ?_, fun hraised => ?_⟩
  · change t.guard.nativeLimit < nativePointer m.object.registers
    rw [ht.guard]
    exact hr.room
  · have hup : t.guard.isRaised = true := hraised
    rw [hr.quiet_of_resumes ht] at hup
    cases hup

/-- A thread that resumes tracks a new call of the program that stops at the first match. -/
theorem Ready.tracks_of_resumes (hpair : m.Pair m') (i : Nat) (output : Array Int32) :
    let a := e.nextAttempt m' subject i .direct output
    ((Task.ofMatcher m subject .direct).afresh i t).Tracks (a.task.afresh i a.entry) := by
  intro a
  refine Task.tracks_afresh (hr.globalizes hpair subject) i ht.depth.symm ?_ ht.stack.symm
    ht.guard.symm
  rw [ht.limit, ht.guard]
  rfl

end Resuming

/-- After a match a thread that has room for another resumes, as a call to the engine would that
took over its backtrack stack. -/
theorem Resumes.turn {e e' : Engine} {k : Task} {t u : Thread} {i count batch saved : Nat}
    (h : Resumes e saved batch count t) (hsaved : k.matcher.program.saved = saved)
    (hsame : (k.afresh i t).SameReport u) (hhost : (k.afresh i t).SameHost u)
    (hconfig : e'.config = e.config) (hgap : e'.gap = e.gap) (hstack : e'.stack = u.stack)
    (hguard : e'.guard = u.guard) : Resumes e' saved batch (count + 1) (k.turn u) := by
  have hu : u.guard = e.beginAttempt.guard := hhost.guard.trans h.guard
  refine ⟨rfl, hstack.symm, ?_, ?_, ?_, ?_, ?_, ?_, ?_⟩
  · change u.guard = e'.guard.setNativeLimit _
    rw [hguard, hconfig, hgap, hu]
    rfl
  · change u.limit = u.guard.interruptLimit
    rw [hhost.limit, hhost.guard]
    exact h.limit
  · exact hhost.relocations.trans h.relocations
  · exact congrArg (· + 1) (hsame.captures.trans h.captures)
  · change u.outBase + k.matcher.program.saved = _
    rw [hsaved, Nat.succ_mul, hsame.outBase, ← h.outBase]
    rfl
  · change u.remaining - k.matcher.program.saved = _
    rw [hsaved, hsame.remaining, ← Nat.sub_sub, Nat.sub_one_mul, ← h.remaining]
    rfl
  · change (k.storeCaptures _ _ _ _).size = _
    rw [Task.size_storeCaptures, hsame.output]
    exact h.output

/-- The output of a thread that reports a match holds one capture set more. -/
theorem Resumes.captureSets_report {e : Engine} {k : Task} {t u : Thread}
    {i count batch saved : Nat} (h : Resumes e saved batch count t)
    (hsaved : k.matcher.program.saved = saved) (hsame : (k.afresh i t).SameReport u)
    (hcount : count < batch) :
    captureSets saved (count + 1) (k.report u).output.toList =
      captureSets saved count t.output.toList ++
        [Captures.ofRegisters (k.reported saved u.regs)] := by
  have hbase : u.outBase = count * saved := hsame.outBase.trans h.outBase
  have houtput : u.output = t.output := hsame.output
  have hroom : count * saved + saved ≤ t.output.size := by
    rw [h.output, ← Nat.succ_mul]
    exact Nat.mul_le_mul_right _ hcount
  simp only [Task.report, hsaved, hbase, houtput]
  exact k.captureSets_storeCaptures u.regs hroom

/-- After a full batch the search goes on from the index after its last match. -/
theorem resumeIndex_of_span {subject : Subject} {unicode : Bool} {start first stop : Nat}
    {found : Array Captures} {last : Captures} (hspan : last.span = (first, stop)) :
    resumeIndex subject unicode start (found.push last).back? =
      subject.indexAfter unicode first stop := by
  rw [Array.back?_push, resumeIndex, Option.map_some, Option.getD_some, hspan]
  rfl

/-- **What a search in batches does after a success.** If that fills the batch, it makes another
call; otherwise the search is done if the subject is at its end, and else the call goes on. -/
theorem Ready.conclude_of_success {c : Config} {h h' : Handle} {m m' : Matcher} {E e : Engine}
    {subject : Subject} {batch count i start first stop next : Nat} {t v : Thread} {k' : Task}
    {output : Array Int32} {found found' : Array Captures} (hr : Ready c h h' m m' e)
    (hs : Searchable c m m' subject) (ht : Resumes e m.program.saved batch count t)
    (hcount : count < batch) (hfew : count < 4294967295)
    (hk : (Task.ofMatcher m subject .direct).Globalizes k')
    (hsame : ((Task.ofMatcher m subject .direct).afresh i t).SameReport v)
    (hspan : (Task.ofMatcher m subject .direct).Spans v first stop)
    (hnext : subject.indexAfter (m.options.globalMode = .unicode) first stop = next)
    (hfound : found' = (found ++ captureSets m.program.saved count t.output.toList).push
      (.ofRegisters ((Task.ofMatcher m subject .direct).reported m.program.saved v.regs))) :
    let k := Task.ofMatcher m subject .direct
    ((E.conclude h output ((k.succeed v).ending k.run)).map Result.counted).bind
        (afterBatch h subject m batch start found) =
      if count + 1 = batch then
        findFrom h subject m (E.beginAttempt.absorb h (k.report v)) next (k.report v).output found'
      else if subject.size < next then
        some (E.beginAttempt.absorb h (k.turn v), .ok found'.toList)
      else
        ((E.conclude h output (k.run (k.afresh next (k.turn v)))).map Result.counted).bind
          (afterBatch h subject m batch start found) := by
  intro k
  have htwo := hr.two_le_saved hs.pair
  have hcaptures : v.captures = count := hsame.captures.trans ht.captures
  have hremaining : v.remaining = (batch - count) * m.program.saved :=
    hsame.remaining.trans ht.remaining
  have hsets := ht.captureSets_report (k := k) rfl hsame hcount
  have hadd : found ++ captureSets m.program.saved (count + 1) (k.report v).output.toList =
      found' := by
    rw [hsets, append_concat, hfound]
  -- Generated code sees that no other capture set fits exactly when the host sees a full batch.
  have hfull : v.remaining < k.matcher.program.saved + k.matcher.program.saved ↔
      count + 1 = batch := by
    change v.remaining < m.program.saved + m.program.saved ↔ _
    rw [hremaining, ← Nat.two_mul, Nat.mul_lt_mul_right (by omega)]
    omega
  rw [Task.succeed_of_spans hk hs.mode hs.bytes hspan hnext, hcaptures]
  by_cases hb : count + 1 = batch
  · rw [if_pos (hfull.mpr hb), if_pos hb, Outcome.ending, afterBatch_of_done (by omega),
      if_neg (by omega), hr.saved_eq, hadd, hfound,
      resumeIndex_of_span (hspan.span_reported htwo), hr.globalMode_eq, hnext]
  · rw [if_neg (fun hcon => hb (hfull.mp hcon)), if_neg hb]
    by_cases hend : subject.size < next
    · have hend' : k.subject.size < next := hend
      rw [if_pos hend', if_pos hend, Outcome.ending, afterBatch_of_done (by omega),
        if_pos (by omega), hr.saved_eq]
      exact congrArg (fun x : Array Captures => some (_, Except.ok x.toList)) hadd
    · have hend' : ¬k.subject.size < next := hend
      rw [if_neg hend', if_neg hend, Outcome.ending]

/-- **From a start over on, a search in batches gives the answer of a search one by one**,
wherever in a batch it is. It has made no more matches than it has passed characters, and so few
enough for the number that a call returns. -/
theorem Ready.conclude_eq_searchFrom {c : Config} {h h' : Handle} {m m' : Matcher}
    {subject : Subject} (hs : Searchable c m m' subject) {batch count i start : Nat}
    {E e : Engine} {t : Thread} {output : Array Int32} {found : Array Captures}
    (hr : Ready c h h' m m' e) (hb : Beside batch E e)
    (ht : Resumes e m.program.saved batch count t) (hcount : count < batch)
    (hfew : count ≤ i ∧ count ≤ 2 ^ 31) (hi : i ≤ subject.size) :
    let k := Task.ofMatcher m subject .direct
    (((E.conclude h output (k.run (k.afresh i t))).map Result.counted).bind
        (afterBatch h subject m batch start found)).map Prod.snd =
      (searchFrom h' subject m' (m.options.globalMode = .unicode) e i
        (found ++ captureSets m.program.saved count t.output.toList)).map Prod.snd := by
  intro k
  -- The index after a match is greater than the index it was looked for from, so what is left of
  -- the subject decreases, and everything else may change.
  induction hleft : subject.size - i using Nat.strong_induction_on
    generalizing i count start E e t output found with
  | _ left ih =>
  let a := e.nextAttempt m' subject i .direct (Array.replicate m'.object.saved (-1))
  have hk : k.Globalizes a.task := hr.globalizes hs.pair subject
  have hmode : subject.mode = m'.options.mode := by rw [hs.mode, hs.pair.mode]
  obtain ⟨hbegin, hset'⟩ := begin_of_room (Array.replicate m'.object.saved (-1)) hmode hs.bytes hi
    hr.quiet (hr.room' hs.pair)
  have hset : k.Settled (k.afresh i t) := hr.settled_of_resumes ht i
  have htracks₀ : (k.afresh i t).Tracks (a.task.afresh i a.entry) :=
    hr.tracks_of_resumes ht hs.pair i _
  cases hrun : a.task.run (a.task.afresh i a.entry) with
  | none =>
    rw [(hr.searchFrom_eq hs hi _ _).2, hk.run_eq_none htracks₀ hset hset' hrun, hrun]
    rfl
  | some ending =>
    obtain ⟨n, v, u, hn, hn', hlast, htracks, hsame, hsame', hsetv, hsetu⟩ :=
      hk.exists_steps_of_run htracks₀ hset hset' hrun
    have hrunk : k.run (k.afresh i t) = (k.step v).ending k.run := by
      rw [Task.run_of_steps hn, Task.run_eq]
    rw [hrunk]
    by_cases hmove : k.move v = .succeed
    · -- A match: it is the same for both, and the search one by one goes on with `e'`.
      have hmove' : a.task.move u = .succeed := by
        rw [← Task.move_congr hk.toSameCode htracks.cursor htracks.peek]
        exact hmove
      obtain ⟨unchecked, hpasses⟩ := Task.exists_passes_of_steps hn'
      obtain ⟨first, stop, hfirst, hspan'⟩ :=
        hs.spans e i hr.reachable hi u unchecked ⟨_, hbegin, hpasses⟩ hmove'
      have hspan := Task.Spans.of_tracks hk hspan' htracks
      obtain ⟨e', hr', hconfig, hgap, hpermissions, hstore, hstack, hguard, hguard', hsearch⟩ :=
        hr.searchFrom_of_success hs hi (m.options.globalMode = .unicode)
          (found ++ captureSets m.program.saved count t.output.toList) hn' hsame' hmove' hspan'
      have hquiet : t.guard.isRaised = false := hr.quiet_of_resumes ht
      have hhost := hset.sameHost_of_steps hquiet hn
      have hb' := hb.inside hconfig hgap hpermissions hstore (hguard.trans hguard')
      have hsucceed : k.step v = k.succeed v := by rw [Task.step_eq_act, hmove, Task.act]
      have hnext : i < subject.indexAfter (m.options.globalMode = .unicode) first stop :=
        Nat.lt_of_le_of_lt hfirst (Subject.lt_indexAfter hspan.le)
      have hstop : count < 2 ^ 31 := by
        have hlast := hspan.lastIndex ▸ (k.captureIndex (v.reg 1)).toInt_lt
        have hle := hspan.le
        omega
      rw [hsearch, Task.reported_of_tracks hk htracks, hsucceed,
        hr.conclude_of_success hs ht hcount (by omega) hk hsame hspan rfl rfl]
      split
      · -- The batch is full: there is another call, unless the subject is at its end.
        have hb₁ : Beside batch (E.beginAttempt.absorb h (k.report v)) e' :=
          hb'.between ((hhost.guard.trans ht.guard).trans hb.guard.symm)
            (hhost.relocations.trans ht.relocations)
        rcases Nat.lt_or_ge subject.size
          (subject.indexAfter (m.options.globalMode = .unicode) first stop) with hend | hend
        · rw [findFrom_of_lt hend, searchFrom_of_lt hend]
          rfl
        · have hsize : (k.report v).output.size = batch * m.program.saved := by
            rw [Task.report, Task.size_storeCaptures, hsame.output]
            exact ht.output
          have hstack₁ : (k.report v).stack = e'.stack := htracks.stack.trans hstack.symm
          obtain ⟨hres, hfind⟩ := hr'.findFrom_eq hs hb₁ (by omega) hstack₁ hsize hend
            ((found ++ captureSets m.program.saved count t.output.toList).push
              (.ofRegisters (k.reported m.program.saved v.regs)))
          rw [hfind, ih _ (by omega) hr' hb₁ hres (by omega) ⟨Nat.zero_le _, Nat.zero_le _⟩ hend
            rfl, captureSets, Array.appendList_nil]
      · split
        · next hend => rw [searchFrom_of_lt hend, Option.map_some, Option.map_some]
        · -- The call goes on, with one match more in its output.
          next hfull hend =>
          have hres : Resumes e' m.program.saved batch (count + 1) (k.turn v) :=
            ht.turn rfl hsame hhost hconfig hgap (hstack.trans htracks.stack.symm)
              (hguard.trans htracks.guard.symm)
          have hadd : found ++ captureSets m.program.saved (count + 1) (k.turn v).output.toList =
              (found ++ captureSets m.program.saved count t.output.toList).push
                (.ofRegisters (k.reported m.program.saved v.regs)) := by
            rw [← append_concat, ← ht.captureSets_report (k := k) rfl hsame hcount]
            rfl
          rw [ih _ (by omega) hr' hb' hres (by omega) ⟨by omega, by omega⟩ (by omega) rfl, hadd]
    · -- No match: this is the end of both.
      have hfollows := hk.step_follows htracks hsetv hsetu hmove
      rw [hlast] at hfollows
      have hcaptures : v.captures = count := hsame.captures.trans ht.captures
      have houtput : v.output = t.output := hsame.output
      rw [conclude_of_follows hfollows (by omega) (by omega), (hr.searchFrom_eq hs hi _ _).2, hrun,
        hcaptures, houtput, hr.saved_eq]

/-- A search whose first call gives no answer ends with its error. -/
theorem findFrom_of_error {e : Engine} {h : Handle} {m : Matcher} {subject : Subject} {start : Nat}
    {output : Array Int32} {found : Array Captures} {err : MatchError}
    (hstart : start ≤ subject.size)
    (herr : (e.exec h subject start output).map Result.answer = some (.error err)) :
    (findFrom h subject m e start output found).map Prod.snd = some (.error err) := by
  obtain ⟨r, hr, hanswer⟩ := Option.map_eq_some_iff.mp herr
  rw [findFrom_of_le hstart, hr, Option.bind_some, afterBatch, hanswer]
  rfl

/-- A search that fails at its first match fails with the error of that match. -/
theorem searchFrom_of_error {e : Engine} {h : Handle} {m : Matcher} {subject : Subject}
    {start : Nat} {unicode : Bool} {found : Array Captures} {err : MatchError}
    (hstart : start ≤ subject.size)
    (herr : (e.exec h subject start (Array.replicate m.object.saved (-1))).map Result.answer =
      some (.error err)) :
    (searchFrom h subject m unicode e start found).map Prod.snd = some (.error err) := by
  obtain ⟨r, hr, hanswer⟩ := Option.map_eq_some_iff.mp herr
  rw [searchFrom_of_le hstart, hr, Option.bind_some, afterMatch, hanswer]
  rfl

/-- A search for all matches has an output for a batch, if that fits into memory. -/
theorem findAll_of_memory {e : Engine} {h : Handle} {m : Matcher} {subject : Subject}
    (hget : e.store.get? h = some m) (hglobal : m.object.globalMode.isGlobal = true)
    (hmemory : 4 * (m.object.saved * e.config.batch) ≤ Memory.maxBlock) :
    e.findAll h subject = .ok (findFrom h subject m e 0
      (Array.replicate (m.object.saved * e.config.batch) (-1)) #[]) := by
  have hmax : Memory.maxBlock = 9223372036854775807 := rfl
  have hcount : Checked.size .mul (m.object.saved * e.config.batch) =
      .ok (m.object.saved * e.config.batch) := Checked.size_eq_ok_iff.mpr ⟨by omega, rfl⟩
  have hrequest := Memory.request_eq_ok_iff.mpr hmemory
  simp only [findAll, hget, hglobal, Bool.not_true, Bool.false_eq_true, if_false, hcount]
  exact Assembler.bind_eq_ok.mpr ⟨_, rfl, Assembler.bind_eq_ok.mpr ⟨(), hrequest, rfl⟩⟩

/-- Otherwise it is a fault, whatever there is to find. -/
theorem findAll_of_no_memory {e : Engine} {h : Handle} {m : Matcher} {subject : Subject}
    (hget : e.store.get? h = some m) (hglobal : m.object.globalMode.isGlobal = true)
    (hsize : m.object.saved * e.config.batch < 2 ^ 64)
    (hmemory : Memory.maxBlock < 4 * (m.object.saved * e.config.batch)) :
    e.findAll h subject = .error .capacityOverflow := by
  have hcount : Checked.size .mul (m.object.saved * e.config.batch) =
      .ok (m.object.saved * e.config.batch) := Checked.size_eq_ok_iff.mpr ⟨hsize, rfl⟩
  have hrequest : Memory.request (4 * (m.object.saved * e.config.batch)) =
      .error .capacityOverflow := if_pos hmemory
  simp only [findAll, hget, hglobal, Bool.not_true, Bool.false_eq_true, if_false, hcount]
  change ((Memory.request _).bind _) = _
  rw [hrequest]
  rfl

/-- The two searches from the start of a subject, whether or not the program can be run. If it
cannot be run, both answer with the same complaint, as they make the same first call. -/
theorem findFrom_eq_search {c : Config} {h h' : Handle} {m m' : Matcher} {e : Engine}
    {subject : Subject} {batch : Nat} {output : Array Int32} (he : e.Reachable c)
    (hget : e.store.get? h = some m) (hget' : e.store.get? h' = some m')
    (hquiet : e.guard.isRaised = false) (hs : Searchable c m m' subject) (hbatch : 0 < batch)
    (houtput : output.size = batch * m.program.saved) :
    (findFrom h subject m (e.withBatch batch) 0 output #[]).map Prod.snd =
      (e.search h' subject m' (m.options.globalMode = .unicode)).map Prod.snd := by
  have hlive : (e.withBatch batch).store.get? h = some m := hget
  cases hgranted : e.permissions.isGranted .nativeExecution m.object.source with
  | false =>
    have hgranted' : e.permissions.isGranted .nativeExecution m'.object.source = false := by
      rw [hs.pair.source, hgranted]
    rw [search, findFrom_of_error (Nat.zero_le _) (answer_of_denied hlive hgranted),
      searchFrom_of_error (Nat.zero_le _) (answer_of_denied hget' hgranted')]
  | true =>
    by_cases hroom : nativeLimit e.gap e.config.nativeBudget < nativePointer m.object.registers
    · have hr : Ready c h h' m m' e := ⟨he, hget, hget', hquiet, hgranted, hroom⟩
      have hb : Beside batch (e.withBatch batch) e := ⟨rfl, rfl, rfl, rfl, rfl⟩
      obtain ⟨hres, hfind⟩ := hr.findFrom_eq hs hb hbatch rfl houtput (Nat.zero_le _) #[]
      rw [hfind, hr.conclude_eq_searchFrom hs hb hres hbatch ⟨Nat.le_refl _, Nat.zero_le _⟩
        (Nat.zero_le _)]
      rfl
    · -- Without room both find the native stack exhausted, at the first poll of all.
      obtain ⟨comp', hshape'⟩ := (he.sane.compiled h' m' hget').shape
      have hregs : m.object.registers = m'.object.registers :=
        (hs.pair.globalizes he.sane hget hget' subject).registers
      have hmode : subject.mode = m'.options.mode := by rw [hs.mode, hs.pair.mode]
      have hgranted' : e.permissions.isGranted .nativeExecution m'.object.source = true := by
        rw [hs.pair.source, hgranted]
      have hlow' : ¬nativeLimit e.gap e.config.nativeBudget <
          nativePointer m'.object.registers := by
        rwa [← hregs]
      have hle : m.program.saved ≤ output.size := by
        rw [houtput]
        exact Nat.le_mul_of_pos_left _ hbatch
      have hle' : m'.program.saved ≤ (Array.replicate m'.object.saved (-1 : Int32)).size := by
        rw [Array.size_replicate, hshape'.saved]
      have hcheck : (e.withBatch batch).check h subject 0 output.size = .ok m := by
        change e.check h subject 0 output.size = .ok m
        exact check_eq_ok he.sane hget hgranted hs.mode (Nat.zero_le _) hle
      have hcheck' := check_eq_ok he.sane hget' hgranted' hmode (Nat.zero_le _) hle'
      rw [search, findFrom_of_error (Nat.zero_le _) (answer_of_no_room hcheck hquiet hroom),
        searchFrom_of_error (Nat.zero_le _) (answer_of_no_room hcheck' hquiet hlow')]

/-- **A search for all matches gives the answer of a search one by one**, whatever the size of
its batches is, as long as an output for a batch can be had: the same matches in the same order,
the same error, or no end. -/
theorem findAll_eq_search {c : Config} {h h' : Handle} {m m' : Matcher} {e : Engine}
    {subject : Subject} (he : e.Reachable c) (hget : e.store.get? h = some m)
    (hget' : e.store.get? h' = some m') (hquiet : e.guard.isRaised = false)
    (hs : Searchable c m m' subject) (batch : Nat) (hbatch : 1 ≤ batch)
    (hmemory : 4 * (m.object.saved * batch) ≤ Memory.maxBlock) :
    ∃ r, (e.withBatch batch).findAll h subject = .ok r ∧
      r.map Prod.snd =
        (e.search h' subject m' (m.options.globalMode = .unicode)).map Prod.snd := by
  obtain ⟨comp, hshape⟩ := (he.sane.compiled h m hget).shape
  have hglobal : m.object.globalMode.isGlobal = true := by
    rw [hshape.globalMode]
    rcases hs.pair.global with hg | hg <;> rw [hg] <;> rfl
  refine ⟨_, findAll_of_memory hget hglobal hmemory, ?_⟩
  refine findFrom_eq_search he hget hget' hquiet hs hbatch ?_
  rw [Array.size_replicate, hshape.saved, Nat.mul_comm]
  rfl

end Engine

/-! ### A pair to try things on -/

namespace Sample

/-- Matches the empty text, everywhere. -/
def blank : Program where
  opcodes := #[.writePosition 0 0, .writePosition 1 0, .succeed]
  labels := 0
  saved := 2

/-- Options for all matches, where a surrogate pair is one character. -/
def everywhere : Options := { mode := .uc16, globalMode := .unicode }

/-- The program compiles for all matches and for one, with the same two registers. -/
theorem exists_compile_blank :
    ∃ m m', blank.compile everywhere "" Sample.heap = .ok m ∧
      blank.compile { mode := .uc16 } "" Sample.heap = .ok m' ∧
      m'.object.registers = 2 := by
  have hbody : blank.bodySize? .uc16 = some 21 := by decide +kernel
  have hrange : ∀ op ∈ blank.opcodes, op.InRange := by simp [blank, Opcode.InRange, InReach]
  obtain ⟨m, hm, -⟩ := Program.exists_compile (o := everywhere) hbody (by decide) hrange
    (by decide) "" Sample.heap
  obtain ⟨m', hm', hregs, -⟩ := Program.exists_compile (o := { mode := .uc16 }) hbody (by decide)
    hrange (by decide) "" Sample.heap
  exact ⟨m, m', hm, hm', hregs⟩

/-- The registers of a thread that has come as far as its opcode in `blank`. -/
structure Marked (here : Int64) (t : Thread) : Prop where
  /-- The position stays. -/
  pos : t.pos = here
  /-- There are two registers. -/
  size : t.regs.size = 2
  /-- The first opcode sets register 0. -/
  first : 0 < t.pc → t.reg 0 = here
  /-- The second one sets register 1. -/
  last : 1 < t.pc → t.reg 1 = here

/-- Between its two writes the program does not move, so both registers hold the place where the
match began. This is the invariant that makes all its matches empty. -/
theorem marked_step {k : Task} {t t' : Thread} {here : Int64} (hprogram : k.matcher.program = blank)
    (hglobal : k.matcher.options.globalMode = .notGlobal) (h : Marked here t)
    (hs : k.step t = .next t') : Marked here t' := by
  have hzero : k.bytes 0 = 0 := by simp [Task.bytes]
  have hsize := h.size
  -- One case for each of the three opcodes, and one for their end.
  obtain hpc | hpc | hpc | hpc : t.pc = 0 ∨ t.pc = 1 ∨ t.pc = 2 ∨ 3 ≤ t.pc := by omega
  · have hop : k.matcher.program.opcodes[t.pc]? = some (.writePosition 0 0) := by
      rw [hprogram, hpc]
      rfl
    simp only [Task.step, hop, Task.perform, hzero, Int64.add_zero, h.pos] at hs
    obtain rfl := Outcome.next.inj hs
    refine ⟨h.pos, by simpa [Thread.advance] using hsize, fun _ => ?_, fun hlt => ?_⟩
    · exact t.reg_setReg_self here (by omega)
    · simp [Thread.advance, Thread.setReg, hpc] at hlt
  · have hop : k.matcher.program.opcodes[t.pc]? = some (.writePosition 1 0) := by
      rw [hprogram, hpc]
      rfl
    simp only [Task.step, hop, Task.perform, hzero, Int64.add_zero, h.pos] at hs
    obtain rfl := Outcome.next.inj hs
    refine ⟨h.pos, by simpa [Thread.advance] using hsize, fun _ => ?_, fun _ => ?_⟩
    · exact (t.reg_setReg_of_ne here (by decide)).trans (h.first (by omega))
    · exact t.reg_setReg_self here (by omega)
  · have hop : k.matcher.program.opcodes[t.pc]? = some .succeed := by
      rw [hprogram, hpc]
      rfl
    simp only [Task.step, hop, Task.perform, Task.succeed, hglobal] at hs
    cases hs
  · have hop : k.matcher.program.opcodes[t.pc]? = none := by
      rw [hprogram]
      exact Array.getElem?_eq_none hpc
    simp only [Task.step, hop] at hs
    cases hs

/-- Every success of `blank` is an empty match where it started. So the search goes on one code
point farther each time, and finds as many matches as there are places between code points. -/
theorem spansFrom_blank {e : Engine} {m : Matcher} {subject : Subject} {start : Nat}
    {output : Array Int32} (hm : Compiled blank { mode := .uc16 } "" m)
    (hregs : m.object.registers = 2) (hsize : subject.size < 2 ^ 31)
    (hstart : start ≤ subject.size) :
    (e.nextAttempt m subject start .direct output).SpansFrom start := by
  obtain ⟨comp, hshape⟩ := hm.shape
  rintro t unchecked ⟨t₀, hbegin, hp⟩ hmove
  let k := Task.ofMatcher m subject .direct
  have hglobal : k.matcher.options.globalMode = .notGlobal := by
    change m.options.globalMode = _
    rw [hshape.options]
  have h₀ : Marked (k.position start) t₀ := by
    rw [Attempt.begin] at hbegin
    cases hpoll : k.poll (e.nextAttempt m subject start .direct output).entry with
    | next u =>
      have hpos : u.pos = k.position start :=
        (congrArg Cursor.pos (Task.cursor_of_poll hpoll)).trans rfl
      change (k.poll _).andThen k.restart = .next t₀ at hbegin
      rw [hpoll, Outcome.andThen, Task.restart_eq_charBefore?] at hbegin
      split at hbegin
      · cases hbegin
      · obtain rfl := Outcome.next.inj hbegin
        refine ⟨hpos, ?_, fun hlt => absurd hlt (Nat.lt_irrefl 0), fun hlt => ?_⟩
        · exact (Array.size_replicate ..).trans hregs
        · exact absurd hlt (Nat.not_lt_zero 1)
    | done s u =>
      change (k.poll _).andThen k.restart = .next t₀ at hbegin
      rw [hpoll] at hbegin
      cases hbegin
    | stray =>
      change (k.poll _).andThen k.restart = .next t₀ at hbegin
      rw [hpoll] at hbegin
      cases hbegin
  have hmarked : Marked (k.position start) t := by
    clear hmove
    induction hp with
    | start => exact h₀
    | step _ hs ih => exact marked_step hshape.program hglobal ih hs
  have hpc : t.pc = 2 := by
    change k.move t = .succeed at hmove
    have hprogram : k.matcher.program = blank := hshape.program
    simp only [Task.move, Task.opcode?, hprogram] at hmove
    obtain hpc | hpc | hpc | hpc : t.pc = 0 ∨ t.pc = 1 ∨ t.pc = 2 ∨ 3 ≤ t.pc := by omega
    · rw [hpc] at hmove
      cases hmove
    · rw [hpc] at hmove
      cases hmove
    · exact hpc
    · rw [Array.getElem?_eq_none hpc] at hmove
      cases hmove
  have hlast := hmarked.last (by omega)
  exact ⟨start, start, Nat.le_refl _, .of_position (Nat.le_refl _) hstart hsize
    (hmarked.first (by omega)) hlast (hmarked.pos.trans hlast.symm)⟩

/-- An engine with `blank` compiled for all matches and for the first. -/
theorem exists_pair_engine {c : Config} {e : Engine} (gap : Nat) (hw : c.Words) (hgap : 16 ≤ gap)
    (hnew : Engine.new c gap = .ok (.ok e)) :
    ∃ (e' : Engine) (m m' : Matcher), e'.Reachable c ∧ e'.guard = e.guard ∧
      e'.store.get? ⟨0⟩ = some m ∧ e'.store.get? ⟨1⟩ = some m' ∧
      Compiled blank everywhere "" m ∧ Compiled blank { mode := .uc16 } "" m' ∧
      m'.object.registers = 2 := by
  obtain ⟨m, m', hm, hm', hregs⟩ := exists_compile_blank
  obtain ⟨e', he', hget, hget'⟩ := Engine.exists_stocked_pair hw hgap hnew hm hm' (by decide)
  exact ⟨e', m, m', he'.reachable, he'.guard, hget, hget', .fresh hm, .fresh hm', hregs⟩

/-- A surrogate pair. -/
def face : Subject := .uc16 #[0xD83D, 0xDE00]

/-- The program has what the search asks for: it never goes astray or backtracks, and its matches
lie in the subject in the right order. -/
theorem searchable_blank {c : Config} {m m' : Matcher} (hm : Compiled blank everywhere "" m)
    (hm' : Compiled blank { mode := .uc16 } "" m') (hregs : m'.object.registers = 2) :
    Engine.Searchable c m m' face := by
  obtain ⟨comp, hs⟩ := hm.shape
  obtain ⟨comp', hs'⟩ := hm'.shape
  refine ⟨⟨?_, ?_, ?_, Or.inr ?_, ?_, ?_, ?_⟩, ?_, by decide, fun e start _ hstart => ?_⟩
  · rw [hs'.program, hs.program]
  · rw [hs'.options, hs.options]
    rfl
  · rw [hs'.source, hs.source]
  · rw [hs.options]
    rfl
  · rw [hs'.options]
  · rw [hs.options]
    rfl
  · rw [hs'.options]
  · rw [hs.options]
    rfl
  · exact spansFrom_blank hm' hregs (by decide) hstart

end Sample

namespace Engine

/-- Two sizes of batches that give the same answer, for empty matches around a surrogate pair. -/
theorem findAll_eq_search_face :
    ∃ (e : Engine) (m m' : Matcher), e.Reachable {} ∧ e.store.get? ⟨0⟩ = some m ∧
      e.store.get? ⟨1⟩ = some m' ∧ e.guard.isRaised = false ∧
      Searchable {} m m' Sample.face ∧ ∃ r r', (e.withBatch 1).findAll ⟨0⟩ Sample.face = .ok r ∧
        (e.withBatch 2).findAll ⟨0⟩ Sample.face = .ok r' ∧ r.map Prod.snd = r'.map Prod.snd := by
  have hw : Config.Words {} := by constructor <;> decide
  obtain ⟨e, m, m', he, hguard, hget, hget', hm, hm', hregs⟩ :=
    Sample.exists_pair_engine 16 hw (by decide) rfl
  obtain ⟨comp, hshape⟩ := hm.shape
  have hquiet : e.guard.isRaised = false := by
    rw [hguard]
    rfl
  have hsaved : m.object.saved = 2 := hshape.saved
  have hs : Searchable {} m m' Sample.face := Sample.searchable_blank hm hm' hregs
  obtain ⟨r, hr, hanswer⟩ := findAll_eq_search he hget hget' hquiet hs 1 (by decide)
    (by rw [hsaved]; decide)
  obtain ⟨r', hr', hanswer'⟩ := findAll_eq_search he hget hget' hquiet hs 2 (by decide)
    (by rw [hsaved]; decide)
  exact ⟨e, m, m', he, hget, hget', hquiet, hs, r, r', hr, hr', hanswer.trans hanswer'.symm⟩

/-- Batches of `2 ^ 61` matches. -/
theorem findAll_face_of_no_memory :
    ∃ (e : Engine) (m m' : Matcher), e.Reachable { batch := 2 ^ 61 } ∧
      e.store.get? ⟨0⟩ = some m ∧ e.store.get? ⟨1⟩ = some m' ∧ e.guard.isRaised = false ∧
      Searchable { batch := 2 ^ 61 } m m' Sample.face ∧
      ¬∃ r, e.findAll ⟨0⟩ Sample.face = .ok r ∧
        r.map Prod.snd = (e.search ⟨1⟩ Sample.face m' true).map Prod.snd := by
  have hw : Config.Words { batch := 2 ^ 61 } := by constructor <;> decide
  obtain ⟨e, m, m', he, hguard, hget, hget', hm, hm', hregs⟩ :=
    Sample.exists_pair_engine 16 hw (by decide) rfl
  obtain ⟨comp, hshape⟩ := hm.shape
  have hquiet : e.guard.isRaised = false := by
    rw [hguard]
    rfl
  have hsaved : m.object.saved = 2 := hshape.saved
  have hglobal : m.object.globalMode.isGlobal = true := by
    rw [hshape.globalMode]
    rfl
  have hbatch : e.config.batch = 2 ^ 61 := by rw [he.sane.config]
  refine ⟨e, m, m', he, hget, hget', hquiet, Sample.searchable_blank hm hm' hregs, ?_⟩
  rintro ⟨r, hr, -⟩
  rw [findAll_of_no_memory hget hglobal (by rw [hsaved, hbatch]; decide)
    (by rw [hsaved, hbatch]; decide)] at hr
  cases hr

end Engine

end NativeMatcher
