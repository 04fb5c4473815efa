import NativeMatcher.Engine
import NativeMatcher.Proofs.Compiled
import NativeMatcher.Proofs.Growth

/-!
# Sessions

A session is an engine and the operations asked of it, one after the other
(`NativeMatcher.Op`). An engine is *reachable* if some session leads to it from a new one
(`NativeMatcher.Engine.Reachable`); an operation that faults, or that runs for ever, ends its
session.

What holds of every reachable engine is kept in one place
(`NativeMatcher.Engine.Sane`): its configuration is the one it was made with, its backtrack
stack has the first size doubled once for every growth counted, and every live handle has a
matcher that was compiled.
-/

namespace NativeMatcher

open Backtrack

/-! ### Operations -/

/-- What can be asked of an engine. -/
inductive Op where
  /-- Compile a program, its tables where the heap puts them. -/
  | compile (p : Program) (o : Options) (source : String) (heap : Nat → UInt64)
  /-- Remove a compiled program. -/
  | remove (h : Handle)
  /-- Run a compiled program. -/
  | exec (h : Handle) (subject : Subject) (start : Nat) (output : Array Int32)
  /-- Search for the first match. -/
  | find (h : Handle) (subject : Subject) (start : Nat)
  /-- Search for all matches. -/
  | findAll (h : Handle) (subject : Subject)
  /-- Ask for interrupts. -/
  | interrupt (flags : UInt32)
  /-- Move all code. -/
  | collectGarbage
  /-- Apply a deny list. -/
  | apply (scope : Permission.Scope) (deny : String)
  /-- Deny sources. -/
  | deny (scope : Permission.Scope) (params : List String)

namespace Config

/-- The numbers of a configuration are machine words. -/
structure Words (c : Config) : Prop where
  /-- The initial size of the backtrack stack. -/
  initialStack : c.initialStack < 2 ^ 64
  /-- Its maximum. -/
  maxStack : c.maxStack < 2 ^ 64
  /-- The native stack. -/
  nativeBudget : c.nativeBudget < 2 ^ 64
  /-- The repetitions. -/
  maxRetries : c.maxRetries < 2 ^ 32
  /-- The capture sets of a batch. -/
  batch : c.batch < 2 ^ 64

/-- The size of a new backtrack stack: the initial size in whole entries. -/
def firstSize (c : Config) : Nat := 4 * (c.initialStack / 4)

/-- The largest size the backtrack stack can reach by doubling. -/
def largestSize (c : Config) : Nat := c.firstSize * 2 ^ Nat.log 2 (c.maxStack / c.firstSize)

end Config

namespace Engine

/-- The engine after an operation, unless the session ends there. -/
def after (e : Engine) : Op → Option Engine
  | .compile p o source heap =>
    match e.compile p o source heap with
    | .ok (e', _) => some e'
    | .error _ => none
  | .remove h => some (e.remove h).1
  | .exec h subject start output => (e.exec h subject start output).map Result.engine
  | .find h subject start => (e.find h subject start).map Prod.fst
  | .findAll h subject =>
    match e.findAll h subject with
    | .ok r => r.map Prod.fst
    | .error _ => none
  | .interrupt flags => some (e.requestInterrupt flags)
  | .collectGarbage => some e.collectGarbage.1
  | .apply scope deny => some { e with permissions := e.permissions.apply scope deny }
  | .deny scope params => some { e with permissions := e.permissions.deny scope params }

/-- An engine that a session leads to. -/
inductive Reachable (c : Config) : Engine → Prop
  /-- A new engine. The two arguments a matcher gets on the native stack lie within the gap. -/
  | new {e : Engine} {gap : Nat} : c.Words → 16 ≤ gap → Engine.new c gap = .ok (.ok e) →
    Reachable c e
  /-- The engine after an operation. -/
  | after {e e' : Engine} (op : Op) : Reachable c e → e.after op = some e' → Reachable c e'

/-! ### What every session keeps -/

/-- What holds of every reachable engine. -/
structure Sane (c : Config) (e : Engine) : Prop where
  /-- The numbers are machine words. -/
  words : c.Words
  /-- The configuration is valid. -/
  valid : c.error? = none
  /-- It is the one the engine was made with. -/
  config : e.config = c
  /-- Stress is as configured. -/
  stress : e.guard.stress = c.stress
  /-- The limit check keeps as many entries free as may be pushed without it. -/
  slack : e.stack.slack = Assembler.stackLimitSlack
  /-- The maximum is as configured. -/
  maxBytes : e.stack.maxBytes = c.maxStack
  /-- The stack doubled once for every growth. -/
  size : e.stack.size = c.firstSize * 2 ^ e.stats.stackGrowths
  /-- It stays within the maximum. -/
  size_le : e.stack.size ≤ c.maxStack
  /-- Every live handle has a compiled program. -/
  compiled : ∀ h m, e.store.get? h = some m → Compiled m.program m.options m.object.source m

/-- What an operation does to an engine that is not a matter of handles: the stack may double,
and each doubling is counted. -/
structure Kept (e e' : Engine) : Prop where
  /-- The configuration stays. -/
  config : e'.config = e.config
  /-- The gap stays. -/
  gap : e'.gap = e.gap
  /-- Stress stays. -/
  stress : e'.guard.stress = e.guard.stress
  /-- The entries kept free stay. -/
  slack : e'.stack.slack = e.stack.slack
  /-- The maximum stays. -/
  maxBytes : e'.stack.maxBytes = e.stack.maxBytes
  /-- The stack doubled with every growth. -/
  size : ∃ n, e'.stats.stackGrowths = e.stats.stackGrowths + n ∧
    e'.stack.size = e.stack.size * 2 ^ n
  /-- It stays within the maximum. -/
  size_le : e.stack.size ≤ e.stack.maxBytes → e'.stack.size ≤ e'.stack.maxBytes
  /-- Live handles keep their programs, up to where their code is. -/
  compiled : (∀ h m, e.store.get? h = some m → Compiled m.program m.options m.object.source m) →
    ∀ h m, e'.store.get? h = some m → Compiled m.program m.options m.object.source m

/-- An operation that changes neither the configuration, the stress, the stack nor the number of
growths keeps all there is to keep, if the live handles have compiled programs afterwards. -/
theorem Kept.of_eq {e e' : Engine} (hconfig : e'.config = e.config) (hgap : e'.gap = e.gap)
    (hstress : e'.guard.stress = e.guard.stress) (hstack : e'.stack = e.stack)
    (hgrowths : e'.stats.stackGrowths = e.stats.stackGrowths)
    (hcompiled : (∀ h m, e.store.get? h = some m →
      Compiled m.program m.options m.object.source m) →
      ∀ h m, e'.store.get? h = some m → Compiled m.program m.options m.object.source m) :
    Kept e e' := by
  refine ⟨hconfig, hgap, hstress, by rw [hstack], by rw [hstack], ⟨0, hgrowths, ?_⟩, ?_, hcompiled⟩
  · rw [hstack, Nat.pow_zero, Nat.mul_one]
  · rw [hstack]
    exact id

theorem Kept.refl (e : Engine) : Kept e e := .of_eq rfl rfl rfl rfl rfl id

/-- Growths add up, so their powers of two multiply. -/
theorem Kept.trans {e e' e'' : Engine} (h : Kept e e') (h' : Kept e' e'') : Kept e e'' := by
  obtain ⟨n, hn, hsize⟩ := h.size
  obtain ⟨n', hn', hsize'⟩ := h'.size
  refine ⟨h'.config.trans h.config, h'.gap.trans h.gap, h'.stress.trans h.stress,
    h'.slack.trans h.slack, h'.maxBytes.trans h.maxBytes, ⟨n + n', by omega, ?_⟩,
    fun hle => h'.size_le (h.size_le hle), fun hc => h'.compiled (h.compiled hc)⟩
  rw [hsize', hsize, Nat.mul_assoc, ← Nat.pow_add]

theorem Kept.stack_size_le {e e' : Engine} (h : Kept e e') : e.stack.size ≤ e'.stack.size := by
  obtain ⟨n, -, hsize⟩ := h.size
  rw [hsize]
  exact Nat.le_mul_of_pos_right _ (Nat.two_pow_pos n)

/-- What holds of every reachable engine is kept by every operation: the step of the induction over
a session. -/
theorem Sane.of_kept {c : Config} {e e' : Engine} (h : Sane c e) (hk : Kept e e') : Sane c e' := by
  obtain ⟨n, hn, hsize⟩ := hk.size
  have hle : e'.stack.size ≤ e'.stack.maxBytes := hk.size_le (by rw [h.maxBytes]; exact h.size_le)
  refine ⟨h.words, h.valid, hk.config.trans h.config, hk.stress.trans h.stress,
    hk.slack.trans h.slack, hk.maxBytes.trans h.maxBytes, ?_, ?_, hk.compiled h.compiled⟩
  · rw [hsize, h.size, hn, Nat.mul_assoc, ← Nat.pow_add]
  · rw [← h.maxBytes, ← hk.maxBytes]
    exact hle

end Engine

/-! ### What operations do to live handles -/

namespace Store

/-- After an insertion a live handle has the new matcher or the one it had before. -/
theorem get?_insert {s : Store} {m m' : Matcher} {h : Handle}
    (hget : (s.insert m).1.get? h = some m') : m' = m ∨ s.get? h = some m' := by
  rcases Nat.lt_trichotomy h.index s.entries.size with hlt | heq | hgt
  · rw [get?_insert_of_lt m hlt] at hget
    exact Or.inr hget
  · simp only [insert, get?, heq, Array.getElem?_push_size, Option.join_some] at hget
    exact Or.inl (Option.some.inj hget).symm
  · have hout : (s.entries.push (some m))[h.index]? = none :=
      Array.getElem?_eq_none (by rw [Array.size_push]; omega)
    simp only [insert, get?, hout] at hget
    cases hget

/-- A removal makes no handle live. -/
theorem get?_remove {s : Store} {m : Matcher} {h k : Handle}
    (hget : (s.remove h).1.get? k = some m) : s.get? k = some m := by
  by_cases hk : k = h
  · subst hk
    rw [get?_remove_self] at hget
    cases hget
  · rwa [get?_remove_of_ne hk] at hget

/-- After a relocation a live handle has what it had, or the same matcher with its code in another
place. -/
theorem get?_relocate {s : Store} {m : Matcher} {h k : Handle}
    (hget : (s.relocate h).get? k = some m) :
    s.get? k = some m ∨ ∃ m₀, s.get? k = some m₀ ∧ m = m₀.relocated := by
  unfold relocate at hget
  cases hs : s.get? h with
  | none =>
    rw [hs] at hget
    exact Or.inl hget
  | some m₀ =>
    rw [hs] at hget
    by_cases hi : h.index = k.index
    · have hk : k = h := by
        cases k
        cases h
        exact congrArg Handle.mk hi.symm
      subst hk
      refine Or.inr ⟨m₀, hs, ?_⟩
      have hlt : k.index < s.entries.size := by
        by_contra hout
        simp only [get?, Array.getElem?_eq_none (Nat.le_of_not_lt hout)] at hs
        cases hs
      simp only [get?, Array.getElem?_setIfInBounds_self_of_lt hlt, Option.join_some] at hget
      exact (Option.some.inj hget).symm
    · simp only [get?, Array.getElem?_setIfInBounds_ne hi] at hget
      exact Or.inl hget

end Store

namespace Engine

/-- Moving code does not change what it was compiled from. -/
theorem compiled_relocated {m : Matcher} (h : Compiled m.program m.options m.object.source m) :
    Compiled m.relocated.program m.relocated.options m.relocated.object.source m.relocated :=
  h.moved

/-! ### Every operation keeps what lasts -/

/-- What can come of a compilation: it is denied, or the program is there already, or it is
compiled and added, or there is a report about it. -/
theorem compile_cases {e e' : Engine} {p : Program} {o : Options} {source : String}
    {heap : Nat → UInt64} {answer : Except EngineError Handle}
    (h : e.compile p o source heap = .ok (e', answer)) :
    (e.permissions.isGranted .codeGeneration source = false ∧ e' = e ∧
        answer = .error (.permissionDenied .codeGeneration)) ∨
      (∃ hd, e.store.lookup source p o = some hd ∧ e' = e ∧ answer = .ok hd) ∨
      (∃ m, e.store.lookup source p o = none ∧ p.compile o source heap = .ok m ∧
        e' = { e with store := (e.store.insert m).1 } ∧ answer = .ok (e.store.insert m).2) ∨
      ∃ err, p.compile o source heap = .error (.error err) ∧ e' = e ∧
        answer = .error (.compile err) := by
  unfold compile at h
  split at h
  · next hdenied =>
    obtain ⟨rfl, rfl⟩ := Prod.mk.inj (Except.ok.inj h)
    exact Or.inl ⟨by simpa using hdenied, rfl, rfl⟩
  · refine Or.inr ?_
    split at h
    · next hd hlookup =>
      obtain ⟨rfl, rfl⟩ := Prod.mk.inj (Except.ok.inj h)
      exact Or.inl ⟨hd, hlookup, rfl, rfl⟩
    · next hlookup =>
      split at h
      · next m hm =>
        obtain ⟨rfl, rfl⟩ := Prod.mk.inj (Except.ok.inj h)
        exact Or.inr (Or.inl ⟨m, hlookup, hm, rfl, rfl⟩)
      · next err herr =>
        obtain ⟨rfl, rfl⟩ := Prod.mk.inj (Except.ok.inj h)
        exact Or.inr (Or.inr ⟨err, herr, rfl, rfl⟩)
      · cases h

/-- A compilation leaves the stack alone. A new handle has what was compiled; a program that is
already there has what the index promises. -/
theorem kept_compile {e e' : Engine} {p : Program} {o : Options} {source : String}
    {heap : Nat → UInt64} {answer : Except EngineError Handle}
    (h : e.compile p o source heap = .ok (e', answer)) :
    Kept e e' := by
  rcases compile_cases h with ⟨-, rfl, -⟩ | ⟨hd, -, rfl, -⟩ | ⟨m, -, hm, rfl, -⟩ | ⟨err, -, rfl, -⟩
  · exact .refl e'
  · exact .refl e'
  · refine .of_eq rfl rfl rfl rfl rfl fun hc k m' hget => ?_
    rcases Store.get?_insert hget with rfl | hold
    · obtain ⟨c, hs⟩ := Compiled.shape_of_compile hm
      rw [hs.program, hs.options, hs.source]
      exact .fresh hm
    · exact hc k m' hold
  · exact .refl e'

theorem kept_remove (e : Engine) (h : Handle) : Kept e (e.remove h).1 :=
  .of_eq rfl rfl rfl rfl rfl fun hc k m hget => hc k m (Store.get?_remove hget)

theorem kept_collectGarbage (e : Engine) : Kept e e.collectGarbage.1 := by
  refine .of_eq rfl rfl rfl rfl rfl fun hc k m hget => ?_
  simp only [collectGarbage, Store.get?_relocateAll, Option.map_eq_some_iff] at hget
  obtain ⟨m₀, hm₀, rfl⟩ := hget
  exact compiled_relocated (hc k m₀ hm₀)

theorem kept_beginAttempt (e : Engine) : Kept e e.beginAttempt := .of_eq rfl rfl rfl rfl rfl id

theorem kept_countRetry (e : Engine) : Kept e e.countRetry.1 := .of_eq rfl rfl rfl rfl rfl id

/-- An engine takes over what a thread that started with its stack and guard leaves. -/
theorem kept_absorb {e : Engine} {h : Handle} {t u : Thread} (hstack : t.stack = e.stack)
    (hguard : t.guard = e.guard) (hgrowths : t.growths = 0) (hg : t.Grown u) :
    Kept e (e.absorb h u) := by
  obtain ⟨n, hn, hsize⟩ := hg.size
  rw [hstack] at hsize
  refine ⟨rfl, rfl, ?_, ?_, ?_, ⟨n, ?_, hsize⟩, fun hle => ?_, fun hc k m hget => ?_⟩
  · rw [← hguard]
    exact hg.stress
  · rw [← hstack]
    exact hg.slack
  · rw [← hstack]
    exact hg.maxBytes
  · simp only [absorb, hn, hgrowths, Nat.zero_add]
  · exact hg.le_maxBytes (by rw [hstack]; exact hle)
  · simp only [absorb] at hget
    split at hget
    · exact hc k m hget
    · rcases Store.get?_relocate hget with hold | ⟨m₀, hm₀, rfl⟩
      · exact hc k m hold
      · exact compiled_relocated (hc k m₀ hm₀)

section Attempts

variable {h : Handle} {m : Matcher} {subject : Subject} {start : Nat}
  {R : Engine × Array Int32 → Engine × Array Int32 → Prop}

/-- What each attempt does to the engine and the output, and the count of a repetition to the
engine, a match does, if it can be done one after the other. -/
theorem attempts_induct (hrefl : ∀ x, R x x) (htrans : ∀ x y z, R x y → R y z → R x z)
    (hattempt : ∀ origin e output s t,
      (Task.ofMatcher m subject origin).attempt ((Task.ofMatcher m subject origin).enter start
        output e.beginAttempt.stack e.beginAttempt.guard) = some (.done s t) →
      R (e, output) (e.beginAttempt.absorb h t, t.output))
    (hretry : ∀ e output, R (e, output) (e.countRetry.1, output)) {retries : Nat}
    {origin : CallOrigin} {e : Engine} {output : Array Int32} {r : Result Status}
    (hr : attempts h m subject start retries origin e output = some r) :
    R (e, output) (r.engine, r.output) := by
  induction retries using Nat.strong_induction_on generalizing origin e output with
  | _ retries ih =>
  -- The repetitions left decide only whether an attempt that asks for it is repeated.
  rw [attempts.eq_1] at hr
  simp only at hr
  split at hr
  · cases hr
  · obtain rfl := Option.some.inj hr
    exact hrefl _
  · next s t ht =>
    have hR := hattempt origin e output s t ht
    split at hr
    · obtain rfl := Option.some.inj hr
      exact hR
    · have hR := htrans _ _ _ hR (hretry _ t.output)
      split at hr
      · obtain rfl := Option.some.inj hr
        exact hR
      · cases retries with
        | zero =>
          obtain rfl := Option.some.inj hr
          exact hR
        | succ n => exact htrans _ _ _ hR (ih n (Nat.lt_succ_self n) hr)
    · obtain rfl := Option.some.inj hr
      exact hR

end Attempts

/-- The attempts of an execution grow the stack by doubling it, and by nothing else. -/
theorem kept_attempts {h : Handle} {m : Matcher} {subject : Subject} {start retries : Nat}
    {origin : CallOrigin} {e : Engine} {output : Array Int32} {r : Result Status}
    (hr : attempts h m subject start retries origin e output = some r) : Kept e r.engine :=
  attempts_induct (R := fun x y => Kept x.1 y.1) (fun x => .refl x.1)
    (fun _ _ _ hxy hyz => hxy.trans hyz)
    (fun _ e _ _ _ ht => (kept_beginAttempt e).trans
      (kept_absorb rfl rfl rfl (Task.grown_of_attempt ht)))
    (fun e _ => kept_countRetry e) hr

/-- An execution is its attempts, or it is refused before the first of them. -/
theorem kept_exec {e : Engine} {h : Handle} {subject : Subject} {start : Nat}
    {output : Array Int32} {r : Result Nat} (hr : e.exec h subject start output = some r) :
    Kept e r.engine := by
  unfold exec at hr
  split at hr
  · obtain rfl := Option.some.inj hr
    exact .refl e
  · obtain ⟨r', hr', rfl⟩ := Option.map_eq_some_iff.mp hr
    exact kept_attempts hr'

/-- A search for one match is one execution, with an output of its own. -/
theorem kept_find {e e' : Engine} {h : Handle} {subject : Subject} {start : Nat}
    {answer : Except MatchError (Option Captures)}
    (hr : e.find h subject start = some (e', answer)) : Kept e e' := by
  unfold find at hr
  split at hr
  · obtain ⟨rfl, -⟩ := Prod.mk.inj (Option.some.inj hr)
    exact .refl e
  · obtain ⟨r', hr', heq⟩ := Option.map_eq_some_iff.mp hr
    obtain ⟨rfl, -⟩ := Prod.mk.inj heq
    exact kept_exec hr'

/-- What each call of a search does to the engine, the search does, if it can be done one after
the other. -/
theorem findFrom_induct {h : Handle} {subject : Subject} {m : Matcher}
    {R : Engine → Engine → Prop} (hrefl : ∀ e, R e e) (htrans : ∀ x y z, R x y → R y z → R x z)
    (hexec : ∀ e start output r, e.exec h subject start output = some r → R e r.engine)
    {e : Engine} {start : Nat} {output : Array Int32} {found : Array Captures}
    {r : Engine × Except MatchError (List Captures)}
    (hr : findFrom h subject m e start output found = some r) : R e r.1 := by
  refine findFrom.partial_correctness h subject m (fun e _ _ _ r => R e r.1) ?_
    e start output found r hr
  intro f ih e start output found r hr
  simp only at hr
  split at hr
  · obtain rfl := Option.some.inj hr
    exact hrefl e
  · split at hr
    · cases hr
    · next e' _ err he =>
      obtain rfl := Option.some.inj hr
      exact hexec _ _ _ _ he
    · next e' output' n he =>
      split at hr
      · obtain rfl := Option.some.inj hr
        exact hexec _ _ _ _ he
      · exact htrans _ _ _ (hexec _ _ _ _ he) (ih _ _ _ _ _ hr)

theorem kept_findFrom {h : Handle} {subject : Subject} {m : Matcher} {e : Engine} {start : Nat}
    {output : Array Int32} {found : Array Captures}
    {r : Engine × Except MatchError (List Captures)}
    (hr : findFrom h subject m e start output found = some r) : Kept e r.1 :=
  findFrom_induct .refl (fun _ _ _ hxy hyz => hxy.trans hyz) (fun _ _ _ _ he => kept_exec he) hr

/-- A search for all matches looks at the handle, then at the global mode, and then collects. -/
theorem findAll_cases {e : Engine} {h : Handle} {subject : Subject}
    {r : Engine × Except MatchError (List Captures)} (hr : e.findAll h subject = .ok (some r)) :
    (e.store.get? h = none ∧ r = (e, .error .invalidHandle)) ∨
      ∃ m, e.store.get? h = some m ∧
        ((m.object.globalMode.isGlobal = false ∧ r = (e, .error .notGlobal)) ∨
          (m.object.globalMode.isGlobal = true ∧
            findFrom h subject m e 0 (Array.replicate (m.object.saved * e.config.batch) (-1)) #[] =
              some r)) := by
  unfold findAll at hr
  cases hm : e.store.get? h with
  | none =>
    rw [hm] at hr
    exact Or.inl ⟨rfl, (Option.some.inj (Except.ok.inj hr)).symm⟩
  | some m =>
    rw [hm] at hr
    refine Or.inr ⟨m, rfl, ?_⟩
    cases hg : m.object.globalMode.isGlobal with
    | false =>
      simp only [hg, Bool.not_false, if_true] at hr
      exact Or.inl ⟨rfl, (Option.some.inj (Except.ok.inj hr)).symm⟩
    | true =>
      simp only [hg, Bool.not_true, Bool.false_eq_true, if_false] at hr
      obtain ⟨size, hsize, hr⟩ := Assembler.bind_eq_ok.mp hr
      obtain ⟨_, -, hr⟩ := Assembler.bind_eq_ok.mp hr
      obtain ⟨-, rfl⟩ := Checked.size_eq_ok_iff.mp hsize
      exact Or.inr ⟨rfl, Except.ok.inj hr⟩

/-- **Every operation keeps what lasts.** One case for each operation. The invariant of reachable
engines and the growth of the stack in a session both come from this. -/
theorem kept_after {e e' : Engine} {op : Op} (h : e.after op = some e') : Kept e e' := by
  cases op with
  | compile p o source heap =>
    simp only [after] at h
    split at h
    · next e'' answer hc =>
      obtain rfl := Option.some.inj h
      exact kept_compile hc
    · cases h
  | remove hd =>
    obtain rfl := Option.some.inj h
    exact kept_remove e hd
  | exec hd subject start output =>
    obtain ⟨r, hr, rfl⟩ := Option.map_eq_some_iff.mp h
    exact kept_exec hr
  | find hd subject start =>
    obtain ⟨r, hr, rfl⟩ := Option.map_eq_some_iff.mp h
    exact kept_find hr
  | findAll hd subject =>
    simp only [after] at h
    split at h
    · next r hf =>
      obtain ⟨r', rfl, rfl⟩ := Option.map_eq_some_iff.mp h
      rcases findAll_cases hf with ⟨-, rfl⟩ | ⟨m, -, ⟨-, rfl⟩ | ⟨-, hfrom⟩⟩
      · exact .refl e
      · exact .refl e
      · exact kept_findFrom hfrom
    · cases h
  | interrupt flags =>
    obtain rfl := Option.some.inj h
    exact .of_eq rfl rfl rfl rfl rfl id
  | collectGarbage =>
    obtain rfl := Option.some.inj h
    exact kept_collectGarbage e
  | apply scope deny =>
    obtain rfl := Option.some.inj h
    exact .of_eq rfl rfl rfl rfl rfl id
  | deny scope params =>
    obtain rfl := Option.some.inj h
    exact .of_eq rfl rfl rfl rfl rfl id

/-- An engine that could be made has a valid configuration, the first stack and no handles: the
start of the induction over a session. -/
theorem sane_new {c : Config} {gap : Nat} {e : Engine} (hw : c.Words)
    (h : Engine.new c gap = .ok (.ok e)) : Sane c e := by
  unfold Engine.new at h
  split at h
  · cases h
  · next hvalid =>
    obtain ⟨stack, hstack, h⟩ := Assembler.bind_eq_ok.mp h
    obtain ⟨_, -, hstack⟩ := Assembler.bind_eq_ok.mp hstack
    obtain rfl := Except.ok.inj hstack
    obtain rfl := Except.ok.inj (Except.ok.inj h)
    have hmax := (Config.error?_eq_none_iff.mp hvalid).2.1
    refine ⟨hw, hvalid, rfl, rfl, rfl, rfl, ?_, ?_, fun k m hget => ?_⟩
    · simp only [Stack.size, Config.firstSize, Nat.pow_zero, Nat.mul_one]
      exact Nat.mul_comm _ _
    · simp only [Stack.size]
      omega
    · simp [Store.get?] at hget

section New

variable {c : Config} {gap : Nat} {e : Engine} (h : Engine.new c gap = .ok (.ok e))

include h

/-- A new engine has nothing compiled, and everything is permitted. -/
theorem empty_of_new : e.store = {} ∧ e.permissions = {} := by
  unfold Engine.new at h
  split at h
  · cases h
  · obtain ⟨stack, -, h⟩ := Assembler.bind_eq_ok.mp h
    obtain rfl := Except.ok.inj (Except.ok.inj h)
    exact ⟨rfl, rfl⟩

/-- The gap between the engine's marker and the host's frame is the one the engine was made with. It
is fixed for the whole session. -/
theorem gap_of_new : e.gap = gap := by
  unfold Engine.new at h
  split at h
  · cases h
  · obtain ⟨stack, -, h⟩ := Assembler.bind_eq_ok.mp h
    obtain rfl := Except.ok.inj (Except.ok.inj h)
    rfl

end New

/-- A program that is not there yet is compiled and added. -/
theorem compile_of_lookup_eq_none {e : Engine} {p : Program} {o : Options} {source : String}
    {heap : Nat → UInt64} {m : Matcher}
    (hgranted : e.permissions.isGranted .codeGeneration source = true)
    (hlookup : e.store.lookup source p o = none) (hm : p.compile o source heap = .ok m) :
    e.compile p o source heap =
      .ok ({ e with store := (e.store.insert m).1 }, .ok (e.store.insert m).2) := by
  simp only [compile, hgranted, hlookup, hm, Bool.not_true, Bool.false_eq_true, if_false]

/-- The engine after a program was compiled for the first time. -/
theorem after_compile {e : Engine} {p : Program} {o : Options} {source : String}
    {heap : Nat → UInt64} {m : Matcher}
    (hgranted : e.permissions.isGranted .codeGeneration source = true)
    (hlookup : e.store.lookup source p o = none) (hm : p.compile o source heap = .ok m) :
    e.after (.compile p o source heap) = some { e with store := (e.store.insert m).1 } := by
  simp only [after, compile_of_lookup_eq_none hgranted hlookup hm]

/-- A new engine compiles a program for the first time. -/
theorem after_compile_of_new {c : Config} {gap : Nat} {e : Engine} {p : Program} {o : Options}
    {source : String} {heap : Nat → UInt64} {m : Matcher} (hnew : Engine.new c gap = .ok (.ok e))
    (hm : p.compile o source heap = .ok m) :
    e.after (.compile p o source heap) = some { e with store := (e.store.insert m).1 } := by
  obtain ⟨hstore, hperm⟩ := empty_of_new hnew
  refine after_compile ?_ ?_ hm
  · rw [hperm]
    rfl
  · rw [hstore]
    rfl

/-- An engine that has compiled programs since it was `e₀`, and has done nothing else. -/
structure Stocked (c : Config) (e₀ e : Engine) : Prop where
  /-- A session leads to it. -/
  reachable : e.Reachable c
  /-- The gap is what it was. -/
  gap : e.gap = e₀.gap
  /-- So are the interrupts and the limit of the native stack. -/
  guard : e.guard = e₀.guard
  /-- So is the backtrack stack. -/
  stack : e.stack = e₀.stack
  /-- So are the permissions. -/
  permissions : e.permissions = e₀.permissions

/-- A program that is not there yet is compiled and added. -/
theorem Stocked.compile {c : Config} {e₀ e : Engine} {p : Program} {o : Options} {source : String}
    {heap : Nat → UInt64} {m : Matcher} (h : Stocked c e₀ e)
    (hgranted : e₀.permissions.isGranted .codeGeneration source = true)
    (hlookup : e.store.lookup source p o = none) (hm : p.compile o source heap = .ok m) :
    Stocked c e₀ { e with store := (e.store.insert m).1 } :=
  ⟨.after _ h.reachable (after_compile (h.permissions ▸ hgranted) hlookup hm), h.gap, h.guard,
    h.stack, h.permissions⟩

section Stocked

variable {c : Config} {gap : Nat} {e₀ : Engine} {p : Program} {o o' : Options} {source : String}
  {heap : Nat → UInt64} {m m' : Matcher} (hw : c.Words) (hgap : 16 ≤ gap)
  (hnew : Engine.new c gap = .ok (.ok e₀)) (hm : p.compile o source heap = .ok m)

include hw hgap hnew hm

/-- A new engine with one program compiled. -/
theorem exists_stocked : ∃ e, Stocked c e₀ e ∧ e.store = (Store.insert {} m).1 := by
  obtain ⟨hstore, hperm⟩ := empty_of_new hnew
  have h₀ : Stocked c e₀ e₀ := ⟨.new hw hgap hnew, rfl, rfl, rfl, rfl⟩
  exact ⟨_, h₀.compile (by rw [hperm]; rfl) (by rw [hstore]; rfl) hm, by rw [hstore]⟩

/-- A new engine with a program compiled twice, with different options. The options are part of the
key of a compiled program, so both are live under handles of their own. -/
theorem exists_stocked_pair (hm' : p.compile o' source heap = .ok m') (hne : o ≠ o') :
    ∃ e, Stocked c e₀ e ∧ e.store.get? ⟨0⟩ = some m ∧ e.store.get? ⟨1⟩ = some m' := by
  obtain ⟨hstore, hperm⟩ := empty_of_new hnew
  obtain ⟨e, he, hfirst⟩ := exists_stocked hw hgap hnew hm
  obtain ⟨comp, hs⟩ := Compiled.shape_of_compile hm
  have hlookup : e.store.lookup source p o' = none := by
    have hkey : m.key = (source, o) := by rw [Matcher.key, hs.source, hs.options]
    have hother : ((source, o) == (source, o')) = false := by
      rw [beq_eq_false_iff_ne]
      exact fun hcon => hne (Prod.mk.inj hcon).2
    simp [hfirst, Store.lookup, Store.indexOf?, Store.insert, Store.eraseKey, hkey, hother]
  refine ⟨_, he.compile (by rw [hperm]; rfl) hlookup hm', ?_, ?_⟩
  · simp only [hfirst]
    rfl
  · simp only [hfirst]
    rfl

end Stocked

/-- **What holds of every reachable engine.** -/
theorem Reachable.sane {c : Config} {e : Engine} (h : Reachable c e) : Sane c e := by
  induction h with
  | new hw _ h => exact sane_new hw h
  | after op _ hop ih => exact ih.of_kept (kept_after hop)

end Engine

end NativeMatcher
