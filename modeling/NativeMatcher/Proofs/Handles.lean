import NativeMatcher.Proofs.CodeSize
import NativeMatcher.Proofs.Session

/-!
# Handles

A handle is the place of a compiled program in the store, and places are never used again. So a
handle is good from the compilation that returned it until its program is removed, and dead for
ever after, whatever else is asked of the engine.

What is asked of an engine is a list of *requests* (`NativeMatcher.Request`): the operations of a
session, and the replacement of a permission handler. Each of them does one of three things to
the store (`NativeMatcher.Engine.serve_cases`): a compilation adds a program at the end, a removal
empties a place, and everything else leaves every program where it is and at most moves its code
(`NativeMatcher.Store.Moved`). All that is said about handles follows from this, request by
request and then by induction on the list (`NativeMatcher.Engine.handles_of_session`).
-/

namespace NativeMatcher

/-! ### Requests -/

/-- What is asked of an engine in a session. -/
inductive Request where
  /-- An operation. -/
  | op (op : Op)
  /-- Another permission handler for a scope. -/
  | handler (scope : Permission.Scope) (denials : Permission.Denials)

namespace Engine

/-- The engine after a request, unless the session ends there. -/
def serve (e : Engine) : Request → Option Engine
  | .op op => e.after op
  | .handler scope denials => some { e with permissions := e.permissions.set scope denials }

/-- The engine after requests, one after the other. -/
def serveAll : Engine → List Request → Option Engine
  | e, [] => some e
  | e, r :: rs => (e.serve r).bind fun e' => e'.serveAll rs

/-- The handle that a request brings to life: the answer of a compilation, if that handle was
not live before. -/
def inserted? (e : Engine) : Request → Option Handle
  | .op (.compile p o source heap) =>
    match e.compile p o source heap with
    | .ok (_, .ok h) => if (e.store.get? h).isSome then none else some h
    | _ => none
  | _ => none

/-- The handle that a request puts an end to: that of a removal, if it answers that the handle
was live. -/
def removed? (e : Engine) : Request → Option Handle
  | .op (.remove h) => if (e.remove h).2 then some h else none
  | _ => none

/-- How many requests have a handle of some kind to show. -/
def total (f : Engine → Request → Option Handle) : Engine → List Request → Nat
  | _, [] => 0
  | e, r :: rs => (f e r).isSome.toNat + ((e.serve r).map fun e' => e'.total f rs).getD 0

/-- Nothing can be done with a dead handle. -/
structure Dead (e : Engine) (h : Handle) : Prop where
  /-- It has no program. -/
  code : e.store.get? h = none
  /-- It cannot be removed. -/
  remove : (e.remove h).2 = false
  /-- It cannot be run. -/
  exec : ∀ subject start output,
    e.exec h subject start output = some ⟨e, output, .error .invalidHandle⟩
  /-- It finds nothing. -/
  find : ∀ subject start, e.find h subject start = some (e, .error .invalidHandle)
  /-- It finds nothing over and over either. -/
  findAll : ∀ subject, e.findAll h subject = .ok (some (e, .error .invalidHandle))

/-- A handle without a program is dead. -/
theorem Dead.of_get? {e : Engine} {h : Handle} (hget : e.store.get? h = none) : e.Dead h where
  code := hget
  remove := by simp only [Engine.remove, Store.remove, hget, Option.isSome_none]
  exec subject start output := by simp only [Engine.exec, check, hget]
  find subject start := by simp only [Engine.find, hget]
  findAll subject := by simp only [Engine.findAll, hget]

end Engine

/-! ### Code that moves -/

@[simp] theorem Matcher.relocated_relocated (m : Matcher) : m.relocated.relocated = m.relocated :=
  rfl

namespace Store

variable {s s' s'' : Store}

/-- A store with the same programs at the same places as another; their code may have moved. -/
structure Moved (s s' : Store) : Prop where
  /-- There are as many places. -/
  places : s'.entries.size = s.entries.size
  /-- The index is the same. -/
  index : s'.index = s.index
  /-- Each program is as it was, or with its code elsewhere. -/
  get? : ∀ h, s'.get? h = s.get? h ∨ s'.get? h = (s.get? h).map Matcher.relocated

theorem Moved.refl (s : Store) : s.Moved s := ⟨rfl, rfl, fun _ => Or.inl rfl⟩

/-- Code that is moved twice was moved. -/
theorem Moved.trans (h : s.Moved s') (h' : s'.Moved s'') : s.Moved s'' := by
  refine ⟨h'.places.trans h.places, h'.index.trans h.index, fun hd => ?_⟩
  rcases h'.get? hd with h₂ | h₂ <;> rcases h.get? hd with h₁ | h₁ <;> rw [h₂, h₁]
  · exact Or.inl rfl
  · exact Or.inr rfl
  · exact Or.inr rfl
  · -- Code that moved twice has moved.
    refine Or.inr ?_
    rw [Option.map_map]
    rfl

theorem Moved.isSome_get? (h : s.Moved s') (hd : Handle) :
    (s'.get? hd).isSome = (s.get? hd).isSome := by
  rcases h.get? hd with heq | heq <;> rw [heq]
  exact Option.isSome_map

theorem lt_places_of_get? {h : Handle} {m : Matcher} (hget : s.get? h = some m) :
    h.index < s.entries.size := by
  by_contra hout
  simp only [Store.get?, Array.getElem?_eq_none (Nat.le_of_not_lt hout)] at hget
  cases hget

/-- Moving one program, or none if the handle is dead, keeps all programs and the index. -/
theorem moved_relocate (s : Store) (h : Handle) : s.Moved (s.relocate h) := by
  unfold relocate
  cases hs : s.get? h with
  | none => exact .refl s
  | some m =>
    refine ⟨Array.size_setIfInBounds, rfl, fun hd => ?_⟩
    by_cases hi : h.index = hd.index
    · obtain rfl : h = hd := congrArg Handle.mk hi
      refine Or.inr ?_
      rw [hs, Store.get?, Array.getElem?_setIfInBounds_self_of_lt (lt_places_of_get? hs)]
      rfl
    · exact Or.inl (by simp only [Store.get?, Array.getElem?_setIfInBounds_ne hi])

theorem moved_relocateAll (s : Store) : s.Moved s.relocateAll :=
  ⟨Array.size_map, rfl, fun h => Or.inr (get?_relocateAll s h)⟩

theorem places_remove (s : Store) (h : Handle) : (s.remove h).1.entries.size = s.entries.size := by
  unfold remove
  split
  · rfl
  · exact Array.size_setIfInBounds

/-! ### The number of live programs -/

/-- The live programs, counted place by place. -/
theorem size_eq_countP (s : Store) :
    s.size = (List.range s.entries.size).countP fun i => (s.get? ⟨i⟩).isSome := by
  have hentries : s.entries.toList =
      (List.range s.entries.size).map fun i => (s.entries[i]?).join := by
    refine List.ext_getElem (by simp) fun i hi _ => ?_
    have hlt : i < s.entries.size := by simpa using hi
    simp [Array.getElem?_eq_getElem hlt]
  rw [size, ← Array.countP_toList, hentries, List.countP_map]
  rfl

theorem Moved.size_eq (h : s.Moved s') : s'.size = s.size := by
  rw [size_eq_countP, size_eq_countP, h.places]
  simp only [h.isSome_get?]

theorem size_insert (s : Store) (m : Matcher) : (s.insert m).1.size = s.size + 1 := by
  simp [insert, size]

/-- A removal takes one live program away, or none if there was none at the handle. -/
theorem size_remove (s : Store) (h : Handle) :
    (s.remove h).1.size + (s.remove h).2.isSome.toNat = s.size := by
  unfold remove
  cases hs : s.get? h with
  | none => rfl
  | some m =>
    have hlt := lt_places_of_get? hs
    have hentry : s.entries[h.index] = some m := by
      simpa [Store.get?, Array.getElem?_eq_getElem hlt] using hs
    have hpos : 0 < s.entries.countP Option.isSome :=
      Array.countP_pos_iff.mpr ⟨some m, hentry ▸ Array.getElem_mem hlt, rfl⟩
    simp only [size, Array.setIfInBounds, hlt, dif_pos, Array.countP_set, hentry,
      Option.isSome_some, Option.isSome_none, if_true, Bool.toNat_true]
    simp only [Bool.false_eq_true, if_false]
    omega

end Store

/-! ### What a request does to the store -/

namespace Engine

/-- A run leaves the store as it is, up to where code is, and the permissions as they are. -/
structure Ran (e e' : Engine) : Prop where
  /-- The store. -/
  store : e.store.Moved e'.store
  /-- The permissions. -/
  permissions : e'.permissions = e.permissions

theorem Ran.refl (e : Engine) : e.Ran e := ⟨.refl e.store, rfl⟩

theorem Ran.trans {e e' e'' : Engine} (h : e.Ran e') (h' : e'.Ran e'') : e.Ran e'' :=
  ⟨h.store.trans h'.store, h'.permissions.trans h.permissions⟩

theorem ran_absorb (e : Engine) (h : Handle) (t : Thread) : e.Ran (e.beginAttempt.absorb h t) := by
  refine ⟨?_, rfl⟩
  simp only [absorb]
  split
  · exact .refl e.store
  · exact e.store.moved_relocate h

/-- Running a program may move code, and leaves all else that is compiled as it is. -/
theorem ran_exec {e : Engine} {h : Handle} {subject : Subject} {start : Nat}
    {output : Array Int32} {r : Result Nat} (hr : e.exec h subject start output = some r) :
    e.Ran r.engine := by
  unfold exec at hr
  split at hr
  · obtain rfl := Option.some.inj hr
    exact .refl e
  · obtain ⟨r', hr', rfl⟩ := Option.map_eq_some_iff.mp hr
    exact attempts_induct (R := fun x y => x.1.Ran y.1) (fun x => .refl x.1)
      (fun _ _ _ hxy hyz => hxy.trans hyz) (fun _ e _ _ t _ => ran_absorb e h t)
      (fun e _ => ⟨.refl e.store, rfl⟩) hr'

theorem ran_findFrom {h : Handle} {subject : Subject} {m : Matcher} {e : Engine} {start : Nat}
    {output : Array Int32} {found : Array Captures}
    {r : Engine × Except MatchError (List Captures)}
    (hr : findFrom h subject m e start output found = some r) : e.Ran r.1 :=
  findFrom_induct .refl (fun _ _ _ hxy hyz => hxy.trans hyz) (fun _ _ _ _ he => ran_exec he) hr

/-- So does a search for one match, which is a run. -/
theorem ran_find {e e' : Engine} {h : Handle} {subject : Subject} {start : Nat}
    {answer : Except MatchError (Option Captures)}
    (hr : e.find h subject start = some (e', answer)) : e.Ran e' := by
  unfold find at hr
  split at hr
  · obtain ⟨rfl, -⟩ := Prod.mk.inj (Option.some.inj hr)
    exact .refl e
  · obtain ⟨r', hr', heq⟩ := Option.map_eq_some_iff.mp hr
    obtain ⟨rfl, -⟩ := Prod.mk.inj heq
    exact ran_exec hr'

/-- And a search for all of them, which is a row of runs. -/
theorem ran_findAll {e : Engine} {h : Handle} {subject : Subject}
    {r : Engine × Except MatchError (List Captures)} (hr : e.findAll h subject = .ok (some r)) :
    e.Ran r.1 := by
  rcases findAll_cases hr with ⟨-, rfl⟩ | ⟨m, -, ⟨-, rfl⟩ | ⟨-, hfrom⟩⟩
  · exact .refl e
  · exact .refl e
  · exact ran_findFrom hfrom

variable {e e' : Engine} {r : Request}

/-- A program that the index leads to is live. -/
theorem exists_get?_of_lookup {s : Store} {source : String} {p : Program} {o : Options}
    {h : Handle} (hl : s.lookup source p o = some h) :
    s.indexOf? (source, o) = some h.index ∧ ∃ m, s.get? h = some m ∧ m.program = p := by
  unfold Store.lookup at hl
  obtain ⟨i, hi, hl⟩ := Option.bind_eq_some_iff.mp hl
  obtain ⟨m, hm, hl⟩ := Option.bind_eq_some_iff.mp hl
  split at hl
  · next hp =>
    obtain rfl := Option.some.inj hl
    exact ⟨hi, m, hm, hp⟩
  · cases hl

/-- A program that is added was not live before. -/
theorem inserted?_of_compile {p : Program} {o : Options} {source : String} {heap : Nat → UInt64}
    {m : Matcher}
    (hc : e.compile p o source heap = .ok (e', .ok (e.store.insert m).2)) :
    e.inserted? (.op (.compile p o source heap)) = some (e.store.insert m).2 := by
  have hfresh : e.store.get? (e.store.insert m).2 = none := by simp [Store.get?, Store.insert]
  simp [inserted?, hc, hfresh]

/-- **What a request can do to the store.** A compilation adds a program at the end, a removal
removes one, and anything else only moves code. -/
theorem serve_cases (h : e.serve r = some e') :
    (∃ p o source heap m, r = .op (.compile p o source heap) ∧ e.store.lookup source p o = none ∧
        p.compile o source heap = .ok m ∧ e'.store = (e.store.insert m).1 ∧
        e.inserted? r = some (e.store.insert m).2) ∨
      (∃ hd, r = .op (.remove hd) ∧ e' = (e.remove hd).1) ∨
      ((∀ hd, r ≠ .op (.remove hd)) ∧ e.inserted? r = none ∧ e.store.Moved e'.store) := by
  cases r with
  | handler scope denials =>
    obtain rfl := Option.some.inj h
    exact Or.inr (Or.inr ⟨by simp, rfl, .refl e.store⟩)
  | op op =>
    cases op with
    | compile p o source heap =>
      simp only [serve, after] at h
      split at h
      · next e'' answer hc =>
        obtain rfl := Option.some.inj h
        have hne : ∀ hd, Request.op (.compile p o source heap) ≠ .op (.remove hd) :=
          by simp
        rcases compile_cases hc with ⟨-, rfl, rfl⟩ | ⟨hd, hl, rfl, rfl⟩ | ⟨m, hl, hm, rfl, rfl⟩ |
          ⟨err, -, rfl, rfl⟩
        · exact Or.inr (Or.inr ⟨hne, by simp only [inserted?, hc], .refl _⟩)
        · -- The program is there already, so its handle is live.
          obtain ⟨-, m, hget, -⟩ := exists_get?_of_lookup hl
          exact Or.inr (Or.inr ⟨hne, by simp [inserted?, hc, hget], .refl _⟩)
        · exact Or.inl ⟨p, o, source, heap, m, rfl, hl, hm, rfl, inserted?_of_compile hc⟩
        · exact Or.inr (Or.inr ⟨hne, by simp only [inserted?, hc], .refl _⟩)
      · cases h
    | remove hd =>
      exact Or.inr (Or.inl ⟨hd, rfl, (Option.some.inj h).symm⟩)
    | exec hd subject start output =>
      obtain ⟨r, hr, rfl⟩ := Option.map_eq_some_iff.mp h
      exact Or.inr (Or.inr ⟨by simp, rfl, (ran_exec hr).store⟩)
    | find hd subject start =>
      obtain ⟨r, hr, rfl⟩ := Option.map_eq_some_iff.mp h
      exact Or.inr (Or.inr ⟨by simp, rfl, (ran_find hr).store⟩)
    | findAll hd subject =>
      simp only [serve, after] at h
      split at h
      · next r hf =>
        obtain ⟨r', rfl, rfl⟩ := Option.map_eq_some_iff.mp h
        exact Or.inr (Or.inr ⟨by simp, rfl, (ran_findAll hf).store⟩)
      · cases h
    | collectGarbage =>
      obtain rfl := Option.some.inj h
      exact Or.inr (Or.inr ⟨by simp, rfl, e.store.moved_relocateAll⟩)
    | _ =>
      obtain rfl := Option.some.inj h
      exact Or.inr (Or.inr ⟨by simp, rfl, .refl e.store⟩)

end Engine

/-! ### The index -/

namespace Store

variable {s s' : Store}

/-- A key that was erased is found no longer, and the others are found where they were. -/
theorem indexOf?_eraseKey (s : Store) (entries : Array (Option Matcher))
    (key key' : String × Options) :
    indexOf? ⟨entries, s.eraseKey key⟩ key' = if key = key' then none else s.indexOf? key' := by
  rw [indexOf?, eraseKey, List.find?_filter]
  by_cases hk : key = key'
  · simp [hk]
  · rw [if_neg hk, indexOf?]
    congr 2
    funext e
    by_cases he : e.1 = key' <;> simp [he, Ne.symm hk]

/-- The index leads to what was inserted last under a key. -/
theorem indexOf?_insert (s : Store) (m : Matcher) (key : String × Options) :
    (s.insert m).1.indexOf? key =
      if m.key = key then some s.entries.size else s.indexOf? key := by
  have herase := s.indexOf?_eraseKey (s.entries.push (some m)) m.key key
  by_cases hk : m.key = key
  · simp [insert, indexOf?, hk]
  · rw [if_neg hk] at herase ⊢
    simpa [insert, indexOf?, hk] using herase

/-- A removal takes the program out of the index, if it is there, and nothing else. -/
theorem indexOf?_remove {m : Matcher} {h : Handle} (hget : s.get? h = some m)
    (key : String × Options) :
    (s.remove h).1.indexOf? key =
      if m.key = key ∧ s.indexOf? key = some h.index then none else s.indexOf? key := by
  simp only [remove, hget]
  by_cases hk : m.key = key
  · subst hk
    by_cases hi : s.indexOf? m.key = some h.index
    · simp only [hi, if_true, and_self]
      rw [indexOf?_eraseKey, if_pos rfl]
    · simp only [hi, if_false, and_false]
      rfl
  · simp only [hk, false_and, if_false]
    split
    · rw [indexOf?_eraseKey, if_neg hk]
    · rfl

theorem Moved.indexOf?_eq (h : s.Moved s') (key : String × Options) :
    s'.indexOf? key = s.indexOf? key := by
  rw [indexOf?, h.index, indexOf?]

/-- What holds of a store that programs are compiled into. -/
structure Sound (s : Store) : Prop where
  /-- Every live program was compiled for its own source and options. -/
  compiled : ∀ h m, s.get? h = some m → Compiled m.program m.options m.object.source m
  /-- The index leads to live programs with the key it has them under. -/
  indexed : ∀ key i, s.indexOf? key = some i → ∃ m, s.get? ⟨i⟩ = some m ∧ m.key = key

theorem sound_empty : Sound {} := by
  refine ⟨fun h m hget => ?_, fun key i hi => ?_⟩
  · simp [get?] at hget
  · simp [indexOf?] at hi

/-- A sound store stays sound when a compiled program is added: its place is new, and the index
leads there from now on. -/
theorem Sound.insert (hs : s.Sound) {m : Matcher}
    (hm : Compiled m.program m.options m.object.source m) : (s.insert m).1.Sound := by
  refine ⟨fun h m' hget => ?_, fun key i hi => ?_⟩
  · rcases get?_insert hget with rfl | hold
    · exact hm
    · exact hs.compiled h m' hold
  · rw [indexOf?_insert] at hi
    split at hi
    · next hk =>
      obtain rfl := Option.some.inj hi
      exact ⟨m, s.get?_insert_self m, hk⟩
    · obtain ⟨m', hget, hk⟩ := hs.indexed key i hi
      exact ⟨m', (get?_insert_of_lt m (lt_places_of_get? hget)).trans hget, hk⟩

/-- It stays sound when one is removed. The index may have led to it, and then the key is erased;
other keys lead to other places. -/
theorem Sound.remove (hs : s.Sound) (h : Handle) : (s.remove h).1.Sound := by
  refine ⟨fun k m hget => hs.compiled k m (get?_remove hget), fun key i hi => ?_⟩
  cases hm : s.get? h with
  | none =>
    rw [Store.remove, hm] at hi ⊢
    exact hs.indexed key i hi
  | some m =>
    rw [indexOf?_remove hm] at hi
    split at hi
    · cases hi
    · next hother =>
      obtain ⟨m', hget, hk⟩ := hs.indexed key i hi
      -- The index cannot lead to the removed program: its own key would have been taken out.
      have hne : (⟨i⟩ : Handle) ≠ h := by
        rintro rfl
        obtain rfl := Option.some.inj (hm.symm.trans hget)
        exact hother ⟨hk, hi⟩
      exact ⟨m', (get?_remove_of_ne hne).trans hget, hk⟩

/-- And when code is moved, for a moved program has the same source, options and opcodes. -/
theorem Sound.moved (hs : s.Sound) (h : s.Moved s') : s'.Sound := by
  refine ⟨fun k m hget => ?_, fun key i hi => ?_⟩
  · rcases h.get? k with heq | heq
    · exact hs.compiled k m (heq ▸ hget)
    · rw [heq] at hget
      obtain ⟨m₀, hm₀, rfl⟩ := Option.map_eq_some_iff.mp hget
      exact (hs.compiled k m₀ hm₀).moved
  · rw [h.indexOf?_eq] at hi
    obtain ⟨m, hget, hk⟩ := hs.indexed key i hi
    rcases h.get? ⟨i⟩ with heq | heq
    · exact ⟨m, heq.trans hget, hk⟩
    · exact ⟨m.relocated, by rw [heq, hget]; rfl, hk⟩

end Store

/-- A compiled program has the code of a compilation, wherever it is. -/
theorem Compiled.exists_compile {p : Program} {o : Options} {source : String} {m : Matcher}
    (h : Compiled p o source m) : ∃ heap m₀, p.compile o source heap = .ok m₀ ∧ m.program = p ∧
      m.options = o ∧ m.object.source = source ∧
      m.object.buffer.bytes = m₀.object.buffer.bytes := by
  induction h with
  | fresh hm =>
    obtain ⟨c, hs⟩ := Compiled.shape_of_compile hm
    exact ⟨_, _, hm, hs.program, hs.options, hs.source, rfl⟩
  | moved _ ih => exact ih

namespace Engine

variable {e e' e'' : Engine} {r : Request} {h : Handle}

/-! ### Step by step -/

/-- The program of a handle is the one compiled for a request. -/
def Holds (e : Engine) (h : Handle) (p : Program) (o : Options) (source : String) : Prop :=
  ∃ m, e.store.get? h = some m ∧ Compiled p o source m

/-- A request keeps the store sound. -/
theorem sound_serve (hs : e.store.Sound) (h : e.serve r = some e') : e'.store.Sound := by
  rcases serve_cases h with ⟨p, o, source, heap, m, -, -, hm, hstore, -⟩ | ⟨hd, -, rfl⟩ |
    ⟨-, -, hmoved⟩
  · rw [hstore]
    refine hs.insert ?_
    obtain ⟨c, hshape⟩ := Compiled.shape_of_compile hm
    rw [hshape.program, hshape.options, hshape.source]
    exact .fresh hm
  · exact hs.remove hd
  · exact hs.moved hmoved

/-- A compilation returns a handle that has what was asked for. A program that it inserts has its
tables where the heap puts them now; one that was there already has them where they were put. -/
theorem exists_of_compile {p : Program} {o : Options} {source : String} {heap : Nat → UInt64}
    (hs : e.store.Sound) (hc : e.compile p o source heap = .ok (e', .ok h)) :
    ∃ heap' m m₀, e'.store.get? h = some m ∧ p.compile o source heap' = .ok m₀ ∧
      (e.store.lookup source p o = none → heap' = heap) ∧ m.program = p ∧ m.options = o ∧
      m.object.source = source ∧ m.object.buffer.bytes = m₀.object.buffer.bytes := by
  rcases compile_cases hc with ⟨-, -, hcon⟩ | ⟨hd, hl, rfl, hok⟩ | ⟨m, -, hm, rfl, hok⟩ |
    ⟨err, -, -, hcon⟩
  · cases hcon
  · obtain rfl := Except.ok.inj hok
    obtain ⟨hi, m, hget, rfl⟩ := exists_get?_of_lookup hl
    obtain ⟨m', hget', hk⟩ := hs.indexed _ _ hi
    obtain rfl := Option.some.inj (hget.symm.trans hget')
    obtain ⟨rfl, rfl⟩ := Prod.mk.inj hk
    obtain ⟨heap', m₀, hm₀, hrequest⟩ := (hs.compiled _ m hget).exists_compile
    exact ⟨heap', m, m₀, hget, hm₀, fun hnone => (by rw [hl] at hnone; cases hnone), hrequest⟩
  · obtain rfl := Except.ok.inj hok
    obtain ⟨c, hshape⟩ := Compiled.shape_of_compile hm
    exact ⟨heap, m, m, e.store.get?_insert_self m, hm, fun _ => rfl, hshape.program,
      hshape.options, hshape.source, rfl⟩
  · cases hcon

/-- The program of a handle stays, up to where its code is, unless it is removed. -/
theorem get?_serve {m : Matcher} (hs : e.serve r = some e') (hr : r ≠ .op (.remove h))
    (hget : e.store.get? h = some m ∨ e.store.get? h = some m.relocated) :
    e'.store.get? h = some m ∨ e'.store.get? h = some m.relocated := by
  rcases serve_cases hs with ⟨-, -, -, -, m', -, -, -, hstore, -⟩ | ⟨hd, rfl, rfl⟩ | ⟨-, -, hmoved⟩
  · have hlt : h.index < e.store.entries.size := by
      rcases hget with hm | hm <;> exact Store.lt_places_of_get? hm
    rwa [hstore, Store.get?_insert_of_lt m' hlt]
  · have hne : h ≠ hd := by
      rintro rfl
      exact hr rfl
    have hkept : (e.remove hd).1.store.get? h = e.store.get? h := Store.get?_remove_of_ne hne
    rwa [hkept]
  · rcases hmoved.get? h with heq | heq <;> rw [heq]
    · exact hget
    · refine Or.inr ?_
      rcases hget with hm | hm <;> rw [hm] <;> rfl

/-- Places are never given back. -/
theorem places_le_serve (hs : e.serve r = some e') :
    e.store.entries.size ≤ e'.store.entries.size := by
  rcases serve_cases hs with ⟨-, -, -, -, m, -, -, -, hstore, -⟩ | ⟨hd, -, rfl⟩ | ⟨-, -, hmoved⟩
  · rw [hstore, Store.insert, Array.size_push]
    exact Nat.le_succ _
  · exact Nat.le_of_eq (Store.places_remove e.store hd).symm
  · exact Nat.le_of_eq hmoved.places.symm

/-- A place without a program stays without. -/
theorem get?_serve_of_none (hs : e.serve r = some e') (hlt : h.index < e.store.entries.size)
    (hget : e.store.get? h = none) : e'.store.get? h = none := by
  rcases serve_cases hs with ⟨-, -, -, -, m, -, -, -, hstore, -⟩ | ⟨hd, -, rfl⟩ | ⟨-, -, hmoved⟩
  · rw [hstore, Store.get?_insert_of_lt m hlt, hget]
  · by_cases hne : h = hd
    · exact hne ▸ Store.get?_remove_self e.store hd
    · exact (Store.get?_remove_of_ne hne).trans hget
  · rw [← Option.isNone_iff_eq_none, ← Option.not_isSome, hmoved.isSome_get?, hget]
    rfl

/-- What is inserted goes to the end. -/
theorem index_of_inserted? (hi : e.inserted? r = some h) : h.index = e.store.entries.size := by
  unfold inserted? at hi
  split at hi
  · next p o source heap =>
    split at hi
    · next e' hd hc =>
      rcases compile_cases hc with ⟨-, -, hcon⟩ | ⟨hd', hl, -, hok⟩ | ⟨m, -, -, -, hok⟩ |
        ⟨err, -, -, hcon⟩
      · cases hcon
      · obtain rfl := Except.ok.inj hok
        obtain ⟨-, m, hget, -⟩ := exists_get?_of_lookup hl
        rw [hget] at hi
        cases hi
      · obtain rfl := Except.ok.inj hok
        split at hi
        · cases hi
        · obtain rfl := Option.some.inj hi
          rfl
      · cases hcon
    · cases hi
  · cases hi

/-- Live programs are inserted and removed one at a time. -/
theorem size_serve (hs : e.serve r = some e') :
    e'.store.size + (e.removed? r).isSome.toNat =
      e.store.size + (e.inserted? r).isSome.toNat := by
  rcases serve_cases hs with ⟨p, o, source, heap, m, rfl, -, -, hstore, hi⟩ | ⟨hd, rfl, rfl⟩ |
    ⟨hne, hi, hmoved⟩
  · rw [hstore, Store.size_insert, hi]
    rfl
  · have hsize := e.store.size_remove hd
    have hremoved : (e.removed? (.op (.remove hd))).isSome = (e.store.remove hd).2.isSome := by
      by_cases hlive : (e.store.remove hd).2.isSome = true <;>
        simp [removed?, Engine.remove, hlive]
    rw [hremoved]
    exact hsize
  · have hremoved : e.removed? r = none := by
      unfold removed?
      split
      · next hd => exact absurd rfl (hne hd)
      · rfl
    rw [hi, hremoved, hmoved.size_eq]

/-! ### Request after request -/

/-- What every request keeps, all requests keep. -/
theorem serveAll_induct {P : Engine → Prop} {rs : List Request} (hall : e.serveAll rs = some e')
    (hstep : ∀ r ∈ rs, ∀ e₁ e₂, P e₁ → Engine.serve e₁ r = some e₂ → P e₂) (h : P e) : P e' := by
  induction rs generalizing e with
  | nil =>
    obtain rfl := Option.some.inj hall
    exact h
  | cons r rs ih =>
    obtain ⟨e₁, h₁, hrest⟩ := Option.bind_eq_some_iff.mp hall
    exact ih hrest (fun r' hr' => hstep r' (List.mem_cons_of_mem _ hr'))
      (hstep r List.mem_cons_self e e₁ h h₁)

theorem sound_serveAll {rs : List Request} (hs : e.store.Sound) (hall : e.serveAll rs = some e') :
    e'.store.Sound :=
  serveAll_induct hall (P := fun e => e.store.Sound) (fun _ _ _ _ h hserve => sound_serve h hserve)
    hs

/-- The live programs are those inserted less those removed. -/
theorem size_serveAll {rs : List Request} (hall : e.serveAll rs = some e') :
    e'.store.size + e.total removed? rs = e.store.size + e.total inserted? rs := by
  induction rs generalizing e with
  | nil =>
    obtain rfl := Option.some.inj hall
    rfl
  | cons r rs ih =>
    obtain ⟨e₁, h₁, hrest⟩ := Option.bind_eq_some_iff.mp hall
    have hstep := size_serve h₁
    have := ih hrest
    simp only [total, h₁, Option.map_some, Option.getD_some]
    omega

/-- **Handles are good until they are removed, and never again after that.** In a session that
starts with a new engine, whatever is asked of it:

* a handle that a compilation returns has, until it is removed, a program with the source, the
  options and the opcodes of the request and with the code of a compilation that has its tables at
  the same places, however often that code was moved; if the compilation found no program, these
  are the places it put them at itself;
* a compilation that inserts returns a larger index than all compilations before it;
* a handle that was removed is dead for ever;
* there are as many live programs as were inserted, less those removed. -/
theorem handles_of_session {c : Config} {gap : Nat} {e₀ e : Engine} {past : List Request}
    (hnew : Engine.new c gap = .ok (.ok e₀)) (hpast : e₀.serveAll past = some e) :
    (∀ p o source heap e₁ h, e.compile p o source heap = .ok (e₁, .ok h) →
        ∀ later e₂, e₁.serveAll later = some e₂ →
          (.op (.remove h) ∉ later → ∃ heap' m m₀, e₂.store.get? h = some m ∧
            p.compile o source heap' = .ok m₀ ∧
            (e.store.lookup source p o = none → heap' = heap) ∧ m.program = p ∧ m.options = o ∧
            m.object.source = source ∧ m.object.buffer.bytes = m₀.object.buffer.bytes) ∧
          ∀ r h', e₂.inserted? r = some h' → h.index < h'.index) ∧
      (∀ h e₁, e.remove h = (e₁, true) →
        ∀ later e₂, e₁.serveAll later = some e₂ → e₂.Dead h) ∧
      e.store.size + e₀.total removed? past = e₀.total inserted? past := by
  have hempty := (empty_of_new hnew).1
  have hsound : e.store.Sound := sound_serveAll (hempty ▸ Store.sound_empty) hpast
  refine ⟨fun p o source heap e₁ h hc later e₂ hlater => ⟨fun hkept => ?_, fun r h' hi => ?_⟩,
    fun h e₁ hremove later e₂ hlater => ?_, ?_⟩
  · obtain ⟨heap', m, m₀, hget, hm₀, hrequest⟩ := exists_of_compile hsound hc
    have hstays : e₂.store.get? h = some m ∨ e₂.store.get? h = some m.relocated :=
      serveAll_induct hlater
        (P := fun e => e.store.get? h = some m ∨ e.store.get? h = some m.relocated)
        (fun r hr _ _ hm hs => get?_serve hs (fun heq => hkept (heq ▸ hr)) hm) (Or.inl hget)
    rcases hstays with hstays | hstays
    · exact ⟨heap', m, m₀, hstays, hm₀, hrequest⟩
    · exact ⟨heap', m.relocated, m₀, hstays, hm₀, hrequest⟩
  · obtain ⟨-, m, -, hget, -⟩ := exists_of_compile hsound hc
    rw [index_of_inserted? hi]
    exact serveAll_induct hlater (P := fun e => h.index < e.store.entries.size)
      (fun _ _ _ _ hlt hs => Nat.lt_of_lt_of_le hlt (places_le_serve hs))
      (Store.lt_places_of_get? hget)
  · -- The handle was live when it was removed, so its place is there and stays empty.
    have hlive : (e.store.remove h).2.isSome = true := congrArg Prod.snd hremove
    obtain rfl : (e.remove h).1 = e₁ := congrArg Prod.fst hremove
    have hplace : h.index < e.store.entries.size := by
      cases hget : e.store.get? h with
      | none => simp [Store.remove, hget] at hlive
      | some m => exact Store.lt_places_of_get? hget
    refine Dead.of_get? (serveAll_induct hlater
      (P := fun e => h.index < e.store.entries.size ∧ e.store.get? h = none)
      (fun _ _ _ _ hdead hs => ⟨Nat.lt_of_lt_of_le hdead.1 (places_le_serve hs),
        get?_serve_of_none hs hdead.1 hdead.2⟩) ⟨?_, e.store.get?_remove_self h⟩).2
    exact (Store.places_remove e.store h).symm ▸ hplace
  · have hsize := size_serveAll hpast
    rw [hempty] at hsize
    simpa [Store.size] using hsize

end Engine

/-- A new engine that has compiled one program. -/
theorem Sample.exists_first :
    ∃ (e₀ e : Engine) (m : Matcher), Engine.new {} 16 = .ok (.ok e₀) ∧
      e₀.serve (.op (.compile Sample.pusher { mode := .latin1 } "" Sample.heap)) = some e ∧
      e.store = (Store.insert {} m).1 ∧ e.permissions = {} ∧
      Sample.pusher.compile { mode := .latin1 } "" Sample.heap = .ok m := by
  obtain ⟨e₀, hnew⟩ : ∃ e₀, Engine.new {} 16 = .ok (.ok e₀) := ⟨_, rfl⟩
  obtain ⟨m, hm, -⟩ := Sample.exists_compile_pusher
  obtain ⟨hstore, hperm⟩ := Engine.empty_of_new hnew
  exact ⟨e₀, { e₀ with store := (e₀.store.insert m).1 }, m, hnew,
    Engine.after_compile_of_new hnew hm, by rw [hstore], hperm, hm⟩

/-- A program is compiled and moved, found again, and then removed for good. -/
theorem Engine.handles_of_session_pusher :
    ∃ e₀ e : Engine, Engine.new {} 16 = .ok (.ok e₀) ∧
      e₀.serveAll [.op (.compile Sample.pusher { mode := .latin1 } "" Sample.heap),
        .op .collectGarbage] = some e ∧
      e.compile Sample.pusher { mode := .latin1 } "" Sample.heap = .ok (e, .ok ⟨0⟩) ∧
      (∃ m, e.store.get? ⟨0⟩ = some m ∧ m.program = Sample.pusher) ∧ e.store.size = 1 ∧
      (e.remove ⟨0⟩).2 = true ∧ (e.remove ⟨0⟩).1.Dead ⟨0⟩ := by
  obtain ⟨e₀, e₁, m, hnew, hserve, hstore, hperm, hm⟩ := Sample.exists_first
  obtain ⟨comp, hs⟩ := Compiled.shape_of_compile hm
  obtain ⟨e, he, hperm', hmoved⟩ : ∃ e, e₀.serveAll
      [.op (.compile Sample.pusher { mode := .latin1 } "" Sample.heap),
        .op .collectGarbage] = some e ∧
      e.permissions = {} ∧ e.store = (Store.insert {} m).1.relocateAll := by
    simp only [serveAll, hserve]
    exact ⟨_, rfl, hperm, by rw [← hstore]; rfl⟩
  have hget : e.store.get? ⟨0⟩ = some m.relocated := by
    rw [hmoved, Store.get?_relocateAll]
    exact congrArg _ (Store.get?_insert_self {} m)
  have hkey : m.key = ("", { mode := .latin1 }) := by rw [Matcher.key, hs.source, hs.options]
  have hlookup : e.store.lookup "" Sample.pusher { mode := .latin1 } = some ⟨0⟩ := by
    have hprogram : m.relocated.program = Sample.pusher := hs.program
    have hindex : e.store.indexOf? ("", { mode := .latin1 }) = some 0 := by
      rw [hmoved, ← hkey]
      exact (Store.indexOf?_insert {} m m.key).trans (if_pos rfl)
    simp only [Store.lookup, hindex, Option.bind_eq_bind, Option.bind_some, hget, hprogram, if_true]
  have hagain : e.compile Sample.pusher { mode := .latin1 } "" Sample.heap = .ok (e, .ok ⟨0⟩) := by
    simp only [compile, hlookup, hperm']
    rfl
  have hremove : e.remove ⟨0⟩ = ((e.remove ⟨0⟩).1, true) := by
    simp [Engine.remove, Store.remove, hget]
  obtain ⟨hcompiled, hremoved, hcount⟩ := handles_of_session hnew he
  obtain ⟨-, m', -, hget', -, -, hprogram, -⟩ := (hcompiled _ _ _ _ _ _ hagain [] e rfl).1 (by simp)
  refine ⟨e₀, e, hnew, he, hagain, ⟨m', hget', hprogram⟩, ?_, congrArg Prod.snd hremove,
    hremoved _ _ hremove [] _ rfl⟩
  rw [hmoved, (Store.moved_relocateAll _).size_eq, Store.size_insert]
  rfl

/-- Tests for a character of a word, which takes a table. -/
def Sample.wordTest : Program where
  opcodes := #[.onChar (.notInClass .word) none, .succeed]
  labels := 0
  saved := 0

theorem Sample.exists_compile_wordTest (heap : Nat → UInt64) :
    ∃ m, wordTest.compile { mode := .latin1 } "" heap = .ok m := by
  obtain ⟨m, hm, -⟩ := Program.exists_compile (p := wordTest) (o := { mode := .latin1 }) (n := 43)
    (by decide +kernel) (by decide) (by simp [wordTest, Opcode.InRange]) (by decide) "" heap
  exact ⟨m, hm⟩

/-- The address of its table is loaded at code offset 15. -/
theorem Sample.mem_listing_wordTest (heap : Nat → UInt64) :
    (15, .instr (Assembly.loadTable .rax (heap 0))) ∈
      Assembly.placed 0 (wordTest.listing { mode := .latin1 } heap) :=
  List.mem_of_getElem? (i := 5) rfl

/-- **The code of a handle is not that of every compilation of its request.** It holds the address
of its own table, and a compilation that gets the page after that holds another one. -/
theorem Engine.bytes_ne_of_wordTest :
    ∃ (e₀ e : Engine) (m m' : Matcher), Engine.new {} 16 = .ok (.ok e₀) ∧
      e₀.compile Sample.wordTest { mode := .latin1 } "" Sample.heap = .ok (e, .ok ⟨0⟩) ∧
      e.store.get? ⟨0⟩ = some m ∧
      Sample.wordTest.compile { mode := .latin1 } "" (fun i => Sample.heap (i + 1)) = .ok m' ∧
      m.object.buffer.bytes ≠ m'.object.buffer.bytes := by
  obtain ⟨e₀, hnew⟩ : ∃ e₀, Engine.new {} 16 = .ok (.ok e₀) := ⟨_, rfl⟩
  obtain ⟨hstore, hperm⟩ := empty_of_new hnew
  obtain ⟨m, hm⟩ := Sample.exists_compile_wordTest Sample.heap
  obtain ⟨m', hm'⟩ := Sample.exists_compile_wordTest fun i => Sample.heap (i + 1)
  have hcompile : e₀.compile Sample.wordTest { mode := .latin1 } "" Sample.heap =
      .ok ({ e₀ with store := (e₀.store.insert m).1 }, .ok (e₀.store.insert m).2) := by
    refine compile_of_lookup_eq_none ?_ ?_ hm
    · rw [hperm]
      rfl
    · rw [hstore]
      rfl
  have hplace : (e₀.store.insert m).2 = ⟨0⟩ := by
    rw [hstore]
    rfl
  rw [hplace] at hcompile
  refine ⟨e₀, _, m, m', hnew, hcompile, ?_, hm', fun heq => ?_⟩
  · rw [← hplace]
    exact e₀.store.get?_insert_self m
  · obtain ⟨pre, post, hlen, hbytes⟩ := Program.exists_bytes_of_mem_listing hm
      (Sample.mem_listing_wordTest Sample.heap) rfl
    obtain ⟨pre', post', hlen', hbytes'⟩ := Program.exists_bytes_of_mem_listing hm'
      (Sample.mem_listing_wordTest fun i => Sample.heap (i + 1)) rfl
    -- Both have the address at the same code offset, so it would have to be the same.
    rw [heq, hbytes'] at hbytes
    obtain ⟨-, hrest⟩ := List.append_inj hbytes (hlen'.trans hlen.symm)
    obtain ⟨haddress, -⟩ := List.append_inj hrest rfl
    exact absurd haddress (by decide)

end NativeMatcher
