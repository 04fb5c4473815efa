import NativeMatcher.Proofs.BacktrackLimit
import NativeMatcher.Proofs.Handles

/-!
# Which compiled programs are found again

The store keeps one place for a source and options: that of the program inserted last for them
(`NativeMatcher.Engine.latest?`). A compilation looks there and nowhere else, so it finds a
program again exactly if it was the last one inserted for its source and options and has not been
removed (`NativeMatcher.Engine.reuse_of_session`).

A program that is live but not the last of its key is not found: another program compiled for the
same source and options hides it, also after that other one is removed
(`NativeMatcher.Engine.compile_pusher_of_rival`).
-/

namespace NativeMatcher

/-- Right after a program was inserted for a key, it is all that is found there. -/
theorem Store.lookup_insert {s : Store} {m : Matcher} {p : Program} {o : Options} {source : String}
    (hkey : m.key = (source, o)) :
    (s.insert m).1.lookup source p o = if m.program = p then some (s.insert m).2 else none := by
  have hindex : (s.insert m).1.indexOf? (source, o) = some (s.insert m).2.index := by
    rw [indexOf?_insert, if_pos hkey]
    rfl
  have hget : (s.insert m).1.get? ⟨(s.insert m).2.index⟩ = some m := s.get?_insert_self m
  simp only [lookup, hindex, Option.bind_eq_bind, Option.bind_some, hget]

namespace Engine

/-! ### The last program of a key -/

/-- The handle that a request brings to life for a source and options. -/
def insertedFor? (e : Engine) (key : String × Options) : Request → Option Handle
  | .op (.compile p o source heap) =>
    if (source, o) = key then e.inserted? (.op (.compile p o source heap)) else none
  | _ => none

/-- The handle inserted last for a source and options, given the last one before. -/
def latestAfter (key : String × Options) : Option Handle → Engine → List Request → Option Handle
  | last, _, [] => last
  | last, e, r :: rs =>
    match e.serve r with
    | some e' => latestAfter key ((e.insertedFor? key r).or last) e' rs
    | none => last

/-- The handle that requests insert last for a source and options. -/
def latest? (e : Engine) (key : String × Options) (rs : List Request) : Option Handle :=
  latestAfter key none e rs

/-- The index has the last program of a key, as long as it is live. -/
structure Tracks (e : Engine) (key : String × Options) (last : Option Handle) : Prop where
  /-- The store is sound. -/
  sound : e.store.Sound
  /-- The last program has a place. -/
  place : ∀ h, last = some h → h.index < e.store.entries.size
  /-- The index leads to the last program, and to no other. -/
  index : ∀ i, e.store.indexOf? key = some i ↔ last = some ⟨i⟩ ∧ (e.store.get? ⟨i⟩).isSome = true

variable {e e' : Engine} {key : String × Options} {last : Option Handle} {r : Request}

/-- Inserting a program under the key makes it the last one of the key; inserting one under another
key changes neither the index at this key nor what is live at its place. -/
theorem tracks_insert {m : Matcher} (h : e.Tracks key last)
    (hsound : (e.store.insert m).1.Sound) (hstore : e'.store = (e.store.insert m).1) :
    e'.Tracks key ((if m.key = key then some (e.store.insert m).2 else none).or last) := by
  have hplaces : e'.store.entries.size = e.store.entries.size + 1 := by
    rw [hstore, Store.insert, Array.size_push]
  have hself : e'.store.get? ⟨e.store.entries.size⟩ = some m := by
    rw [hstore]
    exact e.store.get?_insert_self m
  refine ⟨hstore ▸ hsound, fun hd hlast => ?_, fun i => ?_⟩
  · rw [hplaces]
    split at hlast
    · obtain rfl := Option.some.inj hlast
      exact Nat.lt_succ_self _
    · exact Nat.lt_succ_of_lt (h.place hd hlast)
  · rw [hstore, Store.indexOf?_insert, ← hstore]
    split
    · constructor
      · rintro ⟨rfl⟩
        exact ⟨rfl, by rw [hself]; rfl⟩
      · rintro ⟨hlast, -⟩
        exact congrArg (Option.map Handle.index) hlast
    · rw [h.index, Option.none_or]
      refine and_congr_right fun hlast => ?_
      rw [hstore, Store.get?_insert_of_lt m (h.place _ hlast)]

/-- Removing a program erases the key only if the index leads to it. If it was the last one of the
key then nothing live is left to lead to, and if not then the index stays. -/
theorem tracks_remove (h : e.Tracks key last) (hd : Handle) : (e.remove hd).1.Tracks key last := by
  refine ⟨h.sound.remove hd, fun k hlast => ?_, fun i => ?_⟩
  · exact (Store.places_remove e.store hd).symm ▸ h.place k hlast
  · change (e.store.remove hd).1.indexOf? key = some i ↔
      last = some ⟨i⟩ ∧ ((e.store.remove hd).1.get? ⟨i⟩).isSome = true
    cases hm : e.store.get? hd with
    | none =>
      rw [Store.remove, hm]
      exact h.index i
    | some m =>
      rw [Store.indexOf?_remove hm]
      by_cases hi : (⟨i⟩ : Handle) = hd
      · -- The removed program leaves the index if it is the last one of the key.
        subst hi
        rw [Store.get?_remove_self]
        split
        · simp
        · next hother =>
          simp only [Option.isSome_none, Bool.false_eq_true, and_false, iff_false]
          intro hindex
          obtain ⟨m', hget, hk⟩ := h.sound.indexed key i hindex
          obtain rfl := Option.some.inj (hm.symm.trans hget)
          exact hother ⟨hk, hindex⟩
      · rw [Store.get?_remove_of_ne hi]
        split
        · next hself =>
          -- Another program was the last one.
          refine iff_of_false (by simp) fun hlast => hi ?_
          have := Option.some.inj (hself.2.symm.trans ((h.index i).mpr hlast))
          exact (congrArg Handle.mk this).symm
        · exact h.index i

theorem tracks_moved (h : e.Tracks key last) (hmoved : e.store.Moved e'.store) :
    e'.Tracks key last := by
  refine ⟨h.sound.moved hmoved, fun k hlast => hmoved.places ▸ h.place k hlast, fun i => ?_⟩
  rw [hmoved.indexOf?_eq, hmoved.isSome_get?]
  exact h.index i

/-- A request that inserts nothing has nothing for a key. -/
theorem insertedFor?_of_none (h : e.inserted? r = none) : e.insertedFor? key r = none := by
  unfold insertedFor?
  split
  · split
    · exact h
    · rfl
  · rfl

/-- **A request keeps the index on the last program of a key.** A compilation that inserts
overwrites the entry of its key and no other; a removal takes an entry away only if it is of the
handle that is removed. -/
theorem Tracks.serve (h : e.Tracks key last) (hs : e.serve r = some e') :
    e'.Tracks key ((e.insertedFor? key r).or last) := by
  rcases serve_cases hs with ⟨p, o, source, heap, m, rfl, -, hm, hstore, hi⟩ | ⟨hd, rfl, rfl⟩ |
    ⟨-, hi, hmoved⟩
  · obtain ⟨c, hshape⟩ := Compiled.shape_of_compile hm
    have hk : m.key = (source, o) := by rw [Matcher.key, hshape.source, hshape.options]
    rw [insertedFor?, hi, ← hk]
    exact tracks_insert h (hstore ▸ sound_serve h.sound hs) hstore
  · exact tracks_remove h hd
  · rw [insertedFor?_of_none hi]
    exact tracks_moved h hmoved

/-- Request after request the index keeps up with the history of its key. -/
theorem Tracks.serveAll {rs : List Request} (h : e.Tracks key last)
    (hall : e.serveAll rs = some e') : e'.Tracks key (latestAfter key last e rs) := by
  induction rs generalizing e last with
  | nil =>
    obtain rfl := Option.some.inj hall
    exact h
  | cons r rs ih =>
    obtain ⟨e₁, h₁, hrest⟩ := Option.bind_eq_some_iff.mp hall
    rw [latestAfter, h₁]
    exact ih (h.serve h₁) hrest

/-- In a new engine there is nothing in the index, and nothing has been compiled. -/
theorem tracks_new {c : Config} {gap : Nat} (hnew : Engine.new c gap = .ok (.ok e)) :
    e.Tracks key none := by
  have hempty := (empty_of_new hnew).1
  refine ⟨hempty ▸ Store.sound_empty, by simp, fun i => ?_⟩
  rw [hempty]
  simp [Store.indexOf?]

/-- What a compilation finds: the last program of the key, if it is live and the right one. -/
theorem Tracks.lookup_iff {p : Program} {o : Options} {source : String} {h : Handle}
    (ht : e.Tracks (source, o) last) :
    e.store.lookup source p o = some h ↔ last = some h ∧ e.Holds h p o source := by
  constructor
  · intro hl
    obtain ⟨hi, m, hget, rfl⟩ := exists_get?_of_lookup hl
    obtain ⟨m', hget', hk⟩ := ht.sound.indexed _ _ hi
    obtain rfl := Option.some.inj (hget.symm.trans hget')
    obtain ⟨rfl, rfl⟩ := Prod.mk.inj hk
    exact ⟨((ht.index _).mp hi).1, m, hget, ht.sound.compiled _ m hget⟩
  · rintro ⟨hlast, m, hget, hm⟩
    obtain ⟨c, hs⟩ := hm.shape
    have hi : e.store.indexOf? (source, o) = some h.index :=
      (ht.index _).mpr ⟨hlast, by rw [hget]; rfl⟩
    simp only [Store.lookup, hi, hget, Option.bind_eq_bind, Option.bind_some, hs.program, if_true]

/-- **A program is found again exactly if it is the last one of its source and options.** In a
session that starts with a new engine, and where code may be generated: if the program inserted
last for a source and options is live and the one that is asked for, a compilation returns its
handle and inserts nothing; and if a compilation returns a handle otherwise, it has inserted
it. -/
theorem reuse_of_session {c : Config} {gap : Nat} {e₀ e : Engine} {past : List Request}
    {p : Program} {o : Options} {source : String} {heap : Nat → UInt64}
    (hnew : Engine.new c gap = .ok (.ok e₀))
    (hpast : e₀.serveAll past = some e)
    (hgranted : e.permissions.isGranted .codeGeneration source = true) :
    (∀ h, e₀.latest? (source, o) past = some h → e.Holds h p o source →
        e.compile p o source heap = .ok (e, .ok h)) ∧
      ∀ e₁ h, e.compile p o source heap = .ok (e₁, .ok h) →
        ¬(e₀.latest? (source, o) past = some h ∧ e.Holds h p o source) →
          e.inserted? (.op (.compile p o source heap)) = some h ∧
            e₁.store.size = e.store.size + 1 := by
  have ht : e.Tracks (source, o) (e₀.latest? (source, o) past) := (tracks_new hnew).serveAll hpast
  refine ⟨fun h hlast hholds => ?_, fun e₁ h hc hother => ?_⟩
  · have hl := ht.lookup_iff.mpr ⟨hlast, hholds⟩
    simp only [compile, hgranted, hl, Bool.not_true, Bool.false_eq_true, if_false]
  · rcases compile_cases hc with ⟨-, -, hcon⟩ | ⟨hd, hl, -, hok⟩ | ⟨m, -, -, rfl, hok⟩ |
      ⟨err, -, -, hcon⟩
    · cases hcon
    · obtain rfl := Except.ok.inj hok
      exact absurd (ht.lookup_iff.mp hl) hother
    · obtain rfl := Except.ok.inj hok
      exact ⟨inserted?_of_compile hc, e.store.size_insert m⟩
    · cases hcon

/-- A program that is compiled again right away is found. -/
theorem reuse_of_session_pusher :
    ∃ e₀ e : Engine, Engine.new {} 16 = .ok (.ok e₀) ∧
      e₀.serveAll [.op (.compile Sample.pusher { mode := .latin1 } "" Sample.heap)] = some e ∧
      e.compile Sample.pusher { mode := .latin1 } "" Sample.heap = .ok (e, .ok ⟨0⟩) := by
  obtain ⟨e₀, e, m, hnew, hserve, hstore, hperm, hm⟩ := Sample.exists_first
  have hall : e₀.serveAll [.op (.compile Sample.pusher { mode := .latin1 } "" Sample.heap)] =
      some e := by
    rw [serveAll, hserve]
    rfl
  have hinserted : e₀.inserted? (.op (.compile Sample.pusher { mode := .latin1 } "" Sample.heap)) =
      some ⟨0⟩ := by
    have hempty := (empty_of_new hnew).1
    rcases serve_cases hserve with ⟨p, o, source, heap, m', -, -, -, -, hi⟩ | ⟨hd, hcon, -⟩ |
      ⟨-, -, hmoved⟩
    · rw [hi, hempty]
      rfl
    · cases hcon
    · have hplaces := hmoved.places
      rw [hstore, hempty] at hplaces
      cases hplaces
  have hlast : e₀.latest? ("", { mode := .latin1 })
      [.op (.compile Sample.pusher { mode := .latin1 } "" Sample.heap)] = some ⟨0⟩ := by
    simp only [latest?, latestAfter, hserve, insertedFor?, hinserted]
    rfl
  have hget : e.store.get? ⟨0⟩ = some m := by
    rw [hstore]
    rfl
  refine ⟨e₀, e, hnew, hall, (reuse_of_session hnew hall ?_).1 ⟨0⟩ hlast ⟨m, hget, .fresh hm⟩⟩
  rw [hperm]
  rfl

/-- **A live program is compiled once more**, because another one was compiled for the same source
and options in between: the new code gets a place of its own. -/
theorem compile_pusher_of_rival :
    ∃ e₀ e e₁ : Engine, Engine.new {} 16 = .ok (.ok e₀) ∧
      e₀.serveAll [.op (.compile Sample.pusher { mode := .latin1 } "" Sample.heap),
        .op (.compile Sample.quitter { mode := .latin1 } "" Sample.heap)] = some e ∧
      e.permissions.isGranted .codeGeneration "" = true ∧
      e.Holds ⟨0⟩ Sample.pusher { mode := .latin1 } "" ∧
      e.compile Sample.pusher { mode := .latin1 } "" Sample.heap = .ok (e₁, .ok ⟨2⟩) ∧
      e.store.size = 2 ∧ e₁.store.size = 3 := by
  obtain ⟨e₀, e₁, m, hnew, hserve, hstore, hperm, hm⟩ := Sample.exists_first
  obtain ⟨m', hm'⟩ := Sample.exists_compile_quitter false
  have hoptions : Sample.quitterOptions false = { mode := .latin1 } := rfl
  rw [hoptions] at hm'
  obtain ⟨comp, hs⟩ := Compiled.shape_of_compile hm
  obtain ⟨comp', hs'⟩ := Compiled.shape_of_compile hm'
  have hkey : m.key = ("", { mode := .latin1 }) := by rw [Matcher.key, hs.source, hs.options]
  have hkey' : m'.key = ("", { mode := .latin1 }) := by rw [Matcher.key, hs'.source, hs'.options]
  have hgranted : e₁.permissions.isGranted .codeGeneration "" = true := by
    rw [hperm]
    rfl
  have hlookup' : e₁.store.lookup "" Sample.quitter { mode := .latin1 } = none := by
    rw [hstore, Store.lookup_insert hkey, hs.program]
    exact if_neg (by decide)
  have hlookup : (e₁.store.insert m').1.lookup "" Sample.pusher { mode := .latin1 } = none := by
    rw [Store.lookup_insert hkey', hs'.program]
    exact if_neg (by decide)
  have hserve' : e₁.serve (.op (.compile Sample.quitter { mode := .latin1 } "" Sample.heap)) =
      some { e₁ with store := (e₁.store.insert m').1 } := after_compile hgranted hlookup' hm'
  refine ⟨e₀, { e₁ with store := (e₁.store.insert m').1 },
    { e₁ with store := ((e₁.store.insert m').1.insert m).1 }, hnew, ?_, hgranted,
    ⟨m, ?_, .fresh hm⟩, ?_, ?_, ?_⟩
  · simp only [serveAll, hserve, hserve', Option.bind_some]
  · simp only [hstore]
    rfl
  · have hplace : ((e₁.store.insert m').1.insert m).2 = ⟨2⟩ := by
      rw [hstore]
      rfl
    rw [← hplace]
    exact compile_of_lookup_eq_none hgranted hlookup hm
  · simp only [hstore, Store.size_insert]
    rfl
  · simp only [hstore, Store.size_insert]
    rfl

end Engine

end NativeMatcher
