import NativeMatcher.Proofs.Pieces

/-!
# The routines that are asked for

Which routines follow the opcodes depends on which of their labels are used, and a routine may
use the labels of others. It works out because of the order in which they are emitted
(`NativeMatcher.Assembler.inOrder`): a routine asks only for places that are bound in any case
and for places whose routine comes later. So in the end no reserved label is left open, whatever
the opcodes ask for (`NativeMatcher.Assembler.Rounded.exists_placeSections`).
-/

namespace NativeMatcher

open Assembly Code X64

namespace Assembly

theorem Reserved.label_inj {r s : Reserved} (h : r.label = s.label) : r = s := by
  revert h
  cases r <;> cases s <;> decide

theorem lt_of_mem_map_label {rs : List Reserved} {l : Label} (h : l ∈ rs.map Reserved.label) :
    l.index < reservedLabels := by
  obtain ⟨r, -, rfl⟩ := List.mem_map.mp h
  exact index_label_lt r

/-- The local labels of a piece are the numbers from `next` on, as many as it declares. -/
theorem mem_locals {next count : Nat} {l : Label} :
    l ∈ locals next count ↔ next ≤ l.index ∧ l.index < next + count := by
  simp only [locals, List.mem_map, List.mem_range'_1]
  constructor
  · rintro ⟨i, hi, rfl⟩
    exact hi
  · intro hi
    exact ⟨l.index, hi, rfl⟩

theorem nodup_locals (next count : Nat) : (locals next count).Nodup := by
  refine List.Pairwise.map Label.mk ?_ (List.nodup_range' (h := Nat.one_pos))
  exact fun i j hne heq => hne (Label.mk.inj heq)

/-- A label that is asked for was declared by then, before the items or by one of them. -/
theorem Scoped.lt_of_mem_targets {n : Nat} {items : List Item} (h : Scoped n items) {l : Label}
    (hl : l ∈ targets items) : l.index < n + declares items := by
  induction items generalizing n with
  | nil => cases hl
  | cons i is ih =>
    rw [targets_cons, List.mem_append] at hl
    rw [declares_cons]
    rcases hl with hl | hl
    · have hlabel : i.label? = some l := by
        rw [Option.mem_toList, Item.target?_eq] at hl
        obtain ⟨⟨kind, k⟩, hf, rfl⟩ := Option.map_eq_some_iff.mp hl
        exact Item.label?_of_field? hf
      have := h.1 l hlabel
      omega
    · have := ih h.2 hl
      omega

namespace Piece

variable {next : Nat} {own : List Label} {P : Label → Prop} {items : List Item}

theorem mem_bindings (h : Piece next own P items) {l : Label} :
    l ∈ bindings items ↔ l ∈ own ∨ next ≤ l.index ∧ l.index < next + declares items := by
  rw [h.binds.mem_iff, List.mem_append, mem_locals]

/-- Labels of its own and labels it declares are told apart by their numbers, so none is bound
twice. -/
theorem nodup (h : Piece next own P items) (hown : own.Nodup) (hlt : ∀ l ∈ own, l.index < next) :
    (bindings items).Nodup := by
  rw [h.binds.nodup_iff, List.nodup_append]
  refine ⟨hown, nodup_locals _ _, fun l hl k hk heq => ?_⟩
  have := hlt l hl
  have := (mem_locals.mp hk).1
  subst heq
  omega

/-- The labels that a piece of code asks for are named in advance, or it binds them. -/
theorem mem_targets (h : Piece next own P items) {l : Label} (hl : l ∈ targets items) :
    P l ∨ next ≤ l.index ∧ l ∈ bindings items := by
  refine (h.names l hl).imp_right fun hle => ⟨hle, ?_⟩
  exact h.mem_bindings.mpr (.inr ⟨hle, h.declared.lt_of_mem_targets hl⟩)

end Piece

end Assembly

namespace Assembler

theorem Laid.lt_of_mem_bindings {n : Nat} {items : List Item} {a : Assembler}
    (h : Laid n items a) {l : Label} (hl : l ∈ bindings items) : l.index < a.labels.size := by
  obtain ⟨i, hi, hbound⟩ := List.mem_filterMap.mp hl
  exact h.declared i hi l (Item.label?_of_bound? hbound)

/-- A label is open exactly if it is asked for and not bound. -/
theorem Laid.isLinked_eq {n : Nat} {items : List Item} {a : Assembler} (h : Laid n items a)
    {l : Label} {e : Label.Entry} (he : a.labels.entry l = .ok e) :
    e.isLinked = true ↔ l ∈ targets items ∧ l ∉ bindings items := by
  rw [Label.Entry.isLinked, ← position_eq_none_iff, ← h.pos l e he, Bool.and_eq_true,
    Option.isNone_iff_eq_none, and_comm]
  refine and_congr_left fun hnone => ?_
  have huses : e.uses.toList = fieldsOf items l := by
    rw [h.uses l e he, hnone]
    rfl
  rw [← Decidable.not_iff_not, ← fieldsOf_eq_nil_iff, ← huses]
  simp

/-- **A piece of code is placed** after items that do not bind its labels. Its own labels get their
places, and the labels that it names are left open if they were. -/
theorem Emitted.exists_piece {a : Assembler} {items is : List Item} {own : List Label}
    {P : Label → Prop} (h : Emitted items a) (hp : Piece a.labels.size own P is)
    (hnodup : own.Nodup) (hlt : ∀ l ∈ own, l.index < a.labels.size)
    (hfresh : ∀ l ∈ own, l ∉ bindings items) (hsize : codeSize (items ++ is) < 2 ^ 31) :
    ∃ b, a.placeAll is = .ok b ∧ Emitted (items ++ is) b ∧
      b.labels.size = a.labels.size + declares is ∧ b = a.withCode b := by
  refine h.exists_placeAll hp.declared (hp.nodup hnodup hlt) (fun l hl hmem => ?_) hsize
  rcases hp.mem_bindings.mp hl with hown | ⟨hle, -⟩
  · exact hfresh l hown hmem
  · have := h.lt_of_mem_bindings hmem
    omega

/-! ### The order of the routines -/

/-- What a routine has to do with the reserved places. -/
structure Role where
  /-- The places it binds. -/
  own : List Reserved
  /-- The places it may ask for. -/
  names : List Reserved

/-- The roles of the routines, in the order they are emitted. -/
def roles : List Role :=
  [⟨[.entry, .restart], [.checkPreempt, .start]⟩,
    ⟨[.success], [.exit, .restart, .leave]⟩,
    ⟨[.exit, .leave], []⟩,
    ⟨[.backtrack], [.checkPreempt, .fallback, .fail]⟩,
    ⟨[.fail], [.exit]⟩,
    ⟨[.checkPreempt], [.leave]⟩,
    ⟨[.stackOverflow], [.exception]⟩,
    ⟨[.exception], [.leave]⟩,
    ⟨[.fallback], [.leave]⟩]

/-- Each routine has its role. -/
theorem routine_of_mem_zip {s : Section} {r : Role} (h : (s, r) ∈ sections.zip roles)
    {a : Assembler} (ha : reservedLabels ≤ a.labels.size) :
    Routine a.labels.size r.own r.names (s.items a) := by
  simp only [sections, roles, List.zip_cons_cons, List.zip_nil_right, List.mem_cons,
    List.not_mem_nil, or_false, Prod.mk.injEq] at h
  rcases h with ⟨rfl, rfl⟩ | ⟨rfl, rfl⟩ | ⟨rfl, rfl⟩ | ⟨rfl, rfl⟩ | ⟨rfl, rfl⟩ | ⟨rfl, rfl⟩ |
    ⟨rfl, rfl⟩ | ⟨rfl, rfl⟩ | ⟨rfl, rfl⟩
  · exact routine_entry ha a.mode a.registers
  · exact routine_success ha a.mode a.globalMode a.saved
  · exact routine_exit ha a.globalMode
  · exact routine_backtrack ha a.backtrackLimit a.canFallback
  · exact routine_failExit ha
  · exact routine_checkPreempt ha
  · exact routine_growStack ha
  · exact routine_statusExit ha .exception statusException
  · exact routine_statusExit ha .fallback statusFallback

/-- The places that are bound in any case after a routine, if those in `sure` were before. -/
def sureAfter (sure : List Reserved) (s : Section) (r : Role) : List Reserved :=
  if s.label.isNone then r.own ++ sure else sure

/-- Whether a routine may follow others that bound at most the places in `seen`, and in any case
those in `sure`: it binds none of them again, a place that decides whether it is emitted is the
only one it binds, and it asks for places that are bound in any case or left to later routines. -/
def mayFollow (seen sure : List Reserved) (s : Section) (r : Role) : Bool :=
  r.own.Nodup && r.own.all (· ∉ seen) && (s.label.isNone || s.label.toList == r.own) &&
    r.names.all fun n => n ∈ sureAfter sure s r || n ∉ r.own ++ seen

/-- Whether routines may follow one another, and leave no place out. -/
def inOrder (seen sure : List Reserved) : List (Section × Role) → Bool
  | [] => true
  | (s, r) :: rest => mayFollow seen sure s r && inOrder (r.own ++ seen) (sureAfter sure s r) rest

theorem inOrder_sections : inOrder [.start] [.start] (sections.zip roles) = true := by
  decide

/-- The places of the routines in a list. -/
def seenAfter (seen : List Reserved) : List (Section × Role) → List Reserved
  | [] => seen
  | (_, r) :: rest => seenAfter (r.own ++ seen) rest

/-- Every reserved place is the start or in a routine. -/
theorem mem_seenAfter (r : Reserved) : r ∈ seenAfter [.start] (sections.zip roles) := by
  cases r <;> decide

/-- An assembler after the items of the opcodes, `code`, in which the labels of the program end at
`base`, and some routines: those bound at most the places in `seen`, and in any case those in
`sure`. No place of theirs is left open, and no local label is. -/
structure Rounded (code : List Item) (base : Nat) (seen sure : List Reserved) (items : List Item)
    (a : Assembler) : Prop where
  /-- The items are emitted. -/
  emitted : a.Emitted items
  /-- The labels are those of the program and the local ones. -/
  size : a.labels.size = base + declares items
  /-- The reserved places that may be bound. -/
  binds : ∀ l ∈ bindings items, (∃ r ∈ seen, r.label = l) ∨ reservedLabels ≤ l.index
  /-- The reserved places that are bound. -/
  bound : ∀ r ∈ sure, r.label ∈ bindings items
  /-- A reserved place that is asked for is bound. -/
  settled : ∀ r ∈ seen, r.label ∈ targets items → r.label ∈ bindings items
  /-- A local label that is asked for is bound. -/
  locals : ∀ l ∈ targets items, base ≤ l.index → l ∈ bindings items
  /-- The labels of the program are left to the opcodes. -/
  program : ∀ l : Label, reservedLabels ≤ l.index → l.index < base →
    (l ∈ targets items ↔ l ∈ targets code) ∧ (l ∈ bindings items ↔ l ∈ bindings code)

namespace Rounded

variable {code items : List Item} {base : Nat} {seen sure : List Reserved} {a b : Assembler}
  {s : Section} {r : Role}

/-- A routine that is emitted. Its label gets its place, and what it asks for is bound by now or
left to later routines. -/
theorem append (h : Rounded code base seen sure items a) (hbase : reservedLabels ≤ base)
    (hmay : mayFollow seen sure s r = true) {is : List Item}
    (hroutine : Routine a.labels.size r.own r.names is) (hb : b.Emitted (items ++ is))
    (hsize : b.labels.size = a.labels.size + declares is) :
    Rounded code base (r.own ++ seen) (sureAfter sure s r) (items ++ is) b := by
  have hle : base ≤ a.labels.size := by
    rw [h.size]
    exact Nat.le_add_right _ _
  have hown {n : Reserved} (hn : n ∈ r.own) : n.label ∈ bindings is :=
    hroutine.mem_bindings.mpr (.inl (List.mem_map_of_mem hn))
  have hsure {n : Reserved} (hn : n ∈ sureAfter sure s r) :
      n.label ∈ bindings (items ++ is) := by
    rw [bindings_append, List.mem_append]
    unfold sureAfter at hn
    split at hn
    · rcases List.mem_append.mp hn with hn | hn
      · exact .inr (hown hn)
      · exact .inl (h.bound n hn)
    · exact .inl (h.bound n hn)
  refine ⟨hb, ?_, fun l hl => ?_, fun n => hsure, fun n hn htarget => ?_, fun l hl hlocal => ?_,
    fun l hlow hhigh => ?_⟩
  · rw [hsize, h.size, declares_append, Nat.add_assoc]
  · rw [bindings_append, List.mem_append] at hl
    rcases hl with hl | hl
    · exact (h.binds l hl).imp_left fun ⟨n, hn, heq⟩ => ⟨n, List.mem_append_right _ hn, heq⟩
    · rcases hroutine.mem_bindings.mp hl with hl | ⟨hl, -⟩
      · obtain ⟨n, hn, rfl⟩ := List.mem_map.mp hl
        exact .inl ⟨n, List.mem_append_left _ hn, rfl⟩
      · exact .inr (by omega)
  · rw [targets_append, List.mem_append] at htarget
    rw [List.mem_append] at hn
    by_cases hmem : n ∈ r.own
    · rw [bindings_append]
      exact List.mem_append_right _ (hown hmem)
    · rcases htarget with htarget | htarget
      · rw [bindings_append]
        exact List.mem_append_left _ (h.settled n (hn.resolve_left hmem) htarget)
      · -- The routine asks for a place that has been passed, so it is bound in any case.
        rcases hroutine.mem_targets htarget with hname | ⟨hlt, -⟩
        · obtain ⟨n', hn', heq⟩ := List.mem_map.mp hname
          obtain rfl := Reserved.label_inj heq
          simp only [mayFollow, Bool.and_eq_true, List.all_eq_true] at hmay
          have hname := hmay.2 n' hn'
          simp only [Bool.or_eq_true, decide_eq_true_eq, List.mem_append] at hname
          exact hsure (hname.resolve_right (not_not_intro hn))
        · have := index_label_lt n
          omega
  · rw [targets_append, List.mem_append] at hl
    rw [bindings_append, List.mem_append]
    rcases hl with hl | hl
    · exact .inl (h.locals l hl hlocal)
    · rcases hroutine.mem_targets hl with hname | ⟨-, hbound⟩
      · have := lt_of_mem_map_label hname
        omega
      · exact .inr hbound
  · obtain ⟨htargets, hbindings⟩ := h.program l hlow hhigh
    have hnot : l ∉ targets is := fun hl => by
      rcases hroutine.mem_targets hl with hname | ⟨hlt, -⟩
      · have := lt_of_mem_map_label hname
        omega
      · omega
    have hnot' : l ∉ bindings is := fun hl => by
      rcases hroutine.mem_bindings.mp hl with hown | ⟨hlt, -⟩
      · have := lt_of_mem_map_label hown
        omega
      · omega
    simp [hnot, hnot', htargets, hbindings]

/-- A routine that is not emitted, since its place is not asked for or bound already. -/
theorem skip (h : Rounded code base seen sure items a) (hmay : mayFollow seen sure s r = true)
    {n : Reserved} (hs : s.label = some n)
    (hopen : n.label ∈ targets items → n.label ∈ bindings items) :
    Rounded code base (r.own ++ seen) (sureAfter sure s r) items a := by
  have hown : [n] = r.own := by
    simp only [mayFollow, hs, Bool.and_eq_true] at hmay
    simpa using hmay.1.2
  refine ⟨h.emitted, h.size, fun l hl => ?_, fun k hk => ?_, fun k hk htarget => ?_, h.locals,
    h.program⟩
  · exact (h.binds l hl).imp_left fun ⟨n, hn, heq⟩ => ⟨n, List.mem_append_right _ hn, heq⟩
  · rw [sureAfter, hs] at hk
    exact h.bound k hk
  · rw [← hown] at hk
    rcases List.mem_cons.mp hk with rfl | hk
    · exact hopen htarget
    · exact h.settled k hk htarget

/-- **One routine is emitted or left out**, and no place is left open that was not before. It is
left out only if nothing has asked for its label, and then no later routine may ask for it
either. -/
theorem exists_placeSection (h : Rounded code base seen sure items a)
    (hbase : reservedLabels ≤ base)
    (hmay : mayFollow seen sure s r = true)
    (hroutine : Routine a.labels.size r.own r.names (s.items a))
    (hsize : codeSize (items ++ a.sectionItems s) < 2 ^ 31) :
    ∃ b, a.placeSection s = .ok b ∧ b = a.withCode b ∧
      Rounded code base (r.own ++ seen) (sureAfter sure s r) (items ++ a.sectionItems s) b := by
  have hle : base ≤ a.labels.size := by
    rw [h.size]
    exact Nat.le_add_right _ _
  -- The routine can be emitted, whether it is or not.
  have hplace (hcode : codeSize (items ++ s.items a) < 2 ^ 31) :
      ∃ b, a.placeAll (s.items a) = .ok b ∧ b = a.withCode b ∧
        Rounded code base (r.own ++ seen) (sureAfter sure s r) (items ++ s.items a) b := by
    have hnodup : r.own.Nodup ∧ ∀ n ∈ r.own, n ∉ seen := by
      simp only [mayFollow, Bool.and_eq_true, List.all_eq_true, decide_eq_true_eq] at hmay
      exact hmay.1.1
    obtain ⟨b, hb, hemitted, hlabels, hframe⟩ := h.emitted.exists_piece hroutine
      (List.pairwise_map.mpr (hnodup.1.imp fun hne heq => hne (Reserved.label_inj heq)))
      (fun l hl => by
        have := lt_of_mem_map_label hl
        omega)
      (fun l hl hmem => by
        obtain ⟨n, hn, rfl⟩ := List.mem_map.mp hl
        rcases h.binds _ hmem with ⟨k, hk, heq⟩ | hlocal
        · exact hnodup.2 n hn (Reserved.label_inj heq ▸ hk)
        · have := index_label_lt n
          omega)
      hcode
    exact ⟨b, hb, hframe, h.append hbase hmay hroutine hemitted hlabels⟩
  unfold placeSection
  unfold sectionItems at hsize ⊢
  cases hs : s.label with
  | none =>
    simp only [hs] at hsize ⊢
    exact hplace hsize
  | some n =>
    simp only [hs] at hsize ⊢
    have hn : n.label.index < a.labels.size := by
      have := index_label_lt n
      omega
    obtain ⟨e, he⟩ := exists_entry hn
    have hlinked : a.labels.isLinked n.label = .ok e.isLinked := by
      rw [Label.Table.isLinked, he]
      rfl
    rw [hlinked] at hsize ⊢
    cases hopen : e.isLinked with
    | true =>
      simp only [hopen] at hsize ⊢
      obtain ⟨b, hb, hframe, hrounded⟩ := hplace hsize
      refine ⟨b, bind_eq_ok.mpr ⟨true, hopen ▸ hlinked, hb⟩, hframe, hrounded⟩
    | false =>
      refine ⟨a, bind_eq_ok.mpr ⟨false, hopen ▸ hlinked, rfl⟩, rfl, ?_⟩
      simp only [List.append_nil]
      refine h.skip hmay hs fun htarget => Decidable.not_not.mp fun hbound => ?_
      have := (h.emitted.isLinked_eq he).mpr ⟨htarget, hbound⟩
      simp [hopen] at this

/-- **The routines are emitted**, and no place of theirs is left open. They come in an order in
which each names only places that are bound in any case or left to later ones, which is checked once
for the list of them. -/
theorem exists_placeSections {parts : List (Section × Role)}
    (h : Rounded code base seen sure items a) (hbase : reservedLabels ≤ base)
    (hparts : ∀ x ∈ parts, x ∈ sections.zip roles) (horder : inOrder seen sure parts = true)
    (hsize : codeSize (items ++ a.sectionsItems (parts.map Prod.fst)) < 2 ^ 31) :
    ∃ b, (parts.map Prod.fst).foldlM placeSection a = .ok b ∧ b = a.withCode b ∧
      ∃ sure', Rounded code base (seenAfter seen parts) sure'
        (items ++ a.sectionsItems (parts.map Prod.fst)) b := by
  induction parts generalizing seen sure items a with
  | nil => exact ⟨a, rfl, rfl, sure, by simpa [sectionsItems, seenAfter] using h⟩
  | cons x parts ih =>
    obtain ⟨s, r⟩ := x
    rw [List.forall_mem_cons] at hparts
    simp only [inOrder, Bool.and_eq_true] at horder
    simp only [List.map_cons, sectionsItems] at hsize ⊢
    have hle : reservedLabels ≤ a.labels.size := h.emitted.size
    have hfirst : codeSize (items ++ a.sectionItems s) < 2 ^ 31 := by
      simp only [codeSize_append] at hsize ⊢
      omega
    obtain ⟨b, hb, hframe, hrounded⟩ := h.exists_placeSection hbase horder.1
      (routine_of_mem_zip hparts.1 hle) hfirst
    rw [hb, ← List.append_assoc] at hsize
    obtain ⟨c, hc, hframe', sure', hrounded'⟩ := ih hrounded hparts.2 horder.2 hsize
    refine ⟨c, ?_, ?_, sure', ?_⟩
    · rw [List.foldlM_cons]
      exact bind_eq_ok.mpr ⟨b, hb, hc⟩
    · rw [hframe', hframe]
      rfl
    · rw [hb, ← List.append_assoc]
      exact hrounded'

end Rounded

end Assembler

end NativeMatcher
