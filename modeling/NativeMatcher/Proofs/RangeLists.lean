import NativeMatcher.Proofs.Loads

/-!
# Look-ups in range lists

A character is looked up in many ranges at once by the parity of the boundaries at or below it: the
first character of each range, and the one after its last. In ascending ranges that touch at most
(`NativeMatcher.CharRange.Ascending`) a range that ends below the character has both its boundaries
there and does not count, so the parity is odd exactly in the range that contains it
(`NativeMatcher.CharRange.memBoundaries_iff`).

One word is left out. The largest one has no word after it, so a range that ends with it has it
twice for a boundary, and the largest word itself, which is past every boundary, counts as outside
of every range (`NativeMatcher.CharRange.memBoundaries_max`). It is a character of a match: that of
a load of four bytes, all of them `0xFF` (`NativeMatcher.Engine.exec_of_largest_word`).
-/

namespace NativeMatcher

namespace CharRange

variable {rs : List CharRange} {r : CharRange} {c : UInt32}

/-- The ranges are in ascending order and no two of them have a character in common; they may
touch. -/
structure Ascending (rs : List CharRange) : Prop where
  /-- No range is empty. -/
  first_le_last : ∀ r ∈ rs, r.first ≤ r.last
  /-- Every range ends before those after it begin. -/
  apart : rs.Pairwise fun r s => r.last < s.first

instance (rs : List CharRange) : Decidable (Ascending rs) :=
  decidable_of_iff ((∀ r ∈ rs, r.first ≤ r.last) ∧ rs.Pairwise fun r s => r.last < s.first)
    ⟨fun h => ⟨h.1, h.2⟩, fun h => ⟨h.first_le_last, h.apart⟩⟩

/-- Some range contains the character. -/
def Listed (rs : List CharRange) (c : UInt32) : Prop := ∃ r ∈ rs, r.contains c = true

instance (rs : List CharRange) (c : UInt32) : Decidable (Listed rs c) :=
  inferInstanceAs (Decidable (∃ r ∈ rs, r.contains c = true))

theorem Ascending.tail (h : Ascending (r :: rs)) : Ascending rs :=
  ⟨fun s hs => h.first_le_last s (List.mem_cons_of_mem r hs), h.apart.of_cons⟩

theorem Ascending.head_le (h : Ascending (r :: rs)) : r.first ≤ r.last :=
  h.first_le_last r List.mem_cons_self

/-- What is not past the first range lies in no other. -/
theorem Ascending.not_contains (h : Ascending (r :: rs)) (hc : c ≤ r.last) :
    ¬Listed rs c := by
  rintro ⟨s, hs, hcon⟩
  have hlt : r.last < s.first := List.rel_of_pairwise_cons h.apart hs
  have hle := (contains_iff.mp hcon).1
  rw [UInt32.le_iff_toNat_le] at hc hle
  rw [UInt32.lt_iff_toNat_lt] at hlt
  omega

theorem toNat_max : (0xFFFFFFFF : UInt32).toNat = 4294967295 := rfl

/-- The boundary after a character tells what is past it, but for the largest word, which has no
character after it. -/
theorem after_le_iff (hc : c ≠ 0xFFFFFFFF) {d : UInt32} : after d ≤ c ↔ d < c := by
  have hmax : c.toNat ≠ 4294967295 := fun h => hc (UInt32.toNat_inj.mp h)
  have hlt := c.toNat_lt
  have hlt' := d.toNat_lt
  unfold after
  split
  · next hd =>
    simp only [hd, UInt32.le_iff_toNat_le, UInt32.lt_iff_toNat_lt, toNat_max]
    omega
  · next hd =>
    have hne : d.toNat ≠ 4294967295 := fun h => hd (UInt32.toNat_inj.mp h)
    simp only [UInt32.le_iff_toNat_le, UInt32.lt_iff_toNat_lt, UInt32.toNat_add, UInt32.toNat_one]
    omega

/-- Two boundaries at or below a character do not count. -/
theorem memBoundaries_cons_cons (a b : UInt32) (bs : List UInt32) (c : UInt32) :
    memBoundaries (a :: b :: bs) c =
      (decide (a ≤ c) && (!decide (b ≤ c) || memBoundaries bs c)) := by
  unfold memBoundaries
  by_cases ha : a ≤ c
  · by_cases hb : b ≤ c
    · have hparity (n : Nat) : (n + 1 + 1) % 2 = n % 2 := by omega
      simp [ha, hb, hparity]
    · simp [ha, hb]
  · simp [ha]

/-- **The parity of the boundaries decides membership** of every character but the largest
word. -/
theorem memBoundaries_iff (h : Ascending rs) (hc : c ≠ 0xFFFFFFFF) :
    memBoundaries (boundaries rs) c = true ↔ Listed rs c := by
  induction rs with
  | nil => simp [memBoundaries, Listed]
  | cons r rs ih =>
    have ih := ih h.tail
    simp only [boundaries_cons, memBoundaries_cons_cons, after_le_iff hc, Bool.and_eq_true,
      Bool.or_eq_true, Bool.not_eq_true', decide_eq_true_eq, decide_eq_false_iff_not, ih,
      Listed, List.mem_cons, exists_eq_or_imp, contains_iff, UInt32.not_lt]
    by_cases hlast : c ≤ r.last
    · -- The character is in the first range, or in none.
      have hnone := h.not_contains hlast
      simp only [Listed, contains_iff] at hnone
      grind
    · have hfirst : r.first ≤ c := by
        have hle := h.head_le
        simp only [UInt32.le_iff_toNat_le] at hle hlast ⊢
        omega
      grind

/-- The largest word is past every boundary, and there are two for each range. -/
theorem memBoundaries_max (rs : List CharRange) :
    memBoundaries (boundaries rs) 0xFFFFFFFF = false := by
  have hle (d : UInt32) : d ≤ 0xFFFFFFFF := by
    have hlt := d.toNat_lt
    rw [UInt32.le_iff_toNat_le, toNat_max]
    omega
  induction rs with
  | nil => rfl
  | cons r rs ih => simp [memBoundaries_cons_cons, hle, ih]

/-- A look-up finds the character: it is in some range, and it is not the largest word. -/
def Found (rs : List CharRange) (c : UInt32) : Prop := c ≠ 0xFFFFFFFF ∧ Listed rs c

instance (rs : List CharRange) (c : UInt32) : Decidable (Found rs c) :=
  inferInstanceAs (Decidable (_ ∧ _))

theorem memBoundaries_eq (h : Ascending rs) (c : UInt32) :
    memBoundaries (boundaries rs) c = decide (Found rs c) := by
  by_cases hc : c = 0xFFFFFFFF
  · rw [hc, memBoundaries_max]
    simp [Found]
  · rw [Bool.eq_iff_iff, memBoundaries_iff h hc]
    simp [Found, hc]

end CharRange

/-- Whether a look-up branches inside the ranges or outside of them. -/
def CharTest.ranges (inside : Bool) (rs : List CharRange) : CharTest :=
  if inside then .inRanges rs else .notInRanges rs

open CharRange in
/-- **A look-up in a range list branches by membership.** The look-up for being in a range is taken
by the characters that some range contains, the one for being in none by all the others, and the
largest word counts as one of these whatever the ranges are. -/
theorem Task.perform_ranges {k : Task} {t : Thread} {rs : List CharRange} (h : Ascending rs)
    (inside : Bool) (dest : Target) : k.perform (.onChar (.ranges inside rs) dest) t =
      if decide (Found rs t.char) = inside then k.branch dest t else .next t.advance := by
  have hholds : (CharTest.ranges inside rs).holds k.mode t.char =
      (decide (Found rs t.char) == inside) := by
    rw [← memBoundaries_eq h]
    cases inside <;> simp [CharTest.ranges, CharTest.holds]
  simp only [perform, branchIf, hholds, beq_iff_eq]

/-! ### Four bytes of ones -/

namespace Sample

/-- Loads four characters and looks them up in a range that ends with the largest word. -/
def gather : Program where
  opcodes := #[.load 0 none true 4, .onChar (.inRanges [⟨0xFFFFFFF0, 0xFFFFFFFF⟩]) (some ⟨0⟩),
    .fail, .bind ⟨0⟩, .writePosition 0 0, .writePosition 1 4, .succeed]
  labels := 1
  saved := 2

/-- A text whose bytes are all ones. -/
def ones : Subject := .latin1 #[0xFF, 0xFF, 0xFF, 0xFF]

theorem exists_compile_gather : ∃ m, gather.compile { mode := .latin1 } "" Sample.heap = .ok m := by
  obtain ⟨m, hm, -⟩ := Program.exists_compile (p := gather) (o := { mode := .latin1 })
    (n := 106) (by decide +kernel) (by decide) (by simp [gather, Opcode.InRange, InReach])
    (by decide) "" Sample.heap
  exact ⟨m, hm⟩

end Sample

/-- **The largest word is in no range.** It is looked up in a range that contains it and not found,
and there is no match. -/
theorem Engine.exec_of_largest_word :
    ∃ (e : Engine) (m : Matcher), e.Reachable {} ∧ e.check ⟨0⟩ Sample.ones 0 2 = .ok m ∧
      (∃ a ∈ e.tries ⟨0⟩ m Sample.ones 0 #[7, 7], ∃ past t, a.Trail past t ∧
        a.task.opcode? t =
          some (.onChar (.inRanges [⟨0xFFFFFFF0, 0xFFFFFFFF⟩]) (some ⟨0⟩)) ∧
        CharRange.Ascending [⟨0xFFFFFFF0, 0xFFFFFFFF⟩] ∧
        CharRange.Listed [⟨0xFFFFFFF0, 0xFFFFFFFF⟩] t.char ∧
        a.task.step t = .next t.advance) ∧
      ∃ r, e.exec ⟨0⟩ Sample.ones 0 #[7, 7] = some r ∧ r.answer = .ok 0 := by
  obtain ⟨m, hm⟩ := Sample.exists_compile_gather
  obtain ⟨e, a, h⟩ := Sample.exists_firstTry hm Sample.ones 0 #[7, 7] rfl (Nat.zero_le _)
    (by decide) (Nat.le_refl 2) (by decide)
  let t := a.task.afresh 0 a.entry
  let u : Thread := { t with char := 0xFFFFFFFF, pc := t.pc + 1 }
  have hbytes : a.task.subject.byteSize < 2 ^ 62 := by
    rw [h.text]
    change 4 < 2 ^ 62
    decide
  have hsize : a.task.subject.size = 4 := congrArg Subject.size h.text
  have hcovered : a.task.Covered 0 0 4 := by
    rw [Task.Covered, hsize]
    decide
  have hload : a.task.step t = .next u := by
    have hfails : a.task.placeHolds t (.outside (Task.lastOffset 0 4)) = false :=
      Bool.eq_false_iff.mpr fun hcon => ((Task.placeHolds_last_iff h.subject_mode hbytes
        (Nat.zero_le _) rfl (Nat.succ_pos 3) (by decide) rfl).mp hcon).1 hcovered
    have hchars : a.task.chars? (t.pos + a.task.bytes 0) 4 = some 0xFFFFFFFF := by
      rw [Task.chars?_pos_add h.subject_mode hbytes (Nat.zero_le _) rfl, h.text, h.mode_eq]
      rfl
    have hperform : a.task.step t = a.task.perform (.load 0 none true 4) t := by
      simp only [Task.step, h.program_eq]
      rfl
    rw [hperform, Task.perform, hfails]
    simp only [Bool.and_false, Bool.false_eq_true, if_false, Task.load, hchars, u]
  have hlook : a.task.step u = .next u.advance := by
    have hperform : a.task.step u =
        a.task.perform (.onChar (.inRanges [⟨0xFFFFFFF0, 0xFFFFFFFF⟩]) (some ⟨0⟩)) u := by
      simp only [Task.step, h.program_eq]
      rfl
    rw [hperform, Task.perform, Task.branchIf, CharTest.holds, CharRange.memBoundaries_max]
    rfl
  have hlisted : CharRange.Listed [⟨0xFFFFFFF0, 0xFFFFFFFF⟩] 0xFFFFFFFF := by decide
  have hfail : a.task.step u.advance = .done (.ofCount 0) u.advance := by
    have hglobal : a.task.matcher.options.globalMode = .notGlobal := by rw [h.matcher, h.options]
    have hperform : a.task.step u.advance = a.task.perform .fail u.advance := by
      simp only [Task.step, h.program_eq]
      rfl
    rw [hperform, Task.perform, Task.exit, hglobal]
    rfl
  refine ⟨e, m, h.reachable, h.check, ⟨a, h.mem, [t], u, ⟨t, h.begins, .step .start hload⟩, ?_,
    by decide, hlisted, hlook⟩, ?_⟩
  · rw [Task.opcode?, h.program_eq]
    rfl
  · obtain ⟨r, hr, hanswer, -⟩ := h.exec_of_run (n := 0) (u := u.advance) (by decide) (by
      rw [Task.run_eq, hload, Outcome.ending, Task.run_eq, hlook, Outcome.ending, Task.run_eq,
        hfail]
      rfl)
    exact ⟨r, hr, hanswer⟩

end NativeMatcher
