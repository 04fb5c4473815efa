import NativeMatcher.Proofs.Reference

/-!
# References to captures

A reference to a capture looks for the text of the capture at the position, or backward for one that
ends there. If there is room for a text of that length and it is the same, the thread moves over it;
otherwise it branches, with its position and its registers as they were
(`NativeMatcher.Task.repeated`). A capture that is not set is as good as an empty one, which is
repeated everywhere.

What is compared are places, from one character to the next; here this is put in terms of the texts
at these places (`NativeMatcher.Task.sameChars_position`), also where a capture and its repetition
overlap. The results are `NativeMatcher.Task.perform_reference` and
`NativeMatcher.Task.perform_referenceIgnoreCase`.
-/

namespace NativeMatcher

namespace Subject

/-- A comparison of the `n` characters from index `i` on with those from index `j` on, in the
subject's own encoding. -/
def compareAt (s : Subject) (f : List UInt8 → List UInt8 → Bool)
    (g : List UInt16 → List UInt16 → Bool) (i j n : Nat) : Bool :=
  match s with
  | latin1 bytes => f ((bytes.toList.drop i).take n) ((bytes.toList.drop j).take n)
  | uc16 units => g ((units.toList.drop i).take n) ((units.toList.drop j).take n)

/-- Whether the `n` characters from index `i` on are the same as those from index `j` on. -/
def sameAt (s : Subject) (i j n : Nat) : Bool := s.compareAt (· == ·) (· == ·) i j n

/-- Whether they are equal ignoring case. -/
def equalIgnoreCaseAt (s : Subject) (unicode : Bool) (i j n : Nat) : Bool :=
  s.compareAt (Text.equalIgnoreCaseLatin1 .standard unicode)
    (Text.equalIgnoreCaseUc16 .standard unicode) i j n

/-- Empty texts are equal. -/
theorem equalIgnoreCaseAt_zero (s : Subject) (unicode : Bool) (i j : Nat) :
    s.equalIgnoreCaseAt unicode i j 0 = true := by
  cases s <;> cases unicode <;> simp [equalIgnoreCaseAt, compareAt] <;> rfl

/-- The character at an index as a word. -/
def char? (s : Subject) (i : Nat) : Option UInt32 :=
  match s with
  | latin1 bytes => bytes[i]?.map UInt8.toUInt32
  | uc16 units => units[i]?.map UInt16.toUInt32

/-- The characters from an index on. -/
def charsFrom (s : Subject) (i n : Nat) : List UInt32 :=
  match s with
  | latin1 bytes => ((bytes.toList.drop i).take n).map UInt8.toUInt32
  | uc16 units => ((units.toList.drop i).take n).map UInt16.toUInt32

theorem charsFrom_zero (s : Subject) (i : Nat) : s.charsFrom i 0 = [] := by
  cases s <;> simp [charsFrom]

/-- The text of `n + 1` characters is the first one and the text of `n` characters behind it. -/
theorem charsFrom_succ {s : Subject} {i : Nat} {c : UInt32} (hc : s.char? i = some c) (n : Nat) :
    s.charsFrom i (n + 1) = c :: s.charsFrom (i + 1) n := by
  cases s with
  | latin1 bytes =>
    obtain ⟨b, hb, rfl⟩ := Option.map_eq_some_iff.mp hc
    obtain ⟨hi, rfl⟩ := Array.getElem?_eq_some_iff.mp hb
    simp [charsFrom, List.drop_eq_getElem_cons (show i < bytes.toList.length from hi)]
  | uc16 units =>
    obtain ⟨b, hb, rfl⟩ := Option.map_eq_some_iff.mp hc
    obtain ⟨hi, rfl⟩ := Array.getElem?_eq_some_iff.mp hb
    simp [charsFrom, List.drop_eq_getElem_cons (show i < units.toList.length from hi)]

theorem exists_char? {s : Subject} {i : Nat} (h : i < s.size) : ∃ c, s.char? i = some c := by
  cases s with
  | latin1 bytes => exact ⟨_, by simp only [char?, Array.getElem?_eq_getElem h]; rfl⟩
  | uc16 units => exact ⟨_, by simp only [char?, Array.getElem?_eq_getElem h]; rfl⟩

/-- Texts are the same if they are the same as words. -/
theorem sameAt_iff (s : Subject) (i j n : Nat) :
    s.sameAt i j n = true ↔ s.charsFrom i n = s.charsFrom j n := by
  cases s with
  | latin1 bytes =>
    simp only [sameAt, compareAt, charsFrom, beq_iff_eq]
    exact (List.map_inj_right fun _ _ => UInt8.toUInt32_inj.mp).symm
  | uc16 units =>
    simp only [sameAt, compareAt, charsFrom, beq_iff_eq]
    exact (List.map_inj_right fun _ _ => UInt16.toUInt32_inj.mp).symm

/-- Empty texts are the same. -/
theorem sameAt_zero (s : Subject) (i j : Nat) : s.sameAt i j 0 = true := by
  rw [sameAt_iff, charsFrom_zero, charsFrom_zero]

end Subject

namespace Task

variable {k : Task} {t : Thread}

section Within

variable (hmode : k.subject.mode = k.mode) (hbytes : k.subject.byteSize ≤ Memory.maxBlock)

include hmode hbytes

/-- A character that is read from the machine's position of an index is the character of the subject
at that index. -/
theorem chars?_position_eq {i : Nat} (hi : i < k.subject.size) :
    k.chars? (k.position i) 1 = k.subject.char? i := by
  rw [chars?_position hmode hbytes hi, ← hmode]
  cases hs : k.subject with
  | latin1 bytes =>
    have hi : i < bytes.size := by
      rw [hs] at hi
      exact hi
    have hword := Subject.wordAt?_latin1 hi
    simp only [Subject.mode, Mode.charSize, Nat.mul_one, Subject.char?,
      Array.getElem?_eq_getElem hi, hword]
    rfl
  | uc16 units =>
    have hi : i < units.size := by
      rw [hs] at hi
      exact hi
    have hword := Subject.wordAt?_uc16 hi
    simp only [Subject.mode, Mode.charSize, Nat.mul_comm i 2, Subject.char?,
      Array.getElem?_eq_getElem hi, hword]
    rfl

/-- A comparison of characters that all lie in the subject compares its texts. -/
theorem sameChars_position {i j n : Nat} (hi : i + n ≤ k.subject.size)
    (hj : j + n ≤ k.subject.size) :
    k.sameChars n (k.position i) (k.position j) = some (k.subject.sameAt i j n) := by
  have hsame : k.subject.sameAt i j n =
      decide (k.subject.charsFrom i n = k.subject.charsFrom j n) := by
    rw [Bool.eq_iff_iff, Subject.sameAt_iff, decide_eq_true_eq]
  rw [hsame]
  clear hsame
  induction n generalizing i j with
  | zero => simp [sameChars, Subject.charsFrom_zero]
  | succ n ih =>
    obtain ⟨x, hx⟩ := Subject.exists_char? (s := k.subject) (i := i) (by omega)
    obtain ⟨y, hy⟩ := Subject.exists_char? (s := k.subject) (i := j) (by omega)
    have hread := (chars?_position_eq hmode hbytes (i := i) (by omega)).trans hx
    have hread' := (chars?_position_eq hmode hbytes (i := j) (by omega)).trans hy
    have hrest := ih (i := i + 1) (j := j + 1) (by omega) (by omega)
    rw [position_succ, position_succ] at hrest
    simp only [sameChars, hread, hread', Option.bind_eq_bind, Option.bind_some, hrest,
      Subject.charsFrom_succ hx, Subject.charsFrom_succ hy, List.cons.injEq]
    by_cases hxy : x = y
    · simp [hxy]
    · simp [hxy]

/-- The characters from an index on are those of the text. -/
theorem charList_position {i n : Nat} (hi : i + n ≤ k.subject.size) :
    k.charList n (k.position i) = some (k.subject.charsFrom i n) := by
  induction n generalizing i with
  | zero => simp [charList, Subject.charsFrom_zero]
  | succ n ih =>
    obtain ⟨x, hx⟩ := Subject.exists_char? (s := k.subject) (i := i) (by omega)
    have hread := (chars?_position_eq hmode hbytes (i := i) (by omega)).trans hx
    have hrest := ih (i := i + 1) (by omega)
    rw [position_succ] at hrest
    simp only [charList, hread, Option.bind_eq_bind, Option.bind_some, hrest,
      Subject.charsFrom_succ hx]
    rfl

/-- What the host compares ignoring case. -/
theorem sameCharsIgnoreCase_position {i j n : Nat} (unicode : Bool) (hi : i + n ≤ k.subject.size)
    (hj : j + n ≤ k.subject.size) :
    k.sameCharsIgnoreCase unicode n (k.position i) (k.position j) =
      some (k.subject.equalIgnoreCaseAt unicode i j n) := by
  rw [sameCharsIgnoreCase, charList_position hmode hbytes hi, charList_position hmode hbytes hj]
  simp only [Option.bind_eq_bind, Option.bind_some, ← hmode]
  cases k.subject with
  | latin1 bytes =>
    simp [Subject.mode, Subject.charsFrom, Subject.equalIgnoreCaseAt, Subject.compareAt,
      Function.comp_def]
  | uc16 units =>
    simp [Subject.mode, Subject.charsFrom, Subject.equalIgnoreCaseAt, Subject.compareAt,
      Function.comp_def]

end Within

/-! ### References to captures -/

/-- The registers from `reg` on hold a capture of the characters from index `s` to index `e`, or
they are both unset, which is as good as an empty one. -/
inductive HoldsCapture (k : Task) (t : Thread) (reg s e : Nat) : Prop
  /-- The capture is set. -/
  | set (hstart : t.reg reg = k.position s) (hstop : t.reg (reg + 1) = k.position e)
  /-- It is not. -/
  | unset (hstart : t.reg reg = k.before) (hstop : t.reg (reg + 1) = k.before) (hempty : s = e)

/-- Where a text of `n` characters begins that is looked for at index `p`. -/
def opening (backward : Bool) (p n : Nat) : Nat := if backward then p - n else p

/-- Where a thread goes on that has found it. -/
def landing (backward : Bool) (p n : Nat) : Nat := if backward then p - n else p + n

section Law

variable {reg s e p : Nat}

/-- Registers that hold two indices in order, both inside the subject, hold a capture in the sense
of the general law, where places may also be unset. -/
theorem captured_of_set (hse : s ≤ e) (he : e ≤ k.subject.size) (hp : p ≤ k.subject.size)
    (hpos : t.pos = k.position p) (hstart : t.reg reg = k.position s)
    (hstop : t.reg (reg + 1) = k.position e) : k.Captured t reg s e p := by
  refine ⟨?_, ?_, ?_, ?_, ?_, ?_, ?_, ?_, ?_⟩
  · rw [hstart, placeAt_natCast]
  · rw [hstop, placeAt_natCast]
  · rw [hpos, placeAt_natCast]
  all_goals omega

/-- There is room for the text of a capture, and the text there is as `same` asks. -/
def Repeats (k : Task) (same : Nat → Nat → Nat → Bool) (backward : Bool) (s e p : Nat) : Prop :=
  k.Roomy backward s e p ∧ same s (opening backward p (e - s)) (e - s) = true

instance (same : Nat → Nat → Nat → Bool) (backward : Bool) (s e p : Nat) :
    Decidable (k.Repeats same backward s e p) :=
  inferInstanceAs (Decidable (_ ∧ _))

/-- A thread that goes on behind that text. -/
def behind (k : Task) (backward : Bool) (s e p : Nat) (t : Thread) : Thread :=
  { t with pos := k.position (landing backward p (e - s)), pc := t.pc + 1 }

/-- An empty text is found everywhere. -/
theorem repeats_empty (hp : p ≤ k.subject.size) {same : Nat → Nat → Nat → Bool}
    (hsame : ∀ i j, same i j 0 = true) (backward : Bool) : k.Repeats same backward s s p := by
  refine ⟨?_, by rw [Nat.sub_self, hsame]⟩
  unfold Roomy
  split <;> omega

/-- It does not move the position. -/
theorem landing_self (backward : Bool) (p s : Nat) : landing backward p (s - s) = p := by
  unfold landing
  split <;> omega

/-- What a reference to a capture does: it finds the text of the capture and goes on behind it, or
it branches. -/
def repeated (k : Task) (same : Nat → Nat → Nat → Bool) (backward : Bool) (s e p : Nat)
    (dest : Target) (t : Thread) : Outcome :=
  if k.Repeats same backward s e p then .next (k.behind backward s e p t) else k.branch dest t

theorem repeated_empty (hp : p ≤ k.subject.size) (hpos : t.pos = k.position p)
    (same : Nat → Nat → Nat → Bool) (hsame : ∀ i j, same i j 0 = true) (backward : Bool)
    (dest : Target) : k.repeated same backward s s p dest t = .next t.advance := by
  rw [repeated, if_pos (repeats_empty hp hsame backward), behind, landing_self, ← hpos]
  rfl

/-- A comparison decides what is found, if there is room. -/
theorem compared_eq_repeated (same : Nat → Nat → Nat → Bool) (backward : Bool) (dest : Target) :
    (if k.Roomy backward s e p then
      k.compared (some (same s (opening backward p (e - s)) (e - s))) dest
        (k.position (landing backward p (e - s))) t
      else k.branch dest t) = k.repeated same backward s e p dest t := by
  by_cases hroom : k.Roomy backward s e p
  · cases hsame : same s (opening backward p (e - s)) (e - s) with
    | true => rw [repeated, if_pos hroom, if_pos ⟨hroom, hsame⟩, compared, behind]
    | false =>
      have hnot : ¬k.Repeats same backward s e p := fun hcon => by
        rw [Repeats, hsame] at hcon
        exact Bool.false_ne_true hcon.2
      rw [repeated, if_pos hroom, if_neg hnot, compared]
  · rw [repeated, if_neg hroom, if_neg fun hcon => hroom hcon.1]

/-- Where there is room, the place at which the comparison begins is an index of the subject. -/
theorem placeAt_opening {backward : Bool} (hse : s ≤ e) (hroom : k.Roomy backward s e p) :
    k.placeAt (if backward then (p : Int) - ((e : Int) - s) else p) =
      k.position (opening backward p (e - s)) := by
  rw [← placeAt_natCast, opening]
  congr 1
  cases backward with
  | true =>
    simp only [Roomy, if_true] at hroom ⊢
    omega
  | false => rfl

/-- Where there is room, the place at which the thread goes on is one, too. -/
theorem placeAt_landing {backward : Bool} (hse : s ≤ e) (hroom : k.Roomy backward s e p) :
    k.placeAt (if backward then (p : Int) - ((e : Int) - s) else p + ((e : Int) - s)) =
      k.position (landing backward p (e - s)) := by
  rw [← placeAt_natCast, landing]
  congr 1
  cases backward with
  | true =>
    simp only [Roomy, if_true] at hroom ⊢
    omega
  | false =>
    simp only [Bool.false_eq_true, if_false]
    omega

/-- The text that a capture is compared with ends inside the subject, in either direction. -/
theorem opening_add_le {backward : Bool} (hse : s ≤ e) (hp : p ≤ k.subject.size)
    (hroom : k.Roomy backward s e p) : opening backward p (e - s) + (e - s) ≤ k.subject.size := by
  cases backward with
  | true =>
    simp only [opening, Roomy, if_true] at hroom ⊢
    omega
  | false =>
    simp only [opening, Roomy, Bool.false_eq_true, if_false] at hroom ⊢
    omega

section Set

variable (hmode : k.subject.mode = k.mode) (hsize : k.subject.byteSize < 2 ^ 62)
  (hse : s ≤ e) (he : e ≤ k.subject.size) (hp : p ≤ k.subject.size) (hpos : t.pos = k.position p)
  (hcap : k.HoldsCapture t reg s e)

include hmode hsize hse he hp hpos hcap

/-- **What a reference to a capture does.** It is put in terms of the texts at two indices, where
`NativeMatcher.Task.backReference_eq` compares places. -/
theorem perform_reference (backward : Bool) (dest : Target) :
    k.perform (.checkNotBackReference reg backward dest) t =
      k.repeated k.subject.sameAt backward s e p dest t := by
  have hbytes : k.subject.byteSize ≤ Memory.maxBlock := by
    have hmax : Memory.maxBlock = 9223372036854775807 := rfl
    omega
  have hempty := k.subject.sameAt_zero
  rcases hcap with ⟨hstart, hstop⟩ | ⟨hstart, hstop, rfl⟩
  · have hcap := captured_of_set hse he hp hpos hstart hstop
    rw [perform, hcap.backReference_eq hmode hsize]
    split
    · next heq =>
      obtain rfl : e = s := by omega
      rw [repeated_empty hp hpos _ hempty]
    · next hne =>
      have hcount : max 1 ((e : Int) - s).toNat = e - s := by omega
      rw [← compared_eq_repeated, hcount]
      split
      · next hroom =>
        have hland := placeAt_landing hse hroom
        rw [show ((e - s : Nat) : Int) = (e : Int) - s by omega, hland, placeAt_opening hse hroom,
          placeAt_natCast, sameChars_position hmode hbytes (by omega) (opening_add_le hse hp hroom)]
      · rfl
  · rw [(perform_of_unset false hstart hstop).1, repeated_empty hp hpos _ hempty]

/-- **What one does that ignores case.** The texts are the same, and what counts as equal is what
the host says. -/
theorem perform_referenceIgnoreCase (backward unicode : Bool) (dest : Target) :
    k.perform (.checkNotBackReferenceIgnoreCase reg backward unicode dest) t =
      k.repeated (k.subject.equalIgnoreCaseAt unicode) backward s e p dest t := by
  have hbytes : k.subject.byteSize ≤ Memory.maxBlock := by
    have hmax : Memory.maxBlock = 9223372036854775807 := rfl
    omega
  have hempty := k.subject.equalIgnoreCaseAt_zero unicode
  rcases hcap with ⟨hstart, hstop⟩ | ⟨hstart, hstop, rfl⟩
  · have hcap := captured_of_set hse he hp hpos hstart hstop
    rw [perform, hcap.backReferenceIgnoreCase_eq hmode hsize]
    split
    · next heq =>
      obtain rfl : e = s := by omega
      rw [repeated_empty hp hpos _ hempty]
    · next hne =>
      have hcount : ((e : Int) - s).toNat = e - s := by omega
      rw [← compared_eq_repeated, hcount, if_neg (show ¬(e : Int) < s by omega)]
      split
      · next hroom =>
        rw [placeAt_landing hse hroom, placeAt_opening hse hroom, placeAt_natCast,
          sameCharsIgnoreCase_position hmode hbytes unicode (by omega)
            (opening_add_le hse hp hroom)]
      · rfl
  · rw [(perform_of_unset unicode hstart hstop).2, repeated_empty hp hpos _ hempty]

end Set

end Law

end Task

end NativeMatcher
