import Mathlib.Data.List.Chain
import Mathlib.Data.List.Forall2
import NativeMatcher.Proofs.CaseFolding

/-!
# Code points and units

Reading 16-bit text by code points loses nothing, and pairs nothing that is no pair. Three laws say
so, with the units of a code point (`NativeMatcher.Text.utf16`) as the other side. The units of the
code points of a text, put together, are the text (`NativeMatcher.Text.flatMap_utf16_codePoints`),
whatever halves of pairs stand alone in it. Two code points next to each other are never the two
halves of a pair (`NativeMatcher.Text.isChain_codePoints`). And a text that was written from
characters is read as these (`NativeMatcher.Text.codePoints_flatMap_utf16`).

The three are one argument. What comes next is settled by the first two units: they are a pair, or
the first one is a code point of its own.
-/

namespace NativeMatcher.Text

/-- The first half of the pair of a code point. -/
def leadOf (c : UInt32) : UInt16 := 0xD800 + ((c - 0x10000) / 0x400).toUInt16

/-- The second half of the pair of a code point. -/
def trailOf (c : UInt32) : UInt16 := 0xDC00 + ((c - 0x10000) % 0x400).toUInt16

/-- The units of a code point: the two halves of a pair above the first 65536, and the unit of the
same value up to there. -/
def utf16 (c : UInt32) : List UInt16 :=
  if c < 0x10000 then [c.toUInt16] else [leadOf c, trailOf c]

/-- Two code points that are the halves of a pair, in order. -/
def Halves (c d : UInt32) : Prop := (0xD800 ≤ c ∧ c < 0xDC00) ∧ 0xDC00 ≤ d ∧ d < 0xE000

/-! ### Halves and pairs -/

section Pair

variable {u t : UInt16} {c d : UInt32}

theorem isLead_iff : isLead u = true ↔ 0xD800 ≤ u.toNat ∧ u.toNat < 0xDC00 := by
  simp only [isLead, Bool.and_eq_true, decide_eq_true_eq, UInt16.le_iff_toNat_le,
    UInt16.lt_iff_toNat_lt, UInt16.reduceToNat]

theorem isTrail_iff : isTrail u = true ↔ 0xDC00 ≤ u.toNat ∧ u.toNat < 0xE000 := by
  simp only [isTrail, Bool.and_eq_true, decide_eq_true_eq, UInt16.le_iff_toNat_le,
    UInt16.lt_iff_toNat_lt, UInt16.reduceToNat]

theorem halves_iff : Halves c d ↔
    (0xD800 ≤ c.toNat ∧ c.toNat < 0xDC00) ∧ 0xDC00 ≤ d.toNat ∧ d.toNat < 0xE000 := by
  simp only [Halves, UInt32.le_iff_toNat_le, UInt32.lt_iff_toNat_lt, UInt32.reduceToNat]

/-- The halves of a pair are the digits of its code point. -/
theorem toNat_pairValue (hu : isLead u = true) (ht : isTrail t = true) :
    (pairValue u t).toNat = 0x10000 + (u.toNat - 0xD800) * 0x400 + (t.toNat - 0xDC00) := by
  obtain ⟨hu, hu'⟩ := isLead_iff.mp hu
  obtain ⟨ht, ht'⟩ := isTrail_iff.mp ht
  simp only [pairValue, UInt32.toNat_add, UInt32.toNat_mul, UInt32.toNat_sub,
    UInt16.toNat_toUInt32, UInt32.reduceToNat]
  omega

theorem lt_plane_iff : c < 0x10000 ↔ c.toNat < 0x10000 := UInt32.lt_iff_toNat_lt

theorem utf16_toUInt32 (u : UInt16) : utf16 u.toUInt32 = [u] := by
  have hlt : u.toUInt32 < 0x10000 := by
    rw [lt_plane_iff, UInt16.toNat_toUInt32]
    exact u.toNat_lt
  rw [utf16, if_pos hlt, UInt16.toUInt16_toUInt32]

section Above

variable (hlow : 0x10000 ≤ c.toNat) (hhigh : c.toNat < 0x110000)

include hlow hhigh

theorem toNat_leadOf : (leadOf c).toNat = 0xD800 + (c.toNat - 0x10000) / 0x400 := by
  simp only [leadOf, UInt16.toNat_add, UInt32.toNat_toUInt16, UInt32.toNat_div, UInt32.toNat_sub,
    UInt32.reduceToNat, UInt16.reduceToNat]
  omega

theorem toNat_trailOf : (trailOf c).toNat = 0xDC00 + (c.toNat - 0x10000) % 0x400 := by
  simp only [trailOf, UInt16.toNat_add, UInt32.toNat_toUInt16, UInt32.toNat_mod, UInt32.toNat_sub,
    UInt32.reduceToNat, UInt16.reduceToNat]
  omega

theorem isLead_leadOf : isLead (leadOf c) = true := by
  rw [isLead_iff, toNat_leadOf hlow hhigh]
  omega

theorem isTrail_trailOf : isTrail (trailOf c) = true := by
  rw [isTrail_iff, toNat_trailOf hlow hhigh]
  omega

/-- The halves of a code point are a pair that stands for it. -/
theorem pairValue_leadOf_trailOf : pairValue (leadOf c) (trailOf c) = c := by
  rw [← UInt32.toNat_inj, toNat_pairValue (isLead_leadOf hlow hhigh) (isTrail_trailOf hlow hhigh),
    toNat_leadOf hlow hhigh, toNat_trailOf hlow hhigh]
  omega

end Above

/-- The units of the code point of a pair are the pair. -/
theorem utf16_pairValue (hu : isLead u = true) (ht : isTrail t = true) :
    utf16 (pairValue u t) = [u, t] := by
  have hvalue := toNat_pairValue hu ht
  obtain ⟨hu, hu'⟩ := isLead_iff.mp hu
  obtain ⟨ht, ht'⟩ := isTrail_iff.mp ht
  have hlow : 0x10000 ≤ (pairValue u t).toNat := by omega
  have hhigh : (pairValue u t).toNat < 0x110000 := by omega
  have hlead : leadOf (pairValue u t) = u := by
    rw [← UInt16.toNat_inj, toNat_leadOf hlow hhigh, hvalue]
    omega
  have htrail : trailOf (pairValue u t) = t := by
    rw [← UInt16.toNat_inj, toNat_trailOf hlow hhigh, hvalue]
    omega
  rw [utf16, if_neg (mt lt_plane_iff.mp (Nat.not_lt.mpr hlow)), hlead, htrail]

end Pair

/-! ### Reading loses nothing -/

/-- **The units of what was read are the text.** A lone half of a pair is read as itself, so nothing
is lost on ill-formed text either. -/
theorem flatMap_utf16_codePoints (us : List UInt16) : (codePoints us).flatMap utf16 = us := by
  fun_induction codePoints us with
  | case1 => rfl
  | case2 u => rw [List.flatMap_cons, List.flatMap_nil, utf16_toUInt32, List.append_nil]
  | case3 u t rest hpair ih =>
    obtain ⟨hu, ht⟩ := Bool.and_eq_true_iff.mp hpair
    rw [List.flatMap_cons, ih, utf16_pairValue hu ht]
    rfl
  | case4 u t rest hpair ih =>
    rw [List.flatMap_cons, ih, utf16_toUInt32]
    rfl

/-- What is read first is the first unit, unless it is a pair. -/
theorem head_codePoints {t : UInt16} {rest : List UInt16} {d : UInt32}
    (h : d ∈ (codePoints (t :: rest)).head?) : d = t.toUInt32 ∨ 0x10000 ≤ d.toNat := by
  cases rest with
  | nil =>
    obtain rfl := Option.some.inj h
    exact Or.inl rfl
  | cons t' rest =>
    rw [codePoints] at h
    split at h
    · next hpair =>
      obtain ⟨hu, ht⟩ := Bool.and_eq_true_iff.mp hpair
      obtain rfl := Option.some.inj h
      rw [toNat_pairValue hu ht]
      omega
    · obtain rfl := Option.some.inj h
      exact Or.inl rfl

/-- **No pair is read as its two halves.** Wherever a leading half is followed by a trailing one,
the two were read as one code point. -/
theorem isChain_codePoints (us : List UInt16) :
    (codePoints us).IsChain fun c d => ¬Halves c d := by
  fun_induction codePoints us with
  | case1 => exact .nil
  | case2 u => exact .singleton _
  | case3 u t rest hpair ih =>
    obtain ⟨hu, ht⟩ := Bool.and_eq_true_iff.mp hpair
    refine List.isChain_cons.mpr ⟨fun d _ hhalves => ?_, ih⟩
    have hvalue := toNat_pairValue hu ht
    have hlead := (halves_iff.mp hhalves).1
    omega
  | case4 u t rest hpair ih =>
    refine List.isChain_cons.mpr ⟨fun d hd hhalves => hpair ?_, ih⟩
    obtain ⟨hlead, htrail⟩ := halves_iff.mp hhalves
    rw [UInt16.toNat_toUInt32] at hlead
    rw [isLead_iff.mpr hlead, Bool.true_and]
    -- A trail is below the pairs, so what was read after the lead is the unit after it.
    obtain rfl | hge := head_codePoints hd
    · rw [UInt16.toNat_toUInt32] at htrail
      exact isTrail_iff.mpr htrail
    · omega

/-! ### What was written is read -/

/-- The units of a character are read as the character, whatever comes after them. -/
theorem codePoints_utf16_append (c : Char) (rest : List UInt16) :
    codePoints (utf16 c.val ++ rest) = c.val :: codePoints rest := by
  have hvalid : c.val.toNat < 0xD800 ∨ 0xDFFF < c.val.toNat ∧ c.val.toNat < 0x110000 := c.valid
  rw [utf16]
  split
  · next hlt =>
    have hlt := lt_plane_iff.mp hlt
    have hunit : c.val.toUInt16.toNat = c.val.toNat := by
      rw [UInt32.toNat_toUInt16]
      omega
    have hlead : isLead c.val.toUInt16 = false := by
      rw [Bool.eq_false_iff, ne_eq, isLead_iff]
      omega
    have hsame : c.val.toUInt16.toUInt32 = c.val := by
      rw [← UInt32.toNat_inj, UInt16.toNat_toUInt32, hunit]
    rw [List.singleton_append, codePoints_cons hlead, hsame]
  · next hge =>
    have hlow : 0x10000 ≤ c.val.toNat := Nat.not_lt.mp (mt lt_plane_iff.mpr hge)
    have hhigh : c.val.toNat < 0x110000 := by omega
    have hpair : (isLead (leadOf c.val) && isTrail (trailOf c.val)) = true := by
      rw [isLead_leadOf hlow hhigh, isTrail_trailOf hlow hhigh, Bool.true_and]
    rw [List.cons_append, List.singleton_append, codePoints, if_pos hpair,
      pairValue_leadOf_trailOf hlow hhigh]

/-- **What was written from characters is read as these.** -/
theorem codePoints_flatMap_utf16 (cs : List Char) :
    codePoints (cs.flatMap fun c => utf16 c.val) = cs.map Char.val := by
  induction cs with
  | nil => rfl
  | cons c cs ih => rw [List.flatMap_cons, codePoints_utf16_append, ih, List.map_cons]

/-! ### Comparison by code points -/

/-- Lists of characters are equal ignoring case when they are one by one. -/
theorem equalFolded_iff {m : CaseMap} {unicode : Bool} {a b : List UInt32} :
    equalFolded m unicode a b = true ↔
      List.Forall₂ (fun c d => canonicalize m unicode c = canonicalize m unicode d) a b := by
  rw [equalFolded, beq_iff_eq, ← List.forall₂_eq_eq_eq, List.forall₂_map_left_iff,
    List.forall₂_map_right_iff]

/-- **Reading by code points is lossless**: the units of the code points of a text are the text, no
two code points next to each other are the halves of a pair, and the units of any characters are
read as these characters. So two texts are equal ignoring case in unicode mode exactly when they
have the same length and their code points, one by one, the same canonical forms. -/
theorem codePoints_lossless :
    (∀ us : List UInt16, (codePoints us).flatMap utf16 = us ∧
      (codePoints us).IsChain fun c d => ¬Halves c d) ∧
    (∀ cs : List Char, codePoints (cs.flatMap fun c => utf16 c.val) = cs.map Char.val) ∧
    ∀ (m : CaseMap) (a b : List UInt16), equalIgnoreCaseUc16 m true a b = true ↔
      a.length = b.length ∧
        List.Forall₂ (fun c d => canonicalize m true c = canonicalize m true d)
          (codePoints a) (codePoints b) := by
  refine ⟨fun us => ⟨flatMap_utf16_codePoints us, isChain_codePoints us⟩,
    codePoints_flatMap_utf16, fun m a b => ?_⟩
  rw [equalIgnoreCaseUc16, if_pos rfl, Bool.and_eq_true, beq_iff_eq, equalFolded_iff]

/-- A lead that is followed by another one stands alone, and so does a trail before a lead. -/
example : codePoints [0xD801, 0xD801, 0xDC37, 0xDC37, 0xD801] = [0xD801, 0x10437, 0xDC37, 0xD801] :=
  by decide

end NativeMatcher.Text
