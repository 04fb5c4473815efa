import NativeMatcher.Text.CaseFold

/-!
# Ignoring case in both encodings

Text of bytes is compared byte by byte, and 16-bit text by units or, in unicode mode, by code points
(`NativeMatcher.Text.codePoints`). Only a surrogate pair makes one character of two units, and a
byte that is widened to a unit is no half of one. So bytes and the same bytes widened have the same
characters (`NativeMatcher.Text.codePoints_toUInt16`), in either mode, and a comparison does not
depend on the encoding (`NativeMatcher.Text.equalIgnoreCaseLatin1_eq_uc16`). Nothing is asked of the
case mapping, which only ever sees the characters.
-/

namespace NativeMatcher.Text

/-! ### Characters of widened bytes -/

theorem toUInt32_toUInt16 (b : UInt8) : b.toUInt16.toUInt32 = b.toUInt32 := by
  rw [← UInt32.toNat_inj]
  simp

/-- Surrogates are above the bytes. -/
theorem isLead_toUInt16 (b : UInt8) : isLead b.toUInt16 = false := by
  have hb : b.toUInt16.toNat < 256 := by
    rw [UInt8.toNat_toUInt16]
    exact b.toNat_lt
  have hlow : ¬(0xD800 : UInt16) ≤ b.toUInt16 := by
    rw [UInt16.le_iff_toNat_le]
    simp only [UInt16.reduceToNat]
    omega
  simp [isLead, hlow]

/-- A unit that leads no pair is a character of its own, whatever comes after it. -/
theorem codePoints_cons {u : UInt16} (hu : isLead u = false) (rest : List UInt16) :
    codePoints (u :: rest) = u.toUInt32 :: codePoints rest := by
  cases rest with
  | nil => rfl
  | cons t rest => simp [codePoints, hu]

/-- Widened bytes hold no pair. -/
theorem codePoints_toUInt16 (a : List UInt8) :
    codePoints (a.map UInt8.toUInt16) = a.map UInt8.toUInt32 := by
  induction a with
  | nil => rfl
  | cons b a ih =>
    rw [List.map_cons, codePoints_cons (isLead_toUInt16 b), ih, toUInt32_toUInt16, List.map_cons]

/-- The units of widened bytes are the bytes as words. -/
theorem map_toUInt32_toUInt16 (a : List UInt8) :
    (a.map UInt8.toUInt16).map UInt16.toUInt32 = a.map UInt8.toUInt32 := by
  rw [List.map_map]
  exact List.map_congr_left fun b _ => toUInt32_toUInt16 b

/-! ### Comparison -/

/-- **A comparison ignoring case does not depend on the encoding**: two texts of bytes are equal
ignoring case exactly when they are as 16-bit texts, in unicode mode and out of it, whatever the
case mapping. -/
theorem equalIgnoreCaseLatin1_eq_uc16 (m : CaseMap) (unicode : Bool) (a b : List UInt8) :
    equalIgnoreCaseLatin1 m unicode a b =
      equalIgnoreCaseUc16 m unicode (a.map UInt8.toUInt16) (b.map UInt8.toUInt16) := by
  rw [equalIgnoreCaseLatin1, equalIgnoreCaseUc16, List.length_map, List.length_map]
  cases unicode with
  | true =>
    -- Units are taken in pairs here, if there are any.
    rw [if_pos rfl, codePoints_toUInt16, codePoints_toUInt16]
  | false => rw [if_neg Bool.false_ne_true, map_toUInt32_toUInt16, map_toUInt32_toUInt16]

end NativeMatcher.Text
