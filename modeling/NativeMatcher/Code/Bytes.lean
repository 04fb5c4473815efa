/-!
# Little-endian bytes

The bytes of a machine word, lowest first, and the number a list of bytes stands
for. Reading back what was written gives the number modulo the size of the word
(`NativeMatcher.Code.ofBytes_toBytes`).
-/

namespace NativeMatcher.Code

/-- The lowest `width` bytes of `n`, lowest first. -/
def toBytes : (width : Nat) → (n : Nat) → List UInt8
  | 0, _ => []
  | w + 1, n => UInt8.ofNat n :: toBytes w (n / 256)

/-- The number whose bytes, lowest first, are given. -/
def ofBytes : List UInt8 → Nat
  | [] => 0
  | b :: bs => b.toNat + 256 * ofBytes bs

@[simp] theorem length_toBytes (w n : Nat) : (toBytes w n).length = w := by
  induction w generalizing n with
  | zero => rfl
  | succ w ih => simp [toBytes, ih]

/-- How many numbers `width` bytes can hold. -/
def wordCount : (width : Nat) → Nat
  | 0 => 1
  | w + 1 => 256 * wordCount w

/-- Reading written bytes gives the number modulo the word. -/
theorem ofBytes_toBytes (w n : Nat) : ofBytes (toBytes w n) = n % wordCount w := by
  induction w generalizing n with
  | zero => exact (Nat.mod_one n).symm
  | succ w ih =>
    simp only [toBytes, ofBytes, ih, UInt8.toNat_ofNat', wordCount]
    exact Nat.mod_mul.symm

/-- A list of bytes stands for a number below its word. -/
theorem ofBytes_lt (bs : List UInt8) : ofBytes bs < wordCount bs.length := by
  induction bs with
  | nil => exact Nat.one_pos
  | cons b bs ih =>
    have hb : b.toNat < 256 := b.toNat_lt
    simp only [ofBytes, List.length_cons, wordCount]
    omega

/-- The four bytes of a 32-bit word. -/
def bytes32 (v : UInt32) : List UInt8 := toBytes 4 v.toNat

/-- The eight bytes of a 64-bit word. -/
def bytes64 (v : UInt64) : List UInt8 := toBytes 8 v.toNat

@[simp] theorem length_bytes32 (v : UInt32) : (bytes32 v).length = 4 := length_toBytes 4 _

@[simp] theorem length_bytes64 (v : UInt64) : (bytes64 v).length = 8 := length_toBytes 8 _

/-- A 32-bit word is read back as it was written. -/
theorem ofBytes_bytes32 (v : UInt32) : UInt32.ofNat (ofBytes (bytes32 v)) = v := by
  rw [bytes32, ofBytes_toBytes]
  have h : v.toNat % wordCount 4 = v.toNat := Nat.mod_eq_of_lt v.toNat_lt
  rw [h, UInt32.ofNat_toNat]

end NativeMatcher.Code
