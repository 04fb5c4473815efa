import NativeMatcher.Proofs.CodeOffsets
import NativeMatcher.Proofs.Lowering
import NativeMatcher.Proofs.Position

/-!
# Two encodings of one subject

A text of one byte per character can also be written with two bytes per character. A program
compiled for the one encoding and for the other reads the same characters, but at other places:
positions and lengths are counted in bytes, so all of them double.

This file has what that means for a decision of a thread. The places of one task are *twice* those
of the other (`NativeMatcher.twice`), and no test can tell, since doubling neither loses nor adds
an order as long as places are moderate (`NativeMatcher.Within`).

| what is decided | theorem |
|---|---|
| where the position is | `NativeMatcher.Task.Widened.placeHolds_eq` |
| which character is read | `NativeMatcher.Task.Widened.chars?_eq` |
| how far a capture reaches | `NativeMatcher.Task.Widened.compareCount_eq` |
| whether it is repeated | `NativeMatcher.Task.Widened.sameChars_eq` |
| which index is reported | `NativeMatcher.Task.Widened.captureIndex_eq` |
-/

namespace NativeMatcher

/-- What a push keeps of a word and a pop makes of it is the word modulo `2 ^ 32`. -/
theorem toInt_signWord_lowWord (a : Int64) :
    (signWord (lowWord a)).toInt = a.toInt.bmod (2 ^ 32) := by
  have hword : (lowWord a).toInt32 = a.toInt32 := by
    apply Int32.toBitVec_inj.mp
    have hlower : (lowWord a).toInt32.toBitVec = a.toBitVec.setWidth 32 := by simp [lowWord]
    have hcut : a.toInt32.toBitVec = a.toBitVec.signExtend 32 := rfl
    rw [hlower, hcut, BitVec.signExtend_eq_setWidth_of_le _ (by decide)]
  rw [signWord, hword, Int32.toInt_toInt64, Int64.toInt_toInt32]

/-! ### Doubling -/

/-- Twice a word. -/
def twice (v : Int64) : Int64 := v + v

/-- A word of at most so much, up or down. -/
def Within (n : Int) (v : Int64) : Prop := -n ≤ v.toInt ∧ v.toInt ≤ n

theorem twice_add (a b : Int64) : twice (a + b) = twice a + twice b := by
  unfold twice
  grind

theorem twice_sub (a b : Int64) : twice (a - b) = twice a - twice b := by
  unfold twice
  grind

theorem twice_neg (a : Int64) : twice (-a) = -twice a := by
  unfold twice
  grind

namespace Within

variable {m n : Int} {a b : Int64}

theorem mono (ha : Within m a) (h : m ≤ n) : Within n a := by
  obtain ⟨hlow, hhigh⟩ := ha
  constructor <;> omega

theorem toInt_add (ha : Within m a) (hb : Within n b) (h : m + n < 2 ^ 63) :
    (a + b).toInt = a.toInt + b.toInt := by
  obtain ⟨ha, ha'⟩ := ha
  obtain ⟨hb, hb'⟩ := hb
  rw [Int64.toInt_add, Int.bmod_eq_of_le (by omega) (by omega)]

theorem toInt_sub (ha : Within m a) (hb : Within n b) (h : m + n < 2 ^ 63) :
    (a - b).toInt = a.toInt - b.toInt := by
  obtain ⟨ha, ha'⟩ := ha
  obtain ⟨hb, hb'⟩ := hb
  rw [Int64.toInt_sub, Int.bmod_eq_of_le (by omega) (by omega)]

theorem add (ha : Within m a) (hb : Within n b) (h : m + n < 2 ^ 63) : Within (m + n) (a + b) := by
  rw [Within, toInt_add ha hb h]
  obtain ⟨ha, ha'⟩ := ha
  obtain ⟨hb, hb'⟩ := hb
  constructor <;> omega

theorem sub (ha : Within m a) (hb : Within n b) (h : m + n < 2 ^ 63) : Within (m + n) (a - b) := by
  rw [Within, toInt_sub ha hb h]
  obtain ⟨ha, ha'⟩ := ha
  obtain ⟨hb, hb'⟩ := hb
  constructor <;> omega

theorem toInt_neg (ha : Within n a) (h : n < 2 ^ 63) : (-a).toInt = -a.toInt := by
  obtain ⟨ha, ha'⟩ := ha
  rw [Int64.toInt_neg, Int.bmod_eq_of_le (by omega) (by omega)]

theorem neg (ha : Within n a) (h : n < 2 ^ 63) : Within n (-a) := by
  rw [Within, toInt_neg ha h]
  obtain ⟨ha, ha'⟩ := ha
  constructor <;> omega

theorem doubled (ha : Within n a) (h : n < 2 ^ 62) : Within (n + n) (twice a) :=
  ha.add ha (by omega)

theorem toInt_twice (ha : Within n a) (h : n < 2 ^ 62) : (twice a).toInt = 2 * a.toInt := by
  rw [twice, toInt_add ha ha (by omega)]
  omega

/-- Doubling loses nothing. -/
theorem twice_inj (ha : Within n a) (hb : Within n b) (h : n < 2 ^ 62) :
    twice a = twice b ↔ a = b := by
  rw [← Int64.toInt_inj, toInt_twice ha h, toInt_twice hb h, ← Int64.toInt_inj]
  omega

/-- Doubling keeps the order. -/
theorem twice_le_twice (ha : Within n a) (hb : Within n b) (h : n < 2 ^ 62) :
    twice a ≤ twice b ↔ a ≤ b := by
  rw [Int64.le_iff_toInt_le, toInt_twice ha h, toInt_twice hb h, Int64.le_iff_toInt_le]
  omega

theorem twice_lt_twice (ha : Within n a) (hb : Within n b) (h : n < 2 ^ 62) :
    twice a < twice b ↔ a < b := by
  rw [Int64.lt_iff_toInt_lt, toInt_twice ha h, toInt_twice hb h, Int64.lt_iff_toInt_lt]
  omega

/-- A word of 32 bits survives a push and a pop. -/
theorem signWord_lowWord (ha : Within (2 ^ 31 - 1) a) : signWord (lowWord a) = a := by
  obtain ⟨hlow, hhigh⟩ := ha
  rw [← Int64.toInt_inj, toInt_signWord_lowWord, Int.bmod_eq_of_le (by omega) (by omega)]

/-- Words of 32 bits are told apart by their entries. -/
theorem lowWord_inj (ha : Within (2 ^ 31 - 1) a) (hb : Within (2 ^ 31 - 1) b) :
    lowWord a = lowWord b ↔ a = b := by
  constructor
  · intro heq
    rw [← signWord_lowWord ha, ← signWord_lowWord hb, heq]
  · rintro rfl
    rfl

/-- Half of twice a word is the word. -/
theorem twice_shiftRight (ha : Within n a) (h : n < 2 ^ 62) : twice a >>> 1 = a := by
  have hone : ((1 : Int64).toBitVec.smod 64).toNat = 1 := by decide
  have hint : (twice a).toBitVec.toInt = 2 * a.toInt := toInt_twice ha h
  rw [← Int64.toInt_inj, ← Int64.toInt_toBitVec, Int64.toBitVec_shiftRight, BitVec.sshiftRight',
    hone, BitVec.toInt_sshiftRight, hint, Int.shiftRight_eq_div_pow]
  omega

end Within

/-! ### Reading a wide subject -/

/-- The characters of one byte each, written in two. -/
def widen (bytes : Array UInt8) : Array UInt16 := bytes.map UInt8.toUInt16

theorem size_widen (bytes : Array UInt8) : (widen bytes).size = bytes.size := Array.size_map

namespace Subject

/-- A load of one byte gives the byte. -/
theorem wordAt?_latin1 {bytes : Array UInt8} {i : Nat} (hi : i < bytes.size) :
    (latin1 bytes).wordAt? i 1 = some bytes[i].toUInt32 := by
  have hsize : (latin1 bytes).byteSize = bytes.size := Nat.mul_one _
  have hbyte : (latin1 bytes).byteAt? i = some bytes[i] := by
    rw [byteAt?_of_lt (by omega)]
    simp only [byte?, Array.getElem?_eq_getElem hi]
  simp [wordAt?, hbyte]

/-- The upper byte of a wide character is zero. So reading two bytes gives the number that reading
one gives in the other encoding. -/
theorem wordAt?_widen {bytes : Array UInt8} {i : Nat} (hi : i < bytes.size) :
    (uc16 (widen bytes)).wordAt? (2 * i : Nat) 2 = some bytes[i].toUInt32 := by
  have hsize : (uc16 (widen bytes)).byteSize = bytes.size * 2 := by
    rw [byteSize, size, size_widen]
    rfl
  have hunit : (widen bytes)[i]? = some bytes[i].toUInt16 := by
    rw [widen, Array.getElem?_map, Array.getElem?_eq_getElem hi]
    rfl
  have hlow : (uc16 (widen bytes)).byteAt? (2 * i : Nat) = some bytes[i] := by
    rw [byteAt?_of_lt (by omega)]
    have hdiv : 2 * i / 2 = i := by omega
    have hmod : 2 * i % 2 = 0 := by omega
    simp [byte?, hdiv, hmod, hunit]
  have hhigh : (uc16 (widen bytes)).byteAt? ((2 * i : Nat) + 1) = some 0 := by
    have hcast : ((2 * i : Nat) : Int) + 1 = ((2 * i + 1 : Nat) : Int) := rfl
    rw [hcast, byteAt?_of_lt (by omega)]
    have hdiv : (2 * i + 1) / 2 = i := by omega
    have hmod : (2 * i + 1) % 2 ≠ 0 := by omega
    have hzero : (bytes[i].toUInt16 >>> 8).toUInt8 = 0 := by
      apply UInt8.toNat_inj.mp
      have := bytes[i].toNat_lt
      simp [Nat.shiftRight_eq_div_pow]
      omega
    simp only [byte?, hdiv, if_neg hmod, hunit, Option.map_some, hzero]
  simp only [wordAt?, hlow, hhigh]
  simp

/-- Just before a subject there are zeros. -/
theorem wordAt?_before_widen (bytes : Array UInt8) :
    (uc16 (widen bytes)).wordAt? (-2) 2 = some 0 := by
  have hzero : ∀ i : Int, -4 ≤ i → i < 0 → (uc16 (widen bytes)).byteAt? i = some 0 := by
    intro i hlow hhigh
    have hmargin : (margin : Int) = 4 := rfl
    rw [byteAt?, if_neg (by omega), if_pos (by omega)]
  simp [wordAt?, hzero]

end Subject

/-- A byte is in a class or not whatever the encoding is. -/
theorem CharTest.holds_of_lt (test : CharTest) (mode mode' : Mode) {c : UInt32} (hc : c < 256) :
    test.holds mode c = test.holds mode' c := by
  have hsep : (c == 0x2028) = false ∧ (c == 0x2029) = false := by
    rw [UInt32.lt_iff_toNat_lt] at hc
    constructor
    · rw [beq_eq_false_iff_ne]
      rintro rfl
      exact absurd hc (by decide)
    · rw [beq_eq_false_iff_ne]
      rintro rfl
      exact absurd hc (by decide)
  cases test with
  | notInClass cls =>
    cases cls <;> simp [CharTest.holds, CharClass.contains, CharClass.isLineEnd, hsep]
  | _ => rfl

/-- No half of a surrogate pair is a byte. -/
theorem Text.isLead_of_lt {c : UInt32} (hc : c < 256) : Text.isLead c.toUInt16 = false := by
  have hlow : ¬0xD800 ≤ c.toUInt16 := by
    rw [UInt32.lt_iff_toNat_lt] at hc
    rw [UInt16.le_iff_toNat_le]
    simp at hc ⊢
    omega
  rw [isLead, decide_eq_false hlow, Bool.false_and]

/-! ### Opcodes that do not depend on the encoding -/

/-- An opcode that does not depend on the encoding of the subject. Numbers of characters are in
reach and one character is loaded at a time. A register holds a place and no number, so it is not
computed with or compared with a number; and it is not a stack pointer. Case is not ignored, and
classes are such that both encodings can test them. -/
def Opcode.IsNeutral : Opcode → Prop
  | .advance n | .setPositionFromEnd n | .writePosition _ n
  | .onPlace (.atStart n) _ | .onPlace (.notAtStart n) _ | .onPlace (.outside n) _ => InReach n
  | .load n _ _ count => InReach n ∧ count ≤ 1
  | .onChar (.notInClass .whitespace) _ | .onChar (.notInClass .notWhitespace) _
  | .onRegister (.ge _ _) _ | .onRegister (.lt _ _) _ | .setRegister _ _ | .advanceRegister _ _
  | .readStackPointer _ | .writeStackPointer _ | .checkNotBackReferenceIgnoreCase _ _ _ _ => False
  | _ => True

theorem Opcode.IsNeutral.loadsOne {op : Opcode} (h : op.IsNeutral) : op.LoadsOne := by
  cases op with
  | load => exact h.2
  | _ => trivial

/-! ### A program on the two encodings -/

namespace Task

/-- The character at a place belongs to the subject. -/
def Covers (k : Task) (place : Int64) : Prop :=
  -(k.subject.byteSize : Int) ≤ place.toInt ∧ place.toInt + k.mode.charSize ≤ 0

/-- The places of so many characters in a row. -/
def charPlaces (k : Task) : (count : Nat) → (a : Int64) → List Int64
  | 0, _ => []
  | n + 1, a => a :: charPlaces k n (a + k.unit)

/-- The places that a comparison of so many characters looks at: it stops at the first
difference. -/
def comparedPlaces (k : Task) : (count : Nat) → (a b : Int64) → List Int64
  | 0, _, _ => []
  | n + 1, a, b =>
    a :: b :: if k.chars? a 1 = k.chars? b 1 then comparedPlaces k n (a + k.unit) (b + k.unit)
      else []

/-- A word without its sign. -/
theorem toNat_toUInt64_cases (v : Int64) : (v.toUInt64.toNat : Int) = v.toInt ∨
    (v.toUInt64.toNat : Int) = v.toInt + 2 ^ 64 := by
  have hbits : v.toInt = v.toUInt64.toBitVec.toInt := rfl
  rw [hbits, BitVec.toInt_eq_toNat_cond]
  split
  · exact Or.inl rfl
  · refine Or.inr ?_
    change (v.toUInt64.toBitVec.toNat : Int) = _
    omega

/-- The address of a moderate place is not wrapped around. -/
theorem toNat_address {k : Task} {v : Int64} (hsize : k.subject.byteSize < 2 ^ 40)
    (hv : Within (2 ^ 40) v) :
    ((k.address v).toNat : Int) = Memory.heap + k.subject.byteSize + v.toInt := by
  have hheap : Memory.heap = 0x600000000000 := rfl
  obtain ⟨hlow, hhigh⟩ := hv
  have hword := toNat_toUInt64_cases v
  rw [address, Memory.address, UInt64.toNat_add, UInt64.toNat_ofNat_of_lt' (by
    simp only [UInt64.size]
    omega)]
  omega

/-- The second task runs the program of the first one on the same characters, written in two bytes
each. -/
structure Widened (k k' : Task) (bytes : Array UInt8) : Prop where
  /-- The subject of the first. -/
  subject : k.subject = .latin1 bytes
  /-- The subject of the second. -/
  subject' : k'.subject = .uc16 (widen bytes)
  /-- It is not too long. -/
  size : bytes.size < 2 ^ 29
  /-- The encoding of the first. -/
  mode : k.matcher.options.mode = .latin1
  /-- The other options are the same. -/
  options : k'.matcher.options = { k.matcher.options with mode := .uc16 }
  /-- The programs are the same. -/
  program : k'.matcher.program = k.matcher.program
  /-- The program does not depend on the encoding. -/
  neutral : ∀ op ∈ k.matcher.program.opcodes, op.IsNeutral
  /-- The labels have the same places. -/
  places : k'.places = k.places
  /-- There are as many registers. -/
  registers : k'.matcher.object.registers = k.matcher.object.registers
  /-- There are as many code offsets. -/
  offsets : k'.matcher.offsets.size = k.matcher.offsets.size
  /-- The code offsets of an opcode lead to the same opcode. -/
  lands : ∀ i x x' : Nat, k.matcher.offsets[i]? = some x → k'.matcher.offsets[i]? = some x' →
    k'.opcodeAt? (UInt32.ofNat x') = k.opcodeAt? (UInt32.ofNat x)
  /-- They are called alike. -/
  origin : k'.origin = k.origin
  /-- The frames are at the same address. -/
  sp : k'.sp = k.sp

namespace Widened

variable {k k' : Task} {bytes : Array UInt8} (h : k.Widened k' bytes)

include h

theorem charSize_eq : k.mode.charSize = 1 := by
  rw [Task.mode, h.mode]
  rfl

theorem mode_eq' : k'.mode = .uc16 := by rw [Task.mode, h.options]

theorem charSize_eq' : k'.mode.charSize = 2 := by
  rw [h.mode_eq']
  rfl

theorem byteSize_eq : k.subject.byteSize = bytes.size := by
  rw [h.subject]
  exact Nat.mul_one _

theorem byteSize_eq' : k'.subject.byteSize = bytes.size * 2 := by
  rw [h.subject', Subject.byteSize, Subject.size, size_widen]
  rfl

/-! ### Places -/

theorem toInt_unit : k.unit.toInt = 1 := by
  rw [Task.toInt_unit, h.charSize_eq]
  rfl

theorem toInt_bytes (n : Int32) : (k.bytes n).toInt = n.toInt := by
  rw [Task.toInt_bytes, h.charSize_eq]
  exact Int.mul_one _

theorem toInt_length : k.length.toInt = bytes.size := by
  have hsize := h.size
  rw [Task.length, h.byteSize_eq, Int64.toInt_ofNat_of_lt (by omega)]

theorem toInt_before : k.before.toInt = -bytes.size - 1 := by
  have hsize := h.size
  rw [Task.toInt_before (by rw [h.byteSize_eq]; omega), h.byteSize_eq, h.charSize_eq]
  rfl

theorem within_unit : Within 1 k.unit := by
  rw [Within, h.toInt_unit]
  omega

theorem within_bytes {n : Int32} (hn : InReach n) : Within (2 ^ 29 - 1) (k.bytes n) := by
  obtain ⟨hlow, hhigh⟩ := hn
  rw [Within, h.toInt_bytes]
  omega

theorem within_length : Within (2 ^ 29) k.length := by
  have hsize := h.size
  rw [Within, h.toInt_length]
  omega

theorem within_before : Within (2 ^ 29) k.before := by
  have hsize := h.size
  rw [Within, h.toInt_before]
  omega

theorem unit_eq : k'.unit = twice k.unit := by
  rw [← Int64.toInt_inj, h.within_unit.toInt_twice (by decide), h.toInt_unit, Task.toInt_unit,
    h.charSize_eq']
  rfl

/-- The number of bytes of a number of characters doubles. -/
theorem bytes_eq (n : Int32) : k'.bytes n = twice (k.bytes n) := by
  have hlow := n.le_toInt
  have hhigh := n.toInt_lt
  have hn : Within (2 ^ 31) (k.bytes n) := by
    rw [Within, h.toInt_bytes]
    omega
  rw [← Int64.toInt_inj, hn.toInt_twice (by decide), h.toInt_bytes, Task.toInt_bytes,
    h.charSize_eq']
  omega

theorem moved_eq (pos : Int64) (n : Int32) :
    twice pos + k'.bytes n = twice (pos + k.bytes n) := by
  rw [h.bytes_eq, twice_add]

theorem length_eq : k'.length = twice k.length := by
  have hsize := h.size
  rw [← Int64.toInt_inj, h.within_length.toInt_twice (by decide), h.toInt_length, Task.length,
    h.byteSize_eq', Int64.toInt_ofNat_of_lt (by omega)]
  omega

theorem before_eq : k'.before = twice k.before := by
  rw [Task.before, Task.before, h.length_eq, h.unit_eq, twice_sub, twice_neg]

/-- As many characters take twice the bytes. -/
theorem size_eq (n : Nat) :
    Int64.ofNat (n * k'.mode.charSize) = twice (Int64.ofNat (n * k.mode.charSize)) := by
  rw [h.charSize_eq, h.charSize_eq', Nat.mul_one, Nat.mul_two, Int64.ofNat_add]
  rfl

theorem position_eq (i : Nat) : k'.position i = twice (k.position i) := by
  rw [position, position, h.size_eq, h.length_eq, twice_sub]

/-- Positions are counted from the end of the subject, so they are negative inside and do not
overflow. -/
theorem toInt_position {i : Nat} (hi : i ≤ bytes.size) :
    (k.position i).toInt = i - bytes.size := by
  have hsize := h.size
  have hindex : (Int64.ofNat (i * k.mode.charSize)).toInt = i := by
    rw [h.charSize_eq, Nat.mul_one, Int64.toInt_ofNat_of_lt (by omega)]
  have hwithin : Within (2 ^ 29) (Int64.ofNat (i * k.mode.charSize)) := by
    rw [Within, hindex]
    omega
  rw [position, hwithin.toInt_sub h.within_length (by decide), hindex, h.toInt_length]

theorem place?_eq : k'.place? = k.place? := by
  funext l
  rw [Task.place?, Task.place?, h.places]

/-! ### Characters -/

/-- **A character of the subject is the same in both encodings**, and it is a byte. It is read at
the doubled place, and its upper byte is zero there. -/
theorem chars?_eq {place : Int64} (hp : k.Covers place) :
    ∃ c, k.chars? place 1 = some c ∧ k'.chars? (twice place) 1 = some c ∧ c < 256 := by
  have hsize := h.size
  obtain ⟨hlow, hhigh⟩ := hp
  rw [h.byteSize_eq] at hlow
  rw [h.charSize_eq] at hhigh
  obtain ⟨i, hi⟩ : ∃ i : Nat, (bytes.size : Int) + place.toInt = i :=
    ⟨(bytes.size + place.toInt).toNat, by omega⟩
  have hlt : i < bytes.size := by omega
  have hplace : Within (2 ^ 29) place := by constructor <;> omega
  refine ⟨bytes[i].toUInt32, ?_, ?_, ?_⟩
  · rw [chars?, Subject.wordFromEnd?, h.byteSize_eq, hi, h.charSize_eq, h.subject]
    exact Subject.wordAt?_latin1 hlt
  · have hwide : ((bytes.size * 2 : Nat) : Int) + 2 * place.toInt = (2 * i : Nat) := by omega
    rw [chars?, Subject.wordFromEnd?, hplace.toInt_twice (by decide), h.byteSize_eq', hwide,
      h.charSize_eq', h.subject']
    exact Subject.wordAt?_widen hlt
  · have hbyte := bytes[i].toNat_lt
    rw [UInt32.lt_iff_toNat_lt]
    simpa using hbyte

/-! ### Tests of the position -/

/-- **A place is where it is in both encodings.** Tests compare positions, and doubling keeps their
order as long as nothing overflows. -/
theorem placeHolds_eq (test : PlaceTest) (dest : Target)
    (htest : (Opcode.onPlace test dest).IsNeutral) {t u : Thread} (hpos : Within (2 ^ 29) t.pos)
    (hu : u.pos = twice t.pos) : k'.placeHolds u test = k.placeHolds t test := by
  have hbefore : Within (2 ^ 31) k.before := h.within_before.mono (by decide)
  have hsum : ∀ n, InReach n → Within (2 ^ 31) (t.pos + (k.bytes n - k.unit)) := fun n hn =>
    (hpos.add ((h.within_bytes hn).sub h.within_unit (by decide)) (by decide)).mono (by decide)
  rw [Bool.eq_iff_iff]
  cases test with
  | atStart n =>
    simp only [placeHolds, hu, h.bytes_eq, h.unit_eq, h.before_eq, ← twice_sub, ← twice_add,
      beq_iff_eq]
    exact (hsum n htest).twice_inj hbefore (by decide)
  | notAtStart n =>
    simp only [placeHolds, hu, h.bytes_eq, h.unit_eq, h.before_eq, ← twice_sub, ← twice_add,
      bne_iff_ne]
    exact not_congr ((hsum n htest).twice_inj hbefore (by decide))
  | outside n =>
    have hn : Within (2 ^ 29) (k.bytes n) := (h.within_bytes htest).mono (by decide)
    simp only [placeHolds, hu, h.bytes_eq, h.before_eq, ← twice_neg, ← twice_add]
    split
    · rw [decide_eq_true_eq, decide_eq_true_eq]
      exact (hn.neg (by decide)).twice_le_twice hpos (by decide)
    · rw [decide_eq_true_eq, decide_eq_true_eq]
      exact ((hpos.add hn (by decide)).mono (by decide)).twice_le_twice hbefore (by decide)

/-! ### Captures -/

/-- A capture fits where it fits. -/
theorem captureFits_eq (backward : Bool) {length : Int64} (hlength : Within (2 ^ 31) length)
    {t u : Thread} (hpos : Within (2 ^ 29) t.pos) (hu : u.pos = twice t.pos) :
    k'.captureFits backward (twice length) u = k.captureFits backward length t := by
  rw [Bool.eq_iff_iff]
  cases backward with
  | true =>
    simp only [captureFits, if_true, hu, h.before_eq, ← twice_add, decide_eq_true_eq]
    exact ((h.within_before.add hlength (by decide)).mono (by decide)).twice_lt_twice
      (hpos.mono (n := 2 ^ 32) (by decide)) (by decide)
  | false =>
    simp only [captureFits, Bool.false_eq_true, if_false, hu, decide_eq_true_eq,
      hpos.toInt_twice (by decide), hlength.toInt_twice (by decide)]
    omega

/-- A comparison looks at as many characters. -/
theorem compareCount_eq {first last : Int64} (hfirst : Within (2 ^ 31) first)
    (hlast : Within (2 ^ 31) last) :
    k'.compareCount (twice first) (twice last) = k.compareCount first last := by
  have hsize := h.size
  have hwide : ∀ v, Within (2 ^ 31) v → Within (2 ^ 40) (twice v) := fun v hv =>
    (hv.doubled (by decide)).mono (by decide)
  have hnarrow : ∀ v, Within (2 ^ 31) v → Within (2 ^ 40) v := fun v hv => hv.mono (by decide)
  have hbytes : k.subject.byteSize < 2 ^ 40 := by
    rw [h.byteSize_eq]
    omega
  have hbytes' : k'.subject.byteSize < 2 ^ 40 := by
    rw [h.byteSize_eq']
    omega
  have hfirst' := toNat_address hbytes' (hwide first hfirst)
  have hlast' := toNat_address hbytes' (hwide last hlast)
  rw [hfirst.toInt_twice (by decide)] at hfirst'
  rw [hlast.toInt_twice (by decide)] at hlast'
  have hfirst := toNat_address hbytes (hnarrow first hfirst)
  have hlast := toNat_address hbytes (hnarrow last hlast)
  simp only [compareCount, h.charSize_eq, h.charSize_eq']
  congr 1
  omega

/-- **A repetition is one in both encodings**, if everything that is compared belongs to the
subject. -/
theorem sameChars_eq {count : Nat} {a b : Int64}
    (hread : ∀ place ∈ k.comparedPlaces count a b, k.Covers place) :
    k'.sameChars count (twice a) (twice b) = k.sameChars count a b := by
  induction count generalizing a b with
  | zero => rfl
  | succ n ih =>
    obtain ⟨x, hx, hx', -⟩ := h.chars?_eq (hread a (by simp [comparedPlaces]))
    obtain ⟨y, hy, hy', -⟩ := h.chars?_eq (hread b (by simp [comparedPlaces]))
    simp only [sameChars, hx, hx', hy, hy', Option.bind_eq_bind, Option.bind_some, h.unit_eq,
      ← twice_add]
    split
    · next hxy =>
      refine ih fun place hplace => hread place ?_
      simp [comparedPlaces, hx, hy, hxy, hplace]
    · rfl

/-- **A register is reported as the same index.** -/
theorem captureIndex_eq {v : Int64} (hv : Within (2 ^ 31) v) :
    k'.captureIndex (twice v) = k.captureIndex v := by
  have hmode : k.mode = .latin1 := h.mode
  have hsum : Within (2 ^ 32) (v + k.length) :=
    (hv.add h.within_length (by decide)).mono (by decide)
  simp only [captureIndex, hmode, h.mode_eq', h.length_eq, ← twice_add]
  rw [hsum.twice_shiftRight (by decide)]

/-! ### Starting over -/

/-- The character before a place is the same in both encodings, also at the start. -/
theorem charBefore?_eq {pos : Int64} (hpos : Within (2 ^ 30) pos)
    (hread : pos - k.unit = k.before ∨ k.Covers (pos - k.unit)) :
    ∃ c, k.charBefore? pos = some c ∧ k'.charBefore? (twice pos) = some c ∧ c < 256 := by
  have hplace : Within (2 ^ 31) (pos - k.unit) :=
    (hpos.sub h.within_unit (by decide)).mono (by decide)
  have hstart : twice pos - k'.unit = k'.before ↔ pos - k.unit = k.before := by
    rw [h.unit_eq, h.before_eq, ← twice_sub]
    exact hplace.twice_inj (h.within_before.mono (by decide)) (by decide)
  by_cases hbefore : pos - k.unit = k.before
  · refine ⟨10, if_pos hbefore, if_pos (hstart.mpr hbefore), by decide⟩
  · obtain ⟨c, hc, hc', hlt⟩ := h.chars?_eq (hread.resolve_left hbefore)
    refine ⟨c, (if_neg hbefore).trans hc, (if_neg fun hcon => hbefore (hstart.mp hcon)).trans ?_,
      hlt⟩
    rw [h.unit_eq, ← twice_sub]
    exact hc'

/-- Just before the subject a wide task reads zeros. -/
theorem chars?_before : k'.chars? (twice k.before) 1 = some 0 := by
  have hplace : ((bytes.size * 2 : Nat) : Int) + 2 * (-bytes.size - 1) = -2 := by omega
  rw [chars?, Subject.wordFromEnd?, h.within_before.toInt_twice (by decide), h.toInt_before,
    h.byteSize_eq', hplace, h.charSize_eq', h.subject']
  exact Subject.wordAt?_before_widen bytes

/-- **After an empty match both go on one character later.** A byte is no half of a surrogate
pair, so there is nothing to step over. -/
theorem positionAfterEmpty_eq {pos : Int64} (hread : pos = k.before ∨ k.Covers pos) :
    k.positionAfterEmpty pos = some (pos + k.unit) ∧
      k'.positionAfterEmpty (twice pos) = some (twice (pos + k.unit)) := by
  have hmode : k.mode = .latin1 := h.mode
  obtain ⟨c, hc, hlt⟩ : ∃ c, k'.chars? (twice pos) 1 = some c ∧ c < 256 := by
    rcases hread with rfl | hcovers
    · exact ⟨0, h.chars?_before, by decide⟩
    · obtain ⟨c, -, hc, hlt⟩ := h.chars?_eq hcovers
      exact ⟨c, hc, hlt⟩
  have hsplits : k'.splitsPair (twice pos + k'.unit) = some false := by
    unfold splitsPair
    split
    · rfl
    · rw [Int64.add_sub_cancel, hc]
      simp only [Option.bind_eq_bind, Option.bind_some, Text.isLead_of_lt hlt, Bool.not_false,
        if_true]
      rfl
  constructor
  · simp [positionAfterEmpty, hmode]
  · have hunit : twice (pos + k.unit) = twice pos + k'.unit := by rw [twice_add, h.unit_eq]
    simp only [positionAfterEmpty, hunit, hsplits, Option.bind_eq_bind, Option.bind_some]
    split <;> rfl

end Widened

end Task

end NativeMatcher
