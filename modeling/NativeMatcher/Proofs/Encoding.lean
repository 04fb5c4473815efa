import Mathlib.Algebra.Group.Int.Defs
import Mathlib.Algebra.Group.Nat.Defs
import NativeMatcher.X64.Decode
import NativeMatcher.X64.Machine

/-!
# Encodings are read back

Whatever `NativeMatcher.X64.Instr.encode` chooses – a REX byte or none, a SIB byte, the
size of a displacement or of an immediate – the processor reads the instruction that was
asked for, and reads no byte after it (`NativeMatcher.X64.Instr.decode_encode`). The
argument follows the bytes from the front:

* the REX byte holds the fourth bits of three register numbers
  (`NativeMatcher.X64.read_bytes`);
* the r/m operand comes back in its three shapes, a register, a base alone, a base with a
  SIB byte (`NativeMatcher.X64.Operand.read_bytes`);
* what is left is an immediate.

Two kinds of instructions are chosen by value and not by form: loads of constants, of which
only the effect is fixed (`NativeMatcher.X64.Instr.exec_loadConst`), and branches, whose
displacement is counted modulo `2 ^ 32` (`NativeMatcher.X64.Branch.between_eq`).
-/

namespace NativeMatcher.X64

open Code

/-! ### Numbers -/

theorem readNumber_append (bs rest : List UInt8) :
    readNumber bs.length (bs ++ rest) = some (ofBytes bs, rest) := by
  simp [readNumber]

theorem readDword_append (v : UInt32) (rest : List UInt8) :
    readDword (bytes32 v ++ rest) = some (v, rest) := by
  have h := readNumber_append (bytes32 v) rest
  rw [length_bytes32] at h
  simp [readDword, h, ofBytes_bytes32]

/-- A 64-bit immediate is read back, and what follows it is left over. -/
theorem readQword_append (v : UInt64) (rest : List UInt8) :
    readQword (bytes64 v ++ rest) = some (v, rest) := by
  have h := readNumber_append (bytes64 v) rest
  have hv : UInt64.ofNat (ofBytes (bytes64 v)) = v := by
    have hlt : v.toNat % wordCount 8 = v.toNat := Nat.mod_eq_of_lt v.toNat_lt
    rw [bytes64, ofBytes_toBytes, hlt, UInt64.ofNat_toNat]
  rw [length_bytes64] at h
  simp [readQword, h, hv]

/-- A word that fits a signed byte is the sign extension of its lowest byte. -/
theorem signExtend_of_fitsByte {x : Int32} (h : fitsByte x = true) :
    x.toUInt32.toUInt8.toInt8.toInt32 = x := by
  -- Both words are balanced residues of the same number, one modulo `2 ^ 32` and one modulo `256`.
  have hx : -128 ≤ x.toInt ∧ x.toInt ≤ 127 := by simpa [fitsByte] using h
  have hword : x.toInt = (x.toUInt32.toNat : Int).bmod 4294967296 := BitVec.toInt_eq_toNat_bmod _
  have hbyte : x.toUInt32.toUInt8.toInt8.toInt = ((x.toUInt32.toNat % 256 : Nat) : Int).bmod 256 :=
    BitVec.toInt_eq_toNat_bmod _
  apply Int32.toInt_inj.mp
  rw [Int8.toInt_toInt32, hbyte]
  rw [hword] at hx ⊢
  simp only [Int.bmod] at hx ⊢
  omega

theorem readNumber_one (v : UInt8) (rest : List UInt8) :
    readNumber 1 (v :: rest) = some (v.toNat, rest) := by
  simp [readNumber, ofBytes]

theorem readByte_append {x : Int32} (h : fitsByte x = true) (rest : List UInt8) :
    readByte (x.toUInt32.toUInt8 :: rest) = some (x, rest) := by
  simp only [readByte, readNumber_one, Option.bind_eq_bind, Option.bind_some, UInt8.ofNat_toNat,
    signExtend_of_fitsByte h]
  rfl

/-! ### Prefixes -/

/-- What the REX byte of an instruction says, given the numbers of its registers. -/
def Rex.of (wide : Bool) (reg index rm : UInt8) : Rex :=
  { wide := wide, reg := reg &&& 8, index := index &&& 8, rm := rm &&& 8 }

/-- The lower half of the REX byte. -/
def rexBits (wide : Bool) (r x b : UInt8) : UInt8 :=
  (if wide then (8 : UInt8) else 0) ||| ((r >>> 3) <<< 2) ||| ((x >>> 3) <<< 1) ||| (b >>> 3)

theorem fourth_bit {v : UInt8} (h : v < 16) :
    (v >>> 3 = 0 ∧ v &&& 8 = 0) ∨ (v >>> 3 = 1 ∧ v &&& 8 = 8) := by
  have key : ∀ n : Fin 16, (UInt8.ofNat n >>> 3 = 0 ∧ UInt8.ofNat n &&& 8 = 0) ∨
      (UInt8.ofNat n >>> 3 = 1 ∧ UInt8.ofNat n &&& 8 = 8) := by decide
  simpa using key ⟨v.toNat, h⟩

/-- A prefix that is left out has no bit set, and one that is written is read back with all of its
bits. -/
theorem ofByte_rexBits (wide : Bool) {r x b : UInt8} (hr : r < 16) (hx : x < 16) (hb : b < 16) :
    (rexBits wide r x b = 0 ∧ Rex.of wide r x b = {}) ∨
      (rexBits wide r x b ≠ 0 ∧
        Rex.ofByte (0x40 ||| rexBits wide r x b) = some (.of wide r x b)) := by
  -- Only the width and the fourth bits of the registers matter, so there are sixteen cases.
  rcases fourth_bit hr with ⟨r3, r8⟩ | ⟨r3, r8⟩ <;>
    rcases fourth_bit hx with ⟨x3, x8⟩ | ⟨x3, x8⟩ <;>
    rcases fourth_bit hb with ⟨b3, b8⟩ | ⟨b3, b8⟩ <;> cases wide <;>
    simp only [rexBits, Rex.of, r3, x3, b3, r8, x8, b8] <;> decide

/-- The bytes of an opcode are read back as its prefix, an escape if it has one, and the opcode
byte, which must not look like a prefix itself. -/
theorem read_bytes (o : OpByte) {r x b : UInt8} (hr : r < 16) (hx : x < 16)
    (hb : b < 16) (hrex : Rex.ofByte o.byte = none) (rest : List UInt8) :
    Rex.read (o.bytes r x b ++ rest) =
      (.of o.wide r x b, (if o.escape then [0x0F] else []) ++ o.byte :: rest) := by
  have hbytes : o.bytes r x b ++ rest =
      (if rexBits o.wide r x b = 0 then [] else [0x40 ||| rexBits o.wide r x b]) ++
        ((if o.escape then [0x0F] else []) ++ o.byte :: rest) := by
    simp [OpByte.bytes, rexBits]
  rw [hbytes]
  rcases ofByte_rexBits o.wide hr hx hb with ⟨h0, hof⟩ | ⟨h0, hof⟩
  · rw [if_pos h0, hof]
    cases o.escape with
    | true => rfl
    | false => simp [Rex.read, hrex]
  · rw [if_neg h0]
    simp [Rex.read, hof]

theorem decode_bytes {o : OpByte} {r x b : UInt8} (hr : r < 16) (hx : x < 16)
    (hb : b < 16) (ho : o.escape = false) (hrex : Rex.ofByte o.byte = none) (h0F : o.byte ≠ 0x0F)
    (rest : List UInt8) :
    Instr.decode (o.bytes r x b ++ rest) = decodeOp (.of o.wide r x b) o.byte rest := by
  simp [Instr.decode, read_bytes o hr hx hb hrex, ho, h0F]

theorem decode_bytes_escape {o : OpByte} {r x b : UInt8} (hr : r < 16) (hx : x < 16)
    (hb : b < 16) (ho : o.escape = true) (hrex : Rex.ofByte o.byte = none)
    (rest : List UInt8) :
    Instr.decode (o.bytes r x b ++ rest) = decodeEscaped (.of o.wide r x b) o.byte rest := by
  simp [Instr.decode, read_bytes o hr hx hb hrex, ho]

/-! ### Operands -/

theorem fields_packed : ∀ (a : Fin 4) (b c : Fin 8),
    let v : UInt8 := UInt8.ofNat a <<< 6 ||| UInt8.ofNat b <<< 3 ||| UInt8.ofNat c
    v >>> 6 = UInt8.ofNat a ∧ (v >>> 3) &&& 7 = UInt8.ofNat b ∧ v &&& 7 = UInt8.ofNat c := by
  decide +kernel

theorem and_seven_lt (v : UInt8) : (v &&& 7).toNat < 8 := by
  have : v.toNat &&& 7 ≤ 7 := Nat.and_le_right
  simp only [UInt8.toNat_and]
  exact Nat.lt_succ_of_le this

/-- The three fields of the byte that describes an operand do not overlap. -/
theorem modRM_fields {mode : UInt8} (hm : mode < 4) (field rm : UInt8) :
    modRM mode field rm >>> 6 = mode ∧ (modRM mode field rm >>> 3) &&& 7 = field &&& 7 ∧
      modRM mode field rm &&& 7 = rm &&& 7 := by
  have h := fields_packed ⟨mode.toNat, hm⟩ ⟨(field &&& 7).toNat, and_seven_lt field⟩
    ⟨(rm &&& 7).toNat, and_seven_lt rm⟩
  simp only [UInt8.ofNat_toNat] at h
  exact h

theorem join_number {v : UInt8} (h : v < 16) : (v &&& 7) ||| (v &&& 8) = v := by
  have key : ∀ n : Fin 16, (UInt8.ofNat n &&& 7) ||| (UInt8.ofNat n &&& 8) = UInt8.ofNat n := by
    decide
  simpa using key ⟨v.toNat, h⟩

theorem Reg.number_lt (r : Reg) : r.number < 16 := by
  cases r <;> decide

theorem DispForm.mode_lt (f : DispForm) : f.mode < 3 := by
  cases f <;> decide

theorem DispForm.ofMode_mode (f : DispForm) : DispForm.ofMode f.mode = some f := by
  cases f <;> rfl

/-- A displacement is read back in the form that was chosen for it, none, one byte or four. -/
theorem DispForm.read_dispForm (m : Mem) (rest : List UInt8) :
    m.dispForm.read (m.dispForm.bytes m.disp ++ rest) = some (m.disp, rest) := by
  unfold Mem.dispForm
  split
  · next h => simp [DispForm.read, DispForm.bytes, h.1]
  · split
    · next h => exact readByte_append h rest
    · simp [DispForm.read, DispForm.bytes, readDword_append]

/-- The base is read back. Without a displacement `rbp` and `r13` would mean something else, so that
they never take the form without one. -/
theorem baseOf_dispForm (m : Mem) :
    baseOf m.dispForm (m.base.number &&& 7) (m.base.number &&& 8) = some m.base := by
  -- Without a displacement the field 5 is no base: `rbp` and `r13` always have one.
  have hne : ¬(m.dispForm = .none ∧ m.base.number &&& 7 = 5) := by
    unfold Mem.dispForm
    rintro ⟨h, h5⟩
    split at h
    · next hn => exact hn.2 h5
    · split at h <;> cases h
  rw [baseOf, if_neg hne, join_number m.base.number_lt, Reg.ofNumber_number]

/-- Whether a memory operand has an encoding: no index is the stack pointer. -/
def Mem.encodable (m : Mem) : Bool :=
  match m.index with
  | none => true
  | some (r, shift) => r ≠ .rsp && shift ≤ 3

/-- Whether an r/m operand has an encoding. -/
def Operand.encodable : Operand → Bool
  | .reg _ => true
  | .mem m => m.encodable

/-- The number of the index register, zero without one. -/
def Operand.index : Operand → UInt8
  | .reg _ => 0
  | .mem m => (m.index.map fun p => p.1.number).getD 0

/-- The number of the register in the r/m field, or of the base. -/
def Operand.base : Operand → UInt8
  | .reg r => r.number
  | .mem m => m.base.number

/-- The bytes of an operand after the opcode. -/
def Operand.bytes (field : UInt8) : Operand → List UInt8
  | .reg r => [modRM 3 field r.number]
  | .mem m => m.bytes field

theorem OpByte.withRm_eq (o : OpByte) (field : UInt8) (rm : Operand) :
    o.withRm field rm = o.bytes field rm.index rm.base ++ rm.bytes field := by
  cases rm <;> rfl

theorem Operand.index_lt (rm : Operand) : rm.index < 16 := by
  match rm with
  | .reg r => exact (by decide : (0 : UInt8) < 16)
  | .mem ⟨_, none, _⟩ => exact (by decide : (0 : UInt8) < 16)
  | .mem ⟨_, some p, _⟩ => exact p.1.number_lt

theorem Operand.base_lt (rm : Operand) : rm.base < 16 := by
  cases rm with
  | reg r => exact r.number_lt
  | mem m => exact m.base.number_lt

/-- The index is read back, unless it is the stack pointer, whose number stands for no index. -/
theorem indexOf_sib (wide : Bool) (field b : UInt8) {i : Reg} {shift : UInt8} (base : UInt8)
    (hi : i ≠ .rsp) (hs : shift ≤ 3) :
    indexOf (.of wide field i.number b) (sib shift i.number base) = some (some (i, shift)) := by
  have hlt : shift < 4 := Nat.lt_succ_of_le hs
  obtain ⟨h6, h3, -⟩ := modRM_fields hlt i.number base
  have hne : i.number ≠ 4 := by
    intro h
    cases i <;> first | exact hi rfl | exact absurd h (by decide)
  have hsib : sib shift i.number base = modRM shift i.number base := rfl
  rw [indexOf, hsib, h6, h3]
  simp [Rex.of, join_number i.number_lt, hne, Reg.ofNumber_number]

/-- An operand in memory is read by its form, once the first byte has told that it is one. -/
theorem Operand.read_cons (x : Rex) (form : DispForm) (field rm : UInt8) (bs : List UInt8) :
    Operand.read x (modRM form.mode field rm :: bs) = (do
      let (m, bs) ← Mem.read x form (rm &&& 7) bs
      return ((field &&& 7) ||| x.reg, .mem m, bs)) := by
  have hlt : form.mode < 4 := Nat.lt_trans form.mode_lt (by decide : (3 : UInt8) < 4)
  obtain ⟨h6, h3, h7⟩ := modRM_fields hlt field rm
  have hne : form.mode ≠ 3 := by cases form <;> decide
  simp [Operand.read, h6, h3, h7, hne, DispForm.ofMode_mode]

theorem Mem.read_sib {x : Rex} {m : Mem} {v : UInt8} (hx : x.rm = m.base.number &&& 8)
    (hv : v &&& 7 = m.base.number &&& 7) (hi : indexOf x v = some m.index) (rest : List UInt8) :
    Mem.read x m.dispForm 4 (v :: (m.dispForm.bytes m.disp ++ rest)) = some (m, rest) := by
  simp [Mem.read, hx, hv, hi, baseOf_dispForm, DispForm.read_dispForm]

theorem Mem.read_plain {x : Rex} {m : Mem} (hx : x.rm = m.base.number &&& 8)
    (h4 : m.base.number &&& 7 ≠ 4) (hi : m.index = none) (rest : List UInt8) :
    Mem.read x m.dispForm (m.base.number &&& 7) (m.dispForm.bytes m.disp ++ rest) =
      some (m, rest) := by
  have hm : (⟨m.base, none, m.disp⟩ : Mem) = m := by rw [← hi]
  simp [Mem.read, h4, hx, baseOf_dispForm, DispForm.read_dispForm, hm]

/-- **Operands are read back**, in registers and in memory, with any base, index, scale and
displacement. -/
theorem Operand.read_bytes {field : UInt8} (hf : field < 16) (wide : Bool) {rm : Operand}
    (h : rm.encodable = true) (rest : List UInt8) :
    Operand.read (.of wide field rm.index rm.base) (rm.bytes field ++ rest) =
      some (field, rm, rest) := by
  have hfield : ∀ x b, field &&& 7 ||| (Rex.of wide field x b).reg = field :=
    fun _ _ => join_number hf
  cases rm with
  | reg r =>
    obtain ⟨h6, h3, h7⟩ := modRM_fields (by decide : (3 : UInt8) < 4) field r.number
    have hr : r.number &&& 7 ||| (Rex.of wide field 0 r.number).rm = r.number :=
      join_number r.number_lt
    simp [Operand.read, Operand.bytes, Operand.base, Operand.index, h6, h3, h7, hfield, hr,
      Reg.ofNumber_number]
  | mem m =>
    have h4 : (4 : UInt8) &&& 7 = 4 := rfl
    have hrm : ∀ x, (Rex.of wide field x m.base.number).rm = m.base.number &&& 8 := fun _ => rfl
    simp only [Operand.base, Operand.bytes, Mem.bytes]
    cases hidx : m.index with
    | some p =>
      obtain ⟨i, shift⟩ := p
      obtain ⟨hi, hs⟩ : i ≠ .rsp ∧ shift ≤ 3 := by
        simpa [Operand.encodable, Mem.encodable, hidx] using h
      have h7 : sib shift i.number m.base.number &&& 7 = m.base.number &&& 7 :=
        (modRM_fields (Nat.lt_succ_of_le hs : shift < 4) i.number m.base.number).2.2
      have hsib := (indexOf_sib wide field m.base.number m.base.number hi hs).trans
        (congrArg some hidx.symm)
      have hx : Operand.index (.mem m) = i.number := by simp [Operand.index, hidx]
      simp [hx, Operand.read_cons, hfield, h4, Mem.read_sib (hrm _) h7 hsib]
    | none =>
      have hx : Operand.index (.mem m) = 0 := by simp [Operand.index, hidx]
      rw [hx]
      -- The field 4 announces a SIB byte, so `rsp` and `r12` have one even without an index.
      by_cases hb : m.base.low3 = 4
      · have hnone : indexOf (.of wide field 0 m.base.number) 0x24 = some m.index := by
          have hn : (((0x24 : UInt8) >>> 3) &&& 7) ||| (0 &&& 8) = 4 := by decide
          rw [hidx, indexOf, Rex.of, hn]
          rfl
        simp [hb, Operand.read_cons, hfield, h4, Mem.read_sib (hrm _) hb.symm hnone]
      · simp [hb, Operand.read_cons, hfield, Mem.read_plain (hrm _) hb hidx]

/-! ### Instructions -/

section

variable (wide : Bool) {rm : Operand} (h : rm.encodable = true) (rest : List UInt8)

include h

theorem readRegRm_bytes (r : Reg) (f : Reg → Operand → Instr) :
    readRegRm (.of wide r.number rm.index rm.base) (rm.bytes r.number ++ rest) f =
      some (f r rm, rest) := by
  simp [readRegRm, Operand.read_bytes r.number_lt wide h, Reg.ofNumber_number]

/-- A digit of the opcode takes the field of a register, and is read back from there. -/
theorem readDigitRm_bytes {digit : UInt8} (hd : digit < 8)
    (f : UInt8 → Operand → List UInt8 → Option (Instr × List UInt8)) :
    readDigitRm (.of wide digit rm.index rm.base) (rm.bytes digit ++ rest) f = f digit rm rest := by
  have hlt : digit < 16 := Nat.lt_trans hd (by decide : (8 : UInt8) < 16)
  have hlow : digit &&& 7 = digit := by
    have key : ∀ n : Fin 8, UInt8.ofNat n &&& 7 = UInt8.ofNat n := by decide
    simpa using key ⟨digit.toNat, hd⟩
  simp [readDigitRm, Operand.read_bytes hlt wide h, hlow]

end

/-- Decoding goes through the prefix and the opcode byte to the operand, for all opcodes of one
byte. -/
theorem decode_withRm {byte : UInt8} (w : Width) {field : UInt8} (hf : field < 16) (rm : Operand)
    (hrex : Rex.ofByte byte = none) (h0F : byte ≠ 0x0F) (rest : List UInt8) :
    Instr.decode ((OpByte.sized byte w).withRm field rm ++ rest) =
      decodeOp (.of (decide (w = .w64)) field rm.index rm.base) byte (rm.bytes field ++ rest) := by
  have ho : (OpByte.sized byte w).escape = false := rfl
  rw [OpByte.withRm_eq, List.append_assoc]
  exact decode_bytes hf rm.index_lt rm.base_lt ho hrex h0F _

theorem Rex.width_of (w : Width) (r x b : UInt8) :
    (Rex.of (decide (w = .w64)) r x b).width = w := by
  cases w <;> rfl

/-- Whether an instruction has an encoding. -/
def Instr.encodable : Instr → Bool
  | aluRegRm _ _ _ rm | aluRmReg _ _ rm _ | aluRmImm _ _ rm _ | neg _ rm | inc _ rm
  | shiftImm _ _ rm _ | testRmReg _ rm _ | testRmImm _ rm _ | movRmReg _ rm _ | movRegRm _ _ rm
  | movRmImm _ rm _ | jmpRm rm | callRm rm => rm.encodable
  | lea _ _ m | movExtend _ _ (.mem m) => m.encodable
  | movExtend _ _ (.reg _) => false
  | movRegImm32 .. | movRegImm64 .. | branch .. | push _ | pop _ | pushImm _ | ret => true

theorem AluOp.ofNumber_number (op : AluOp) : AluOp.ofNumber op.number = some op := by
  cases op <;> rfl

theorem ShiftOp.ofNumber_number (op : ShiftOp) : ShiftOp.ofNumber op.number = some op := by
  cases op <;> rfl

theorem decodeOp_aluRmReg (op : AluOp) (x : Rex) (bs : List UInt8) :
    decodeOp x ((op.number <<< 3) + 0x01) bs =
      readRegRm x bs fun r rm => .aluRmReg op x.width rm r := by
  have h1 : ((op.number <<< 3) + 0x01) &&& 0xC7 = 0x01 := by cases op <;> decide
  have hop : ((op.number <<< 3) + 0x01) >>> 3 = op.number := by cases op <;> decide
  simp [decodeOp, h1, hop, AluOp.ofNumber_number]

theorem decodeOp_aluRegRm (op : AluOp) (x : Rex) (bs : List UInt8) :
    decodeOp x ((op.number <<< 3) + 0x03) bs = readRegRm x bs (.aluRegRm op x.width) := by
  have h3 : ((op.number <<< 3) + 0x03) &&& 0xC7 = 0x03 := by cases op <;> decide
  have hop : ((op.number <<< 3) + 0x03) >>> 3 = op.number := by cases op <;> decide
  simp [decodeOp, h3, hop, AluOp.ofNumber_number]

/-- Whether an opcode without escape byte is neither arithmetic nor holds a register. -/
def isListed (byte : UInt8) : Bool :=
  byte &&& 0xC7 != 0x01 && byte &&& 0xC7 != 0x03 && byte &&& 0xF8 != 0x50
    && byte &&& 0xF8 != 0x58 && byte &&& 0xF8 != 0xB8 && byte != 0x0F && (Rex.ofByte byte).isNone

/-- The opcodes with an operand are told apart by a list of their bytes. -/
theorem decode_listed {byte : UInt8} (hl : isListed byte = true) (w : Width) {field : UInt8}
    (hf : field < 16) (rm : Operand) (rest : List UInt8) :
    Instr.decode ((OpByte.sized byte w).withRm field rm ++ rest) =
      decodeListed (.of (decide (w = .w64)) field rm.index rm.base) byte
        (rm.bytes field ++ rest) := by
  simp only [isListed, Bool.and_eq_true, bne_iff_ne, Option.isNone_iff_eq_none] at hl
  obtain ⟨⟨⟨⟨⟨⟨h1, h3⟩, hpush⟩, hpop⟩, hmov⟩, h0F⟩, hrex⟩ := hl
  rw [decode_withRm w hf rm hrex h0F]
  simp [decodeOp, h1, h3, hpush, hpop, hmov]

/-- An opcode with a register in its low three bits is told by the others. -/
theorem low_reg_fields {byte : UInt8} (hb : byte = 0x50 ∨ byte = 0x58 ∨ byte = 0xB8) (r : Reg) :
    Rex.ofByte (byte + r.low3) = none ∧ byte + r.low3 ≠ 0x0F ∧
      (byte + r.low3) &&& 0xC7 ≠ 0x01 ∧ (byte + r.low3) &&& 0xC7 ≠ 0x03 ∧
      (byte + r.low3) &&& 0xF8 = byte ∧ (byte + r.low3) &&& 7 = r.number &&& 7 := by
  rcases hb with rfl | rfl | rfl <;> cases r <;> decide

/-- Three opcodes hold their register in the opcode byte itself; its upper bit is in the prefix. -/
theorem decode_withReg {byte : UInt8} (hb : byte = 0x50 ∨ byte = 0x58 ∨ byte = 0xB8) (w : Width)
    (r : Reg) (rest : List UInt8) :
    Instr.decode ((OpByte.sized byte w).withReg r ++ rest) =
      if byte = 0x50 then some (.push r, rest)
      else if byte = 0x58 then some (.pop r, rest)
      else decodeMovImm (.of (decide (w = .w64)) 0 0 r.number) r rest := by
  obtain ⟨hrex, h0F, h1, h3, hbyte, hlow⟩ := low_reg_fields hb r
  have hreg : lowReg (.of (decide (w = .w64)) 0 0 r.number) (byte + r.low3) = some r := by
    rw [lowReg, hlow, Rex.of, join_number r.number_lt, Reg.ofNumber_number]
  have hdecode : Instr.decode ((OpByte.sized byte w).withReg r ++ rest) =
      decodeOp (.of (decide (w = .w64)) 0 0 r.number) (byte + r.low3) rest :=
    decode_bytes (by decide) (by decide) r.number_lt rfl hrex h0F rest
  rw [hdecode, decodeOp, if_neg h1, if_neg h3, hbyte, hreg]
  rcases hb with rfl | rfl | rfl <;> rfl

/-- Branches are read back with their displacement as it stands, whether or not it leads
anywhere. -/
theorem Instr.decode_branch (b : Branch) (disp : UInt32) (rest : List UInt8) :
    Instr.decode ((Instr.branch b disp).encode ++ rest) = some (.branch b disp, rest) := by
  have hread : ∀ bs, Instr.decode (b.bytes ++ bs) =
      (readDword bs).bind fun x => some (.branch b x.1, x.2) := by
    intro bs
    rcases b with _ | _ | c
    · exact Option.map_eq_bind
    · exact Option.map_eq_bind
    · cases c <;> rfl
  rw [encode, List.append_assoc, hread, readDword_append]
  rfl

/-- **An instruction is read back as it was encoded.** The bytes that come after it stay as they
are, so that code is read instruction by instruction. One case for each kind of instruction, with a
lemma for operands and one for immediates. -/
theorem Instr.decode_encode {i : Instr} (h : i.encodable = true) (rest : List UInt8) :
    Instr.decode (i.encode ++ rest) = some (i, rest) := by
  cases i with
  | aluRegRm op w dst src =>
    rw [encode, decode_withRm w dst.number_lt src (by cases op <;> rfl) (by cases op <;> decide),
      decodeOp_aluRegRm, readRegRm_bytes _ h, Rex.width_of]
  | aluRmReg op w dst src =>
    rw [encode, decode_withRm w src.number_lt dst (by cases op <;> rfl) (by cases op <;> decide),
      decodeOp_aluRmReg, readRegRm_bytes _ h, Rex.width_of]
  | aluRmImm op w dst imm =>
    have hop : op.number < 8 := by cases op <;> decide
    rw [encode]
    split
    · next hfit =>
      rw [List.append_assoc, decode_listed (by decide) w (by cases op <;> decide) dst]
      simp [decodeListed, readDigitRm_bytes _ h _ hop, readByte_append hfit,
        AluOp.ofNumber_number, Rex.width_of]
    · rw [List.append_assoc, decode_listed (by decide) w (by cases op <;> decide) dst]
      simp [decodeListed, readDigitRm_bytes _ h _ hop, readDword_append,
        AluOp.ofNumber_number, Rex.width_of]
  | neg w dst =>
    rw [encode, decode_listed (by decide) w (by decide) dst]
    simp [decodeListed, readDigitRm_bytes _ h _ (by decide : (3 : UInt8) < 8), decodeF7,
      Rex.width_of]
  | inc w dst =>
    rw [encode, decode_listed (by decide) w (by decide) dst]
    simp [decodeListed, readDigitRm_bytes _ h _ (by decide : (0 : UInt8) < 8), decodeFF,
      Rex.width_of]
  | shiftImm op w dst count =>
    have hop : op.number < 8 := by cases op <;> decide
    rw [encode]
    split
    · next hone =>
      rw [decode_listed (by decide) w (by cases op <;> decide) dst]
      simp [decodeListed, readDigitRm_bytes _ h _ hop, ShiftOp.ofNumber_number, Rex.width_of, hone]
    · rw [List.append_assoc, decode_listed (by decide) w (by cases op <;> decide) dst]
      simp [decodeListed, readDigitRm_bytes _ h _ hop, readNumber_one,
        ShiftOp.ofNumber_number, Rex.width_of]
  | testRmReg w rm reg =>
    rw [encode, decode_listed (by decide) w reg.number_lt rm]
    simp [decodeListed, readRegRm_bytes _ h, Rex.width_of]
  | testRmImm w rm imm =>
    rw [encode, List.append_assoc, decode_listed (by decide) w (by decide) rm]
    simp [decodeListed, readDigitRm_bytes _ h _ (by decide : (0 : UInt8) < 8), decodeF7,
      readDword_append, Rex.width_of]
  | movRmReg w dst src =>
    rw [encode, decode_listed (by decide) w src.number_lt dst]
    simp [decodeListed, readRegRm_bytes _ h, Rex.width_of]
  | movRegRm w dst src =>
    rw [encode, decode_listed (by decide) w dst.number_lt src]
    simp [decodeListed, readRegRm_bytes _ h, Rex.width_of]
  | movRmImm w dst imm =>
    rw [encode, List.append_assoc, decode_listed (by decide) w (by decide) dst]
    simp [decodeListed, readDigitRm_bytes _ h _ (by decide : (0 : UInt8) < 8),
      readDword_append, Rex.width_of]
  | movRegImm32 dst imm =>
    rw [encode, List.append_assoc, decode_withReg (by decide)]
    simp [decodeMovImm, Rex.of, readDword_append]
  | movRegImm64 dst imm =>
    rw [encode, List.append_assoc, decode_withReg (by decide)]
    simp [decodeMovImm, Rex.of, readQword_append]
  | lea w dst src =>
    rw [encode, decode_listed (by decide) w dst.number_lt]
    have hm : (Operand.mem src).encodable = true := h
    simp [decodeListed, Operand.read_bytes dst.number_lt _ hm, Reg.ofNumber_number, Rex.width_of]
  | movExtend ext dst src =>
    cases src with
    | reg r => cases h
    | mem m =>
      have h' : (Operand.mem m).encodable = true := h
      rw [encode, OpByte.withRm_eq, List.append_assoc]
      cases ext with
      | zeroByte =>
        rw [decode_bytes_escape dst.number_lt (Operand.index_lt _) (Operand.base_lt _) rfl rfl]
        exact readRegRm_bytes false h' rest dst _
      | zeroWord =>
        rw [decode_bytes_escape dst.number_lt (Operand.index_lt _) (Operand.base_lt _) rfl rfl]
        exact readRegRm_bytes false h' rest dst _
      | signDword =>
        -- The only extension whose opcode has no escape byte.
        rw [← List.append_assoc, ← OpByte.withRm_eq]
        refine (decode_listed (by decide : isListed 0x63 = true) .w64 dst.number_lt _ _).trans ?_
        simp [decodeListed, Rex.of]
        exact readRegRm_bytes true h' rest dst _
  | branch b disp => exact decode_branch b disp rest
  | jmpRm target =>
    rw [encode, decode_listed (by decide) .w32 (by decide) target]
    simp [decodeListed, readDigitRm_bytes _ h _ (by decide : (4 : UInt8) < 8), decodeFF]
  | callRm target =>
    rw [encode, decode_listed (by decide) .w32 (by decide) target]
    simp [decodeListed, readDigitRm_bytes _ h _ (by decide : (2 : UInt8) < 8), decodeFF]
  | push r => exact decode_withReg (by decide) .w32 r rest
  | pop r => exact decode_withReg (by decide) .w32 r rest
  | pushImm imm =>
    rw [encode]
    split
    · next hfit =>
      have hread : Instr.decode (0x6A :: imm.toUInt32.toUInt8 :: rest) =
        (readByte (imm.toUInt32.toUInt8 :: rest)).map fun x => (.pushImm x.1, x.2) := rfl
      refine hread.trans ?_
      rw [readByte_append hfit]
      rfl
    · have hread : Instr.decode (0x68 :: (bytes32 imm.toUInt32 ++ rest)) =
        (readDword (bytes32 imm.toUInt32 ++ rest)).map fun x => (.pushImm x.1.toInt32, x.2) :=
        rfl
      refine hread.trans ?_
      rw [readDword_append]
      rfl
  | ret => rfl

/-- What is left of a word is its remainder. -/
theorem Width.toNat_trunc (w : Width) (v : UInt64) : (w.trunc v).toNat = v.toNat % w.count := by
  cases w <;> simp [trunc, count]

namespace Instr

theorem encode_ne_nil {i : Instr} (h : i.encodable = true) : i.encode ≠ [] := by
  intro hnil
  have hd := decode_encode h []
  rw [hnil] at hd
  cases hd

/-- A row of instructions is read back one after another, for each leaves exactly the bytes of the
rest over. -/
theorem sweep_flatMap {is : List Instr} (h : ∀ i ∈ is, i.encodable = true) {fuel : Nat}
    (hf : (is.flatMap encode).length ≤ fuel) : sweep fuel (is.flatMap encode) = some is := by
  induction is generalizing fuel with
  | nil => cases fuel <;> rfl
  | cons i is ih =>
    have hi : i.encodable = true := h i List.mem_cons_self
    obtain ⟨v, bs, hv⟩ := List.exists_cons_of_ne_nil (encode_ne_nil hi)
    have hd := decode_encode hi (is.flatMap encode)
    rw [List.flatMap_cons] at hf ⊢
    rw [hv, List.cons_append] at hd hf ⊢
    rw [List.length_cons, List.length_append] at hf
    -- An encoding is not empty, so one unit of fuel for each byte is enough.
    obtain ⟨n, rfl⟩ : ∃ n, fuel = n + 1 := ⟨fuel - 1, by omega⟩
    have hrest : sweep n (is.flatMap encode) = some is :=
      ih (fun j hj => h j (List.mem_cons_of_mem _ hj)) (by omega)
    rw [sweep, hd]
    simp [hrest]

/-- **A row of encoded instructions is split where it was joined.** -/
theorem decodeAll_flatMap {is : List Instr} (h : ∀ i ∈ is, i.encodable = true) :
    decodeAll (is.flatMap encode) = some is :=
  sweep_flatMap h (Nat.le_refl _)

/-! ### Constants -/

/-- The load of a constant has an encoding, whichever of its four forms is the shortest. -/
theorem encodable_loadConst (w : Width) (dst : Reg) (v : UInt64) :
    (loadConst w dst v).encodable = true := by
  unfold loadConst
  split
  · rfl
  · split
    · rfl
    · split <;> rfl

/-- A constant within 32 signed bits is restored by the extension of its sign. -/
theorem immediate_of_range {v : UInt64}
    (h : -2147483648 ≤ v.toInt64.toInt ∧ v.toInt64.toInt ≤ 2147483647) :
    immediate .w64 v.toInt64.toInt32 = v := by
  have : v.toInt64.toInt32.toInt64 = v.toInt64 := by
    apply Int64.toInt_inj.mp
    rw [Int32.toInt_toInt64, Int64.toInt_toInt32]
    apply Int.bmod_eq_of_le <;> omega
  simp [immediate, Width.trunc, this]

theorem setReg_eq_of_trunc_eq {w w' : Width} {v v' : UInt64} (h : w.trunc v = w'.trunc v')
    (m : Machine) (r : Reg) : m.setReg w r v = m.setReg w' r v' := by
  simp [Machine.setReg, h]

/-- **The load of a constant leaves the constant**, whichever of its forms was chosen: clearing the
register, an immediate of 32 bits with or without a sign, or the whole word. Only the first of them
changes the flags. -/
theorem exec_loadConst (w : Width) (dst : Reg) (v : UInt64) (next : UInt64) (m : Machine) :
    ∃ f, (loadConst w dst v).exec next m = ((m.setReg w dst v).setFlags f, next) := by
  unfold loadConst
  split
  · next h0 =>
    -- An exclusive or of the register with itself, the only form that sets the flags.
    obtain rfl := h0
    refine ⟨(logicWord .w32 0).2, ?_⟩
    have hset : m.setReg .w32 dst 0 = m.setReg w dst 0 :=
      setReg_eq_of_trunc_eq (by cases w <;> rfl) m dst
    simp [exec, Machine.alu, AluOp.apply, AluOp.writes, logicWord, Machine.put, hset]
  · split
    · next h32 =>
      -- A 32-bit move clears the upper half.
      have hset : m.setReg .w32 dst v.toUInt32.toUInt64 = m.setReg w dst v := by
        refine setReg_eq_of_trunc_eq ?_ m dst
        apply UInt64.toNat_inj.mp
        rw [Width.toNat_trunc, Width.toNat_trunc]
        rcases h32 with rfl | hlt
        · simp [Width.count]
        · cases w <;> simp [Width.count]
          omega
      exact ⟨m.flags, by rw [exec, hset]; rfl⟩
    · split
      · next h32 hrange =>
        obtain rfl : w = .w64 := by
          cases w with
          | w32 => exact absurd (Or.inl rfl) h32
          | w64 => rfl
        exact ⟨m.flags, by rw [exec, immediate_of_range hrange]; rfl⟩
      · next h32 _ =>
        obtain rfl : w = .w64 := by
          cases w with
          | w32 => exact absurd (Or.inl rfl) h32
          | w64 => rfl
        exact ⟨m.flags, rfl⟩

end Instr

/-! ### Branches -/

theorem emod_emod_word (x : Int) : x % 18446744073709551616 % 4294967296 = x % 4294967296 := by
  omega

/-- Reading a size as a signed word does not change its lower half. -/
theorem emod_signed64 (n : Nat) : Label.signed64 n % 4294967296 = (n : Int) % 4294967296 := by
  have h := @Int.bmod_emod n 18446744073709551616
  rw [← emod_emod_word, ← emod_emod_word n]
  exact congrArg (· % 4294967296) h

theorem toNat_ofInt (x : Int) : ((UInt32.ofInt x).toNat : Int) = x % 4294967296 := by
  have h : (UInt32.ofInt x).toNat = (x % 4294967296).toNat % 4294967296 := by
    simp [UInt32.ofInt]
  omega

namespace Branch

variable {b : Branch} {here target : Nat}

/-- A branch between two code offsets has their distance modulo `2 ^ 32`. -/
theorem between_eq {i : Instr} (h : b.between here target = .ok i) :
    ∃ disp, i = .branch b disp ∧
      (disp.toNat : Int) = ((target : Int) - (here + b.bytes.length + 4 : Nat)) % 4294967296 := by
  simp only [between, Label.distance, Label.word64] at h
  split at h
  · obtain rfl := Except.ok.inj h
    refine ⟨_, rfl, ?_⟩
    rw [toNat_ofInt, Int.sub_emod, emod_signed64, emod_signed64, ← Int.sub_emod]
  · cases h

/-- There is a branch between any two code offsets of an address space. -/
theorem exists_between (hhere : here + b.bytes.length + 4 < 2 ^ 63) (htarget : target < 2 ^ 63) :
    ∃ i, b.between here target = .ok i := by
  have hsigned : ∀ n : Nat, n < 2 ^ 63 → Label.signed64 n = n := by
    intro n hn
    exact Int.bmod_eq_of_le (by omega) (by omega)
  refine ⟨.branch b (UInt32.ofInt ((target : Int) - (here + b.bytes.length + 4 : Nat))), ?_⟩
  simp only [between, Label.distance, hsigned _ hhere, hsigned _ htarget]
  rw [Label.word64, if_pos (by omega)]
  rfl

end Branch

theorem Instr.length_encode_branch (b : Branch) (disp : UInt32) :
    (Instr.branch b disp).encode.length = b.bytes.length + 4 := by
  simp [encode]

/-! ### The whole instruction set -/

/-- **The processor reads what was emitted.** An instruction with an encoding is read back with
its operation, width, registers, memory operand and immediate, and no byte beyond it is
touched. A branch is read with the distance to its target modulo `2 ^ 32`, and exists for all
code offsets below `2 ^ 63`. A load of a constant is read as an instruction that goes on with
the next one and leaves the constant, zero-extended, in its register and everything else but
the flags alone. -/
theorem Instr.decode_emitted (rest : List UInt8) :
    (∀ i : Instr, i.encodable = true → Instr.decode (i.encode ++ rest) = some (i, rest)) ∧
    (∀ (b : Branch) (here target : Nat),
      (∀ i, b.between here target = .ok i →
        ∃ disp, Instr.decode (i.encode ++ rest) = some (.branch b disp, rest) ∧
          (disp.toNat : Int) =
            ((target : Int) - (here + i.encode.length : Nat)) % 4294967296) ∧
      (here + b.bytes.length + 4 < 2 ^ 63 → target < 2 ^ 63 →
        ∃ i, b.between here target = .ok i)) ∧
    (∀ (w : Width) (dst : Reg) (v : UInt64),
      ∃ i, Instr.decode ((loadConst w dst v).encode ++ rest) = some (i, rest) ∧
        ∀ (next : UInt64) (m : Machine),
          (i.exec next m).2 = next ∧
          ((i.exec next m).1.regs dst).toNat = v.toNat % w.count ∧
          (∀ r, r ≠ dst → (i.exec next m).1.regs r = m.regs r) ∧
          (i.exec next m).1.mem = m.mem) := by
  refine ⟨fun i h => decode_encode h rest, fun b here target => ⟨fun i h => ?_, ?_⟩, ?_⟩
  · obtain ⟨disp, rfl, hdisp⟩ := Branch.between_eq h
    refine ⟨disp, decode_encode rfl rest, ?_⟩
    rw [hdisp, length_encode_branch, Nat.add_assoc]
  · exact Branch.exists_between
  · intro w dst v
    refine ⟨loadConst w dst v, decode_encode (encodable_loadConst w dst v) rest, ?_⟩
    intro next m
    obtain ⟨f, hexec⟩ := exec_loadConst w dst v next m
    rw [hexec]
    refine ⟨rfl, ?_, fun r hr => m.regs_setReg_of_ne hr, rfl⟩
    rw [Machine.regs_setFlags, Machine.regs_setReg_self, Width.toNat_trunc]

/-- An address with everything an encoding can need: a base that takes a displacement, an index
with a fourth bit, and more than a signed byte; and a branch back over it. -/
theorem Instr.decode_emitted_lea :
    (Instr.lea .w64 .r15 ⟨.r13, some (.r12, 3), 128⟩).encodable = true ∧
    Instr.decode [0x4F, 0x8D, 0xBC, 0xE5, 0x80, 0x00, 0x00, 0x00, 0xC3] =
      some (.lea .w64 .r15 ⟨.r13, some (.r12, 3), 128⟩, [0xC3]) ∧
    ∃ i, Branch.jmp.between 8 0 = .ok i :=
  ⟨rfl, (Instr.decode_emitted [0xC3]).1 (.lea .w64 .r15 ⟨.r13, some (.r12, 3), 128⟩) rfl,
    ((Instr.decode_emitted [0xC3]).2.1 .jmp 8 0).2 (by decide) (by decide)⟩

end NativeMatcher.X64
