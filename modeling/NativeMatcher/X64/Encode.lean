import NativeMatcher.Code.Bytes
import NativeMatcher.Label
import NativeMatcher.X64.Instr

/-!
# Instruction encodings

The bytes of an instruction: an optional REX byte, an optional escape byte, the
opcode, and then – for a form with an r/m operand – a ModR/M byte, an optional SIB
byte, a displacement, and the immediate.

Three rules decide the shape of a memory operand. A zero displacement is left out,
except with `rbp` or `r13` as base, where the encoding without displacement means
something else; a displacement that fits a signed byte takes one byte; and `rsp` or
`r12` as base always takes a SIB byte. Immediates of arithmetic likewise take one
byte when they fit.
-/

namespace NativeMatcher.X64

open Code

/-- An opcode byte with what precedes it. -/
structure OpByte where
  /-- The byte. -/
  byte : UInt8
  /-- Whether the escape byte `0F` stands before it. -/
  escape : Bool := false
  /-- Whether the operation is on 64 bits. -/
  wide : Bool := false
  deriving DecidableEq, Repr

/-- An opcode for operations of width `w`. -/
def OpByte.sized (byte : UInt8) (w : Width) : OpByte :=
  { byte := byte, wide := w = .w64 }

/-- Whether a word fits a signed byte. -/
def fitsByte (x : Int32) : Bool := -128 ≤ x.toInt && x.toInt ≤ 127

/-- The ModR/M byte. -/
def modRM (mode field rm : UInt8) : UInt8 :=
  (mode <<< 6) ||| ((field &&& 7) <<< 3) ||| (rm &&& 7)

/-- The SIB byte. -/
def sib (shift index base : UInt8) : UInt8 :=
  (shift <<< 6) ||| ((index &&& 7) <<< 3) ||| (base &&& 7)

/-- The REX byte, when one of its bits is set, the escape byte and the opcode. The
numbers `r`, `x` and `b` are those of the registers in the reg field, the index and
the r/m field; their fourth bits go into the REX byte. -/
def OpByte.bytes (o : OpByte) (r x b : UInt8) : List UInt8 :=
  let wide : UInt8 := if o.wide then 8 else 0
  let rex := wide ||| ((r >>> 3) <<< 2) ||| ((x >>> 3) <<< 1) ||| (b >>> 3)
  (if rex = 0 then [] else [0x40 ||| rex]) ++ (if o.escape then [0x0F] else []) ++ [o.byte]

/-- How a displacement is written, as the mode bits of the ModR/M byte. -/
inductive DispForm where
  | none | byte | dword
  deriving DecidableEq, Repr

/-- The form of a memory operand's displacement. -/
def Mem.dispForm (m : Mem) : DispForm :=
  if m.disp = 0 ∧ m.base.low3 ≠ 5 then .none
  else if fitsByte m.disp then .byte
  else .dword

/-- The mode bits of a displacement form. -/
def DispForm.mode : DispForm → UInt8
  | none => 0
  | byte => 1
  | dword => 2

/-- The bytes of a displacement. -/
def DispForm.bytes (f : DispForm) (disp : Int32) : List UInt8 :=
  match f with
  | none => []
  | byte => [disp.toUInt32.toUInt8]
  | dword => bytes32 disp.toUInt32

/-- The ModR/M byte, SIB byte and displacement of a memory operand; `field` is the
reg field. -/
def Mem.bytes (m : Mem) (field : UInt8) : List UInt8 :=
  let form := m.dispForm
  (match m.index with
    | some (i, shift) => [modRM form.mode field 4, sib shift i.number m.base.number]
    | none =>
      if m.base.low3 = 4 then [modRM form.mode field 4, 0x24]
      else [modRM form.mode field m.base.number])
    ++ form.bytes m.disp

/-- An opcode and its r/m operand; `field` is the reg field, a register number or an
extension of the opcode. -/
def OpByte.withRm (o : OpByte) (field : UInt8) : Operand → List UInt8
  | .reg r => o.bytes field 0 r.number ++ [modRM 3 field r.number]
  | .mem m =>
    o.bytes field ((m.index.map fun p => p.1.number).getD 0) m.base.number ++ m.bytes field

/-- An opcode with a register in its low three bits. -/
def OpByte.withReg (o : OpByte) (r : Reg) : List UInt8 :=
  { o with byte := o.byte + r.low3 }.bytes 0 0 r.number

/-- The opcode of a widening load. -/
def Extend.opByte : Extend → OpByte
  | zeroByte => { byte := 0xB6, escape := true }
  | zeroWord => { byte := 0xB7, escape := true }
  | signDword => { byte := 0x63, wide := true }

/-- The opcode bytes of a branch, without its displacement. -/
def Branch.bytes : Branch → List UInt8
  | jmp => [0xE9]
  | call => [0xE8]
  | jcc c => [0x0F, 0x80 + c.number]

/-- The bytes of an instruction. -/
def Instr.encode : Instr → List UInt8
  | aluRegRm op w dst src => (OpByte.sized ((op.number <<< 3) + 0x03) w).withRm dst.number src
  | aluRmReg op w dst src => (OpByte.sized ((op.number <<< 3) + 0x01) w).withRm src.number dst
  | aluRmImm op w dst imm =>
    if fitsByte imm then
      (OpByte.sized 0x83 w).withRm op.number dst ++ [imm.toUInt32.toUInt8]
    else
      (OpByte.sized 0x81 w).withRm op.number dst ++ bytes32 imm.toUInt32
  | neg w dst => (OpByte.sized 0xF7 w).withRm 3 dst
  | inc w dst => (OpByte.sized 0xFF w).withRm 0 dst
  | shiftImm op w dst count =>
    if count = 1 then (OpByte.sized 0xD1 w).withRm op.number dst
    else (OpByte.sized 0xC1 w).withRm op.number dst ++ [count]
  | testRmReg w rm reg => (OpByte.sized 0x85 w).withRm reg.number rm
  | testRmImm w rm imm => (OpByte.sized 0xF7 w).withRm 0 rm ++ bytes32 imm
  | movRmReg w dst src => (OpByte.sized 0x89 w).withRm src.number dst
  | movRegRm w dst src => (OpByte.sized 0x8B w).withRm dst.number src
  | movRmImm w dst imm => (OpByte.sized 0xC7 w).withRm 0 dst ++ bytes32 imm.toUInt32
  | movRegImm32 dst imm => (OpByte.sized 0xB8 .w32).withReg dst ++ bytes32 imm
  | movRegImm64 dst imm => (OpByte.sized 0xB8 .w64).withReg dst ++ bytes64 imm
  | lea w dst src => (OpByte.sized 0x8D w).withRm dst.number (.mem src)
  | movExtend ext dst src => ext.opByte.withRm dst.number src
  | branch b disp => b.bytes ++ bytes32 disp
  | jmpRm target => (OpByte.sized 0xFF .w32).withRm 4 target
  | callRm target => (OpByte.sized 0xFF .w32).withRm 2 target
  | push r => (OpByte.sized 0x50 .w32).withReg r
  | pop r => (OpByte.sized 0x58 .w32).withReg r
  | pushImm imm =>
    if fitsByte imm then [0x6A, imm.toUInt32.toUInt8] else 0x68 :: bytes32 imm.toUInt32
  | ret => [0xC3]

/-- The branch at code offset `here` that goes to code offset `target`. -/
def Branch.between (b : Branch) (here target : Nat) : Except Fault Instr := do
  let next := here + b.bytes.length + 4
  let d ← Label.distance (Label.signed64 next) target
  return .branch b (UInt32.ofInt d)

/-- An opcode takes at least one byte. -/
theorem OpByte.bytes_ne_nil (o : OpByte) (r x b : UInt8) : o.bytes r x b ≠ [] := by
  simp [OpByte.bytes]

end NativeMatcher.X64
