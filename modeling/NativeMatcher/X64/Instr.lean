import NativeMatcher.Fault
import NativeMatcher.X64.Reg

/-!
# Machine instructions

The instructions a matcher is made of, one constructor for each form of the
instruction set that is used. A form fixes which operand may lie in memory: the
*r/m* operand of a form is a register or a memory operand, every other operand is
a register or an immediate. What a form leaves open – the short or the long
immediate, the size of a displacement – is decided by
`NativeMatcher.X64.Instr.encode`.

Loading a constant has no form of its own; `NativeMatcher.X64.Instr.loadConst`
chooses the shortest of four.
-/

namespace NativeMatcher.X64

/-- The size of an operation. A 32-bit result clears the upper half of its register. -/
inductive Width where
  | w32 | w64
  deriving DecidableEq, Repr

/-- Two-operand arithmetic, numbered as in the immediate forms. -/
inductive AluOp where
  | add | or | and | sub | xor | cmp
  deriving DecidableEq, Repr

/-- The number of an arithmetic operation. -/
def AluOp.number : AluOp → UInt8
  | add => 0 | or => 1 | and => 4 | sub => 5 | xor => 6 | cmp => 7

/-- Shifts, numbered as in their forms. -/
inductive ShiftOp where
  | shl | shr | sar
  deriving DecidableEq, Repr

/-- The number of a shift. -/
def ShiftOp.number : ShiftOp → UInt8
  | shl => 4 | shr => 5 | sar => 7

/-- The conditions of a conditional jump, in the order of their codes. -/
inductive Cond where
  | o | no | b | ae | e | ne | be | a | s | ns | p | np | l | ge | le | g
  deriving DecidableEq, Repr

namespace Cond

/-- The conditions in the order of their codes. -/
def all : List Cond := [o, no, b, ae, e, ne, be, a, s, ns, p, np, l, ge, le, g]

/-- The code of a condition. -/
def number : Cond → UInt8
  | o => 0 | no => 1 | b => 2 | ae => 3 | e => 4 | ne => 5 | be => 6 | a => 7
  | s => 8 | ns => 9 | p => 10 | np => 11 | l => 12 | ge => 13 | le => 14 | g => 15

end Cond

/-- Control transfers with a 32-bit displacement, counted from the next instruction. -/
inductive Branch where
  | jmp
  | call
  | jcc (c : Cond)
  deriving DecidableEq, Repr

/-- Loads that widen what they read. -/
inductive Extend where
  /-- A byte, with zeros. -/
  | zeroByte
  /-- Two bytes, with zeros. -/
  | zeroWord
  /-- Four bytes, with the sign. -/
  | signDword
  deriving DecidableEq, Repr

/-- The memory operand `base + (index << shift) + disp`. -/
structure Mem where
  /-- The base register. -/
  base : Reg
  /-- The index register and its shift. -/
  index : Option (Reg × UInt8) := none
  /-- The displacement. -/
  disp : Int32 := 0
  deriving DecidableEq, Repr

/-- A memory operand with an index, which cannot be the stack pointer. -/
def Mem.indexed (base index : Reg) (shift : UInt8) (disp : Int32) : Except Fault Mem :=
  if index = .rsp then .error .stackPointerIndex
  else .ok { base := base, index := some (index, shift), disp := disp }

/-- An r/m operand: a register or memory. -/
inductive Operand where
  | reg (r : Reg)
  | mem (m : Mem)
  deriving DecidableEq, Repr

/-- A machine instruction. -/
inductive Instr where
  /-- `op dst, src` with the result in a register. -/
  | aluRegRm (op : AluOp) (w : Width) (dst : Reg) (src : Operand)
  /-- `op dst, src` with a register as source. -/
  | aluRmReg (op : AluOp) (w : Width) (dst : Operand) (src : Reg)
  /-- `op dst, imm`. -/
  | aluRmImm (op : AluOp) (w : Width) (dst : Operand) (imm : Int32)
  /-- `neg dst`. -/
  | neg (w : Width) (dst : Operand)
  /-- `inc dst`. -/
  | inc (w : Width) (dst : Operand)
  /-- A shift by a constant. -/
  | shiftImm (op : ShiftOp) (w : Width) (dst : Operand) (count : UInt8)
  /-- `test rm, reg`. -/
  | testRmReg (w : Width) (rm : Operand) (reg : Reg)
  /-- `test rm, imm`. -/
  | testRmImm (w : Width) (rm : Operand) (imm : UInt32)
  /-- `mov dst, src` with a register as source. -/
  | movRmReg (w : Width) (dst : Operand) (src : Reg)
  /-- `mov dst, src` with a register as destination. -/
  | movRegRm (w : Width) (dst : Reg) (src : Operand)
  /-- `mov dst, imm` with a sign-extended immediate. -/
  | movRmImm (w : Width) (dst : Operand) (imm : Int32)
  /-- `mov dst, imm` with a zero-extended 32-bit immediate. -/
  | movRegImm32 (dst : Reg) (imm : UInt32)
  /-- `mov dst, imm` with a 64-bit immediate. -/
  | movRegImm64 (dst : Reg) (imm : UInt64)
  /-- The address of a memory operand. -/
  | lea (w : Width) (dst : Reg) (src : Mem)
  /-- A widening load. -/
  | movExtend (ext : Extend) (dst : Reg) (src : Operand)
  /-- A branch; `disp` is counted from the next instruction. -/
  | branch (b : Branch) (disp : UInt32)
  /-- A jump to the address an operand holds. -/
  | jmpRm (target : Operand)
  /-- A call of the address an operand holds. -/
  | callRm (target : Operand)
  /-- `push reg`. -/
  | push (r : Reg)
  /-- `pop reg`. -/
  | pop (r : Reg)
  /-- `push imm` with a sign-extended immediate. -/
  | pushImm (imm : Int32)
  /-- `ret`. -/
  | ret
  deriving DecidableEq, Repr

namespace Instr

/-- The shortest instruction that leaves `v` in a register, zero-extended: clearing
it, a zero-extended 32-bit immediate, a sign-extended one, or all 64 bits. At
`Width.w32` only the lower half of `v` counts. -/
def loadConst (w : Width) (dst : Reg) (v : UInt64) : Instr :=
  if v = 0 then .aluRmReg .xor .w32 (.reg dst) dst
  else if w = .w32 ∨ v.toNat < 4294967296 then .movRegImm32 dst v.toUInt32
  else if -2147483648 ≤ v.toInt64.toInt ∧ v.toInt64.toInt ≤ 2147483647 then
    .movRmImm .w64 (.reg dst) v.toInt64.toInt32
  else .movRegImm64 dst v

/-! ### Shorthands -/

/-- `op dst, src` on registers. -/
def alu (op : AluOp) (w : Width) (dst src : Reg) : Instr := .aluRegRm op w dst (.reg src)

/-- `op dst, [base + disp]`. -/
def aluLoad (op : AluOp) (w : Width) (dst base : Reg) (disp : Int32) : Instr :=
  .aluRegRm op w dst (.mem { base := base, disp := disp })

/-- `op [base + disp], src`. -/
def aluStore (op : AluOp) (w : Width) (base : Reg) (disp : Int32) (src : Reg) : Instr :=
  .aluRmReg op w (.mem { base := base, disp := disp }) src

/-- `op dst, imm` on a register. -/
def aluImm (op : AluOp) (w : Width) (dst : Reg) (imm : Int32) : Instr :=
  .aluRmImm op w (.reg dst) imm

/-- `op [base + disp], imm`. -/
def aluImmStore (op : AluOp) (w : Width) (base : Reg) (disp imm : Int32) : Instr :=
  .aluRmImm op w (.mem { base := base, disp := disp }) imm

/-- `test a, b` on registers. -/
def test (w : Width) (a b : Reg) : Instr := .testRmReg w (.reg b) a

/-- `mov dst, src` on registers. -/
def mov (w : Width) (dst src : Reg) : Instr := .movRmReg w (.reg dst) src

/-- `mov dst, [base + disp]`. -/
def load (w : Width) (dst base : Reg) (disp : Int32) : Instr :=
  .movRegRm w dst (.mem { base := base, disp := disp })

/-- `mov [base + disp], src`. -/
def store (w : Width) (src base : Reg) (disp : Int32) : Instr :=
  .movRmReg w (.mem { base := base, disp := disp }) src

/-- `mov [base + disp], imm`. -/
def storeImm (w : Width) (base : Reg) (disp imm : Int32) : Instr :=
  .movRmImm w (.mem { base := base, disp := disp }) imm

/-- The address `base + disp`. -/
def leaAt (w : Width) (dst base : Reg) (disp : Int32) : Instr :=
  .lea w dst { base := base, disp := disp }

end Instr

end NativeMatcher.X64
