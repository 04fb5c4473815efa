import NativeMatcher.Code.Bytes
import NativeMatcher.X64.Instr

/-!
# The processor

What the instructions of a matcher do to registers, memory and flags. The state has no
code: where an instruction stands matters only to a call, which pushes the address of
the next one, and to a branch, which counts from it. So an instruction is executed
given that address, and yields the address at which execution goes on
(`NativeMatcher.X64.Instr.exec`).

Arithmetic is stated on the numbers that words stand for. A width has `count` values;
a result is reduced modulo `count`, *carry* tells that the unsigned result was out of
range, and *overflow* that the signed one was. What the processor leaves undefined – the
overflow flag of a shift by more than one – keeps its value here, and no matcher reads it.
-/

namespace NativeMatcher.X64

open Code

/-! ### State -/

/-- The condition flags. -/
structure Flags where
  /-- The unsigned result was out of range. -/
  carry : Bool := false
  /-- The lowest byte of the result has an even number of ones. -/
  parity : Bool := false
  /-- The result is zero. -/
  zero : Bool := false
  /-- The result is negative. -/
  sign : Bool := false
  /-- The signed result was out of range. -/
  overflow : Bool := false
  deriving DecidableEq, Repr

/-- Registers, memory and flags. -/
structure Machine where
  /-- The registers. -/
  regs : Reg → UInt64
  /-- The memory, byte by byte. -/
  mem : UInt64 → UInt8
  /-- The flags. -/
  flags : Flags

namespace Width

/-- The number of values of a word. -/
def count : Width → Nat
  | w32 => 4294967296
  | w64 => 18446744073709551616

/-- The number of bytes of a word. -/
def bytes : Width → Nat
  | w32 => 4
  | w64 => 8

/-- A number below `count` read as a signed one. -/
def signed (w : Width) (n : Nat) : Int :=
  if n < w.count / 2 then (n : Int) else (n : Int) - (w.count : Int)

/-- The word that is left of 64 bits. -/
def trunc (w : Width) (v : UInt64) : UInt64 :=
  match w with
  | w32 => v.toUInt32.toUInt64
  | w64 => v

end Width

namespace Machine

variable (m : Machine)

/-- The machine with a register replaced; 32 bits clear the upper half. -/
def setReg (w : Width) (r : Reg) (v : UInt64) : Machine :=
  { m with regs := fun s => if s = r then w.trunc v else m.regs s }

/-- The bytes from an address on. -/
def bytesAt (a : UInt64) : (count : Nat) → List UInt8
  | 0 => []
  | n + 1 => m.mem a :: bytesAt (a + 1) n

/-- The word at an address. -/
def load (w : Width) (a : UInt64) : UInt64 := UInt64.ofNat (ofBytes (m.bytesAt a w.bytes))

/-- The machine with the bytes from an address on replaced. -/
def write (a : UInt64) (bs : List UInt8) : Machine :=
  { m with mem := fun b => (bs[(b - a).toNat]?).getD (m.mem b) }

/-- The machine with the word at an address replaced. -/
def store (w : Width) (a v : UInt64) : Machine := m.write a (toBytes w.bytes v.toNat)

/-- The address of a memory operand. -/
def address (x : Mem) : UInt64 :=
  let index := match x.index with
    | some (r, shift) => m.regs r <<< shift.toUInt64
    | none => 0
  m.regs x.base + index + x.disp.toInt64.toUInt64

/-- The word an operand holds. -/
def read (w : Width) : Operand → UInt64
  | .reg r => w.trunc (m.regs r)
  | .mem x => m.load w (m.address x)

/-- The machine with the word of an operand replaced. -/
def put (w : Width) (o : Operand) (v : UInt64) : Machine :=
  match o with
  | .reg r => m.setReg w r v
  | .mem x => m.store w (m.address x) v

/-- The machine with the flags replaced. -/
def setFlags (f : Flags) : Machine := { m with flags := f }

/-- Pushes a word onto the native stack. -/
def push (v : UInt64) : Machine :=
  let a := m.regs .rsp - 8
  (m.setReg .w64 .rsp a).store .w64 a v

/-- The word on top of the native stack. -/
def top : UInt64 := m.load .w64 (m.regs .rsp)

/-- The machine after the top of the native stack is dropped. -/
def dropTop : Machine := m.setReg .w64 .rsp (m.regs .rsp + 8)

end Machine

/-! ### Arithmetic -/

/-- Whether the lowest byte of a number has an even number of ones. -/
def evenParity (n : Nat) : Bool := ((List.range 8).countP fun i => n.testBit i) % 2 == 0

/-- The flags of a result, given carry and overflow. -/
def Flags.ofResult (w : Width) (r : Nat) (carry overflow : Bool) : Flags where
  carry := carry
  parity := evenParity r
  zero := r == 0
  sign := w.count / 2 ≤ r
  overflow := overflow

/-- The sum of two words and its flags. -/
def addWords (w : Width) (a b : UInt64) : UInt64 × Flags :=
  let r := (a.toNat + b.toNat) % w.count
  (UInt64.ofNat r, .ofResult w r (w.count ≤ a.toNat + b.toNat)
    (w.signed r ≠ w.signed a.toNat + w.signed b.toNat))

/-- The difference of two words and its flags. -/
def subWords (w : Width) (a b : UInt64) : UInt64 × Flags :=
  let r := (a.toNat + (w.count - b.toNat)) % w.count
  (UInt64.ofNat r, .ofResult w r (a.toNat < b.toNat)
    (w.signed r ≠ w.signed a.toNat - w.signed b.toNat))

/-- A bitwise result and its flags. -/
def logicWord (w : Width) (r : UInt64) : UInt64 × Flags := (r, .ofResult w r.toNat false false)

/-- The result of an arithmetic operation and its flags. -/
def AluOp.apply (op : AluOp) (w : Width) (a b : UInt64) : UInt64 × Flags :=
  match op with
  | add => addWords w a b
  | or => logicWord w (a ||| b)
  | and => logicWord w (a &&& b)
  | sub | cmp => subWords w a b
  | xor => logicWord w (a ^^^ b)

/-- Whether an operation keeps its result; a comparison only sets the flags. -/
def AluOp.writes : AluOp → Bool
  | cmp => false
  | _ => true

/-- The result of a shift by `k` and the bit shifted out last. -/
def ShiftOp.apply (op : ShiftOp) (w : Width) (a k : Nat) : Nat × Bool :=
  match op with
  | shl => ((a <<< k) % w.count, (a <<< k).testBit (8 * w.bytes))
  | shr => (a >>> k, (a >>> (k - 1)).testBit 0)
  | sar => (((w.signed a >>> k) % (w.count : Int)).toNat,
      (w.signed a >>> (k - 1)) % 2 == 1)

/-- The overflow flag of a shift by one. -/
def ShiftOp.overflow (op : ShiftOp) (w : Width) (a r : Nat) : Bool :=
  match op with
  | shl => (w.count / 2 ≤ a) != (w.count / 2 ≤ r)
  | shr => w.count / 2 ≤ a
  | sar => false

/-- Whether a condition holds of the flags. -/
def Cond.holds (c : Cond) (f : Flags) : Bool :=
  match c with
  | o => f.overflow
  | no => !f.overflow
  | b => f.carry
  | ae => !f.carry
  | e => f.zero
  | ne => !f.zero
  | be => f.carry || f.zero
  | a => !(f.carry || f.zero)
  | s => f.sign
  | ns => !f.sign
  | p => f.parity
  | np => !f.parity
  | l => f.sign != f.overflow
  | ge => f.sign == f.overflow
  | le => f.zero || f.sign != f.overflow
  | g => !f.zero && f.sign == f.overflow

/-- The number of bytes a widening load reads. -/
def Extend.bytes : Extend → Nat
  | zeroByte => 1
  | zeroWord => 2
  | signDword => 4

/-- A sign-extended immediate as a word. -/
def immediate (w : Width) (imm : Int32) : UInt64 := w.trunc imm.toInt64.toUInt64

/-! ### Instructions -/

namespace Machine

variable (m : Machine)

/-- Executes `op dst, v`. -/
def alu (op : AluOp) (w : Width) (dst : Operand) (v : UInt64) : Machine :=
  let (r, f) := op.apply w (m.read w dst) v
  (if op.writes then m.put w dst r else m).setFlags f

/-- Executes a shift by a constant. The processor uses only as many bits of the count as
the width has use for, and a shift by zero changes nothing. -/
def shift (op : ShiftOp) (w : Width) (dst : Operand) (count : UInt8) : Machine :=
  let k := count.toNat % (8 * w.bytes)
  if k = 0 then m
  else
    let a := (m.read w dst).toNat
    let (r, out) := op.apply w a k
    let overflow := if k = 1 then op.overflow w a r else m.flags.overflow
    (m.put w dst (UInt64.ofNat r)).setFlags (.ofResult w r out overflow)

/-- Executes a widening load; a register as source stands for its lowest bytes. -/
def extend (ext : Extend) (dst : Reg) (src : Operand) : Machine :=
  let v : UInt64 := match src with
    | .reg r => m.regs r
    | .mem x => UInt64.ofNat (ofBytes (m.bytesAt (m.address x) ext.bytes))
  match ext with
  | .zeroByte => m.setReg .w32 dst v.toUInt8.toUInt64
  | .zeroWord => m.setReg .w32 dst v.toUInt16.toUInt64
  | .signDword => m.setReg .w64 dst v.toUInt32.toInt32.toInt64.toUInt64

end Machine

/-- Executes an instruction that is followed by the one at address `next`. The result is
the machine afterwards and the address at which execution goes on. -/
def Instr.exec (next : UInt64) (m : Machine) : Instr → Machine × UInt64
  | aluRegRm op w dst src => (m.alu op w (.reg dst) (m.read w src), next)
  | aluRmReg op w dst src => (m.alu op w dst (m.read w (.reg src)), next)
  | aluRmImm op w dst imm => (m.alu op w dst (immediate w imm), next)
  | neg w dst =>
    let (r, f) := subWords w 0 (m.read w dst)
    ((m.put w dst r).setFlags f, next)
  | inc w dst =>
    let (r, f) := addWords w (m.read w dst) 1
    ((m.put w dst r).setFlags { f with carry := m.flags.carry }, next)
  | shiftImm op w dst count => (m.shift op w dst count, next)
  | testRmReg w rm reg =>
    (m.setFlags (logicWord w (m.read w rm &&& m.read w (.reg reg))).2, next)
  | testRmImm w rm imm =>
    (m.setFlags (logicWord w (m.read w rm &&& immediate w imm.toInt32)).2, next)
  | movRmReg w dst src => (m.put w dst (m.read w (.reg src)), next)
  | movRegRm w dst src => (m.setReg w dst (m.read w src), next)
  | movRmImm w dst imm => (m.put w dst (immediate w imm), next)
  | movRegImm32 dst imm => (m.setReg .w32 dst imm.toUInt64, next)
  | movRegImm64 dst imm => (m.setReg .w64 dst imm, next)
  | lea w dst src => (m.setReg w dst (m.address src), next)
  | movExtend ext dst src => (m.extend ext dst src, next)
  | branch .jmp disp => (m, next + disp.toInt32.toInt64.toUInt64)
  | branch .call disp => (m.push next, next + disp.toInt32.toInt64.toUInt64)
  | branch (.jcc c) disp =>
    (m, if c.holds m.flags then next + disp.toInt32.toInt64.toUInt64 else next)
  | jmpRm target => (m, m.read .w64 target)
  | callRm target => (m.push next, m.read .w64 target)
  | push r => (m.push (m.regs r), next)
  | pop r => (m.dropTop.setReg .w64 r m.top, next)
  | pushImm imm => (m.push (immediate .w64 imm), next)
  | ret => (m.dropTop, m.top)

/-! ### Lemmas -/

namespace Machine

variable (m : Machine)

@[simp] theorem regs_setReg_self (w : Width) (r : Reg) (v : UInt64) :
    (m.setReg w r v).regs r = w.trunc v := by
  simp [setReg]

@[simp] theorem mem_setReg (w : Width) (r : Reg) (v : UInt64) :
    (m.setReg w r v).mem = m.mem := rfl

@[simp] theorem flags_setReg (w : Width) (r : Reg) (v : UInt64) :
    (m.setReg w r v).flags = m.flags := rfl

/-- Setting a register leaves the others alone. -/
theorem regs_setReg_of_ne {w : Width} {r s : Reg} {v : UInt64} (h : s ≠ r) :
    (m.setReg w r v).regs s = m.regs s := by
  simp [setReg, h]

@[simp] theorem regs_store (w : Width) (a v : UInt64) : (m.store w a v).regs = m.regs := rfl

@[simp] theorem flags_store (w : Width) (a v : UInt64) : (m.store w a v).flags = m.flags := rfl

@[simp] theorem regs_setFlags (f : Flags) : (m.setFlags f).regs = m.regs := rfl

@[simp] theorem mem_setFlags (f : Flags) : (m.setFlags f).mem = m.mem := rfl

@[simp] theorem flags_setFlags (f : Flags) : (m.setFlags f).flags = f := rfl

@[simp] theorem length_bytesAt (a : UInt64) (n : Nat) : (m.bytesAt a n).length = n := by
  induction n generalizing a with
  | zero => rfl
  | succ n ih => simp [bytesAt, ih]

/-- A store changes no byte outside the word it writes. -/
theorem mem_store_of_outside {w : Width} {a b v : UInt64} (h : w.bytes ≤ (b - a).toNat) :
    (m.store w a v).mem b = m.mem b := by
  simp only [store, write]
  rw [List.getElem?_eq_none (by simpa using h)]
  rfl

end Machine

end NativeMatcher.X64
