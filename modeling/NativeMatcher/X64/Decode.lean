import NativeMatcher.X64.Encode

/-!
# Decoding instructions

The instruction set read from its bytes, by the rules of the processor and without
regard to how `NativeMatcher.X64.Instr.encode` chooses between encodings: an optional
REX byte, an optional escape byte, the opcode, and then what the opcode asks for.

An r/m operand is read in three steps. The two mode bits of its ModR/M byte tell a
register from memory and give the size of the displacement; the value four in the
r/m field announces a SIB byte with base and index; and the fourth bit of every
register number comes from the REX byte. Two encodings mean something no matcher
uses and are refused: an address relative to the instruction itself, and one without
a base.

`NativeMatcher.X64.Instr.decode` reads one instruction and hands back the bytes after
it; `NativeMatcher.X64.Instr.decodeAll` splits a row of bytes into instructions.
-/

namespace NativeMatcher.X64

open Code

/-! ### Numbers -/

/-- The number in the first `width` bytes, and the bytes after it. -/
def readNumber (width : Nat) (bs : List UInt8) : Option (Nat × List UInt8) :=
  if width ≤ bs.length then some (ofBytes (bs.take width), bs.drop width) else none

/-- A signed byte, as a word. -/
def readByte (bs : List UInt8) : Option (Int32 × List UInt8) := do
  let (n, bs) ← readNumber 1 bs
  return ((UInt8.ofNat n).toInt8.toInt32, bs)

/-- A 32-bit word. -/
def readDword (bs : List UInt8) : Option (UInt32 × List UInt8) := do
  let (n, bs) ← readNumber 4 bs
  return (UInt32.ofNat n, bs)

/-- A 64-bit word. -/
def readQword (bs : List UInt8) : Option (UInt64 × List UInt8) := do
  let (n, bs) ← readNumber 8 bs
  return (UInt64.ofNat n, bs)

/-! ### Operands -/

/-- What a REX byte says. -/
structure Rex where
  /-- Whether the operation is on 64 bits. -/
  wide : Bool := false
  /-- The fourth bit of the reg field, as a number. -/
  reg : UInt8 := 0
  /-- The fourth bit of the index. -/
  index : UInt8 := 0
  /-- The fourth bit of the r/m field or of the base. -/
  rm : UInt8 := 0
  deriving DecidableEq, Repr

/-- The width of the operation. -/
def Rex.width (x : Rex) : Width := if x.wide then .w64 else .w32

/-- What a byte says if it is a REX byte: its upper half is four. -/
def Rex.ofByte (v : UInt8) : Option Rex :=
  if v &&& 0xF0 = 0x40 then
    some { wide := v &&& 8 != 0, reg := (v &&& 4) <<< 1, index := (v &&& 2) <<< 2,
           rm := (v &&& 1) <<< 3 }
  else none

/-- The REX byte at the start, if there is one. -/
def Rex.read : List UInt8 → Rex × List UInt8
  | [] => ({}, [])
  | v :: bs =>
    match Rex.ofByte v with
    | some x => (x, bs)
    | none => ({}, v :: bs)

/-- The displacement form of the mode bits of a memory operand. -/
def DispForm.ofMode (mode : UInt8) : Option DispForm :=
  if mode = 0 then some .none
  else if mode = 1 then some .byte
  else if mode = 2 then some .dword
  else Option.none

/-- The displacement of a form. -/
def DispForm.read (f : DispForm) (bs : List UInt8) : Option (Int32 × List UInt8) :=
  match f with
  | none => some (0, bs)
  | byte => readByte bs
  | dword => (readDword bs).map fun (v, bs) => (v.toInt32, bs)

/-- The base of a memory operand. Without a displacement the number five means no base. -/
def baseOf (form : DispForm) (low extension : UInt8) : Option Reg :=
  if form = .none ∧ low = 5 then none else Reg.ofNumber (low ||| extension)

/-- The index of a SIB byte. The number four means no index. -/
def indexOf (x : Rex) (v : UInt8) : Option (Option (Reg × UInt8)) :=
  let n := ((v >>> 3) &&& 7) ||| x.index
  if n = 4 then some none else (Reg.ofNumber n).map fun r => some (r, v >>> 6)

/-- The memory operand of a form whose r/m field is `low`. -/
def Mem.read (x : Rex) (form : DispForm) (low : UInt8) (bs : List UInt8) :
    Option (Mem × List UInt8) :=
  if low = 4 then
    match bs with
    | [] => none
    | v :: bs => do
      let base ← baseOf form (v &&& 7) x.rm
      let index ← indexOf x v
      let (disp, bs) ← form.read bs
      return ({ base := base, index := index, disp := disp }, bs)
  else do
    let base ← baseOf form low x.rm
    let (disp, bs) ← form.read bs
    return ({ base := base, disp := disp }, bs)

/-- The reg field and the r/m operand. -/
def Operand.read (x : Rex) (bs : List UInt8) : Option (UInt8 × Operand × List UInt8) :=
  match bs with
  | [] => none
  | v :: bs => do
    let field := ((v >>> 3) &&& 7) ||| x.reg
    let low := v &&& 7
    if v >>> 6 = 3 then
      return (field, .reg (← Reg.ofNumber (low ||| x.rm)), bs)
    let form ← DispForm.ofMode (v >>> 6)
    let (m, bs) ← Mem.read x form low bs
    return (field, .mem m, bs)

/-! ### Operations -/

/-- The arithmetic operation of a number. -/
def AluOp.ofNumber (n : UInt8) : Option AluOp :=
  [AluOp.add, .or, .and, .sub, .xor, .cmp].find? fun op => op.number == n

/-- The shift of a number. -/
def ShiftOp.ofNumber (n : UInt8) : Option ShiftOp :=
  [ShiftOp.shl, .shr, .sar].find? fun op => op.number == n

/-- The condition of a code. -/
def Cond.ofNumber (n : UInt8) : Option Cond := Cond.all[n.toNat]?

/-- What follows an opcode with a register and an r/m operand. -/
def readRegRm (x : Rex) (bs : List UInt8) (f : Reg → Operand → Instr) :
    Option (Instr × List UInt8) := do
  let (field, rm, bs) ← Operand.read x bs
  return (f (← Reg.ofNumber field) rm, bs)

/-- What follows an opcode that names its operation in the reg field. -/
def readDigitRm (x : Rex) (bs : List UInt8)
    (f : UInt8 → Operand → List UInt8 → Option (Instr × List UInt8)) :
    Option (Instr × List UInt8) := do
  let (field, rm, bs) ← Operand.read x bs
  f (field &&& 7) rm bs

/-- The register in the low three bits of an opcode. -/
def lowReg (x : Rex) (op : UInt8) : Option Reg := Reg.ofNumber ((op &&& 7) ||| x.rm)

/-- The operations of opcode `F7`. -/
def decodeF7 (w : Width) (digit : UInt8) (rm : Operand) (bs : List UInt8) :
    Option (Instr × List UInt8) :=
  if digit = 0 then (readDword bs).map fun (v, bs) => (.testRmImm w rm v, bs)
  else if digit = 3 then some (.neg w rm, bs)
  else none

/-- The operations of opcode `FF`. -/
def decodeFF (w : Width) (digit : UInt8) (rm : Operand) (bs : List UInt8) :
    Option (Instr × List UInt8) :=
  if digit = 0 then some (.inc w rm, bs)
  else if digit = 2 then some (.callRm rm, bs)
  else if digit = 4 then some (.jmpRm rm, bs)
  else none

/-- A move of a constant: all 64 bits of it, or a zero-extended half. -/
def decodeMovImm (x : Rex) (r : Reg) (bs : List UInt8) : Option (Instr × List UInt8) :=
  if x.wide then (readQword bs).map fun (v, bs) => (.movRegImm64 r v, bs)
  else (readDword bs).map fun (v, bs) => (.movRegImm32 r v, bs)

/-- An instruction whose opcode has the escape byte. -/
def decodeEscaped (x : Rex) (op : UInt8) (bs : List UInt8) : Option (Instr × List UInt8) :=
  if op = 0xB6 then readRegRm x bs (.movExtend .zeroByte)
  else if op = 0xB7 then readRegRm x bs (.movExtend .zeroWord)
  else if op &&& 0xF0 = 0x80 then do
    let c ← Cond.ofNumber (op &&& 15)
    let (disp, bs) ← readDword bs
    return (.branch (.jcc c) disp, bs)
  else none

/-- An instruction whose opcode has the listed byte and operands of its own. -/
def decodeListed (x : Rex) (op : UInt8) (bs : List UInt8) : Option (Instr × List UInt8) :=
  let w := x.width
  match op with
  | 0x63 => if x.wide then readRegRm x bs (.movExtend .signDword) else none
  | 0x68 => (readDword bs).map fun (v, bs) => (.pushImm v.toInt32, bs)
  | 0x6A => (readByte bs).map fun (v, bs) => (.pushImm v, bs)
  | 0x81 => readDigitRm x bs fun digit rm bs => do
    let (v, bs) ← readDword bs
    return (.aluRmImm (← AluOp.ofNumber digit) w rm v.toInt32, bs)
  | 0x83 => readDigitRm x bs fun digit rm bs => do
    let (v, bs) ← readByte bs
    return (.aluRmImm (← AluOp.ofNumber digit) w rm v, bs)
  | 0x85 => readRegRm x bs fun r rm => .testRmReg w rm r
  | 0x89 => readRegRm x bs fun r rm => .movRmReg w rm r
  | 0x8B => readRegRm x bs (.movRegRm w)
  | 0x8D => do
    let (field, rm, bs) ← Operand.read x bs
    match rm with
    | .mem m => return (.lea w (← Reg.ofNumber field) m, bs)
    | .reg _ => none
  | 0xC1 => readDigitRm x bs fun digit rm bs => do
    let (n, bs) ← readNumber 1 bs
    return (.shiftImm (← ShiftOp.ofNumber digit) w rm (UInt8.ofNat n), bs)
  | 0xC3 => some (.ret, bs)
  | 0xC7 => readDigitRm x bs fun digit rm bs => do
    if digit ≠ 0 then none
    let (v, bs) ← readDword bs
    return (.movRmImm w rm v.toInt32, bs)
  | 0xD1 => readDigitRm x bs fun digit rm bs => do
    return (.shiftImm (← ShiftOp.ofNumber digit) w rm 1, bs)
  | 0xE8 => (readDword bs).map fun (v, bs) => (.branch .call v, bs)
  | 0xE9 => (readDword bs).map fun (v, bs) => (.branch .jmp v, bs)
  | 0xF7 => readDigitRm x bs (decodeF7 w)
  | 0xFF => readDigitRm x bs (decodeFF w)
  | _ => none

/-- An instruction whose opcode has no escape byte. Arithmetic has its operation and a
register operand's place in the opcode; pushes, pops and moves of constants a register. -/
def decodeOp (x : Rex) (op : UInt8) (bs : List UInt8) : Option (Instr × List UInt8) :=
  if op &&& 0xC7 = 0x01 then do
    let alu ← AluOp.ofNumber (op >>> 3)
    readRegRm x bs fun r rm => .aluRmReg alu x.width rm r
  else if op &&& 0xC7 = 0x03 then do
    let alu ← AluOp.ofNumber (op >>> 3)
    readRegRm x bs (.aluRegRm alu x.width)
  else if op &&& 0xF8 = 0x50 then do return (.push (← lowReg x op), bs)
  else if op &&& 0xF8 = 0x58 then do return (.pop (← lowReg x op), bs)
  else if op &&& 0xF8 = 0xB8 then do decodeMovImm x (← lowReg x op) bs
  else decodeListed x op bs

/-- The instruction at the start of a row of bytes, and the bytes after it. -/
def Instr.decode (bs : List UInt8) : Option (Instr × List UInt8) :=
  let (x, bs) := Rex.read bs
  match bs with
  | [] => none
  | op :: bs =>
    if op = 0x0F then
      match bs with
      | [] => none
      | op :: bs => decodeEscaped x op bs
    else decodeOp x op bs

/-- The instructions that the bytes consist of, if there are no more than `fuel`. -/
def Instr.sweep : (fuel : Nat) → List UInt8 → Option (List Instr)
  | _, [] => some []
  | 0, _ :: _ => none
  | n + 1, v :: bs => do
    let (i, bs) ← Instr.decode (v :: bs)
    let is ← sweep n bs
    return i :: is

/-- The instructions that the bytes consist of. None is empty, so there are at most as many
as bytes. -/
def Instr.decodeAll (bs : List UInt8) : Option (List Instr) := Instr.sweep bs.length bs

end NativeMatcher.X64
