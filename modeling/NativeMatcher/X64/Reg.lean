/-!
# The machine registers

The sixteen general-purpose registers of x86-64, their numbers in encodings, and
the roles a matcher gives to six of them. Every role sits in a register that a
called function has to preserve, so that its value survives a call of the host.
-/

namespace NativeMatcher.X64

/-- A general-purpose register. -/
inductive Reg where
  | rax | rcx | rdx | rbx | rsp | rbp | rsi | rdi
  | r8 | r9 | r10 | r11 | r12 | r13 | r14 | r15
  deriving DecidableEq, Repr

namespace Reg

/-- The registers in the order of their numbers. -/
def all : List Reg :=
  [rax, rcx, rdx, rbx, rsp, rbp, rsi, rdi, r8, r9, r10, r11, r12, r13, r14, r15]

/-- The number of a register in encodings. -/
def number : Reg → UInt8
  | rax => 0 | rcx => 1 | rdx => 2 | rbx => 3 | rsp => 4 | rbp => 5 | rsi => 6 | rdi => 7
  | r8 => 8 | r9 => 9 | r10 => 10 | r11 => 11 | r12 => 12 | r13 => 13 | r14 => 14 | r15 => 15

/-- The register of a number. -/
def ofNumber (n : UInt8) : Option Reg := all[n.toNat]?

/-- The three bits that go into a ModR/M or SIB byte. -/
def low3 (r : Reg) : UInt8 := r.number &&& 7

/-- Whether the fourth bit of the number has to go into a REX byte. -/
def needsRex (r : Reg) : Bool := 8 ≤ r.number

/-- The register's name. -/
def name : Reg → String
  | rax => "Rax" | rcx => "Rcx" | rdx => "Rdx" | rbx => "Rbx"
  | rsp => "Rsp" | rbp => "Rbp" | rsi => "Rsi" | rdi => "Rdi"
  | r8 => "R8" | r9 => "R9" | r10 => "R10" | r11 => "R11"
  | r12 => "R12" | r13 => "R13" | r14 => "R14" | r15 => "R15"

theorem ofNumber_number (r : Reg) : ofNumber r.number = some r := by
  cases r <;> rfl

end Reg

/-- What a matcher keeps in a fixed register. -/
inductive Role where
  /-- The current position, as a byte offset from the end of the subject. -/
  | currentPosition
  /-- The characters loaded last. -/
  | currentCharacter
  /-- The address one past the subject. -/
  | inputEnd
  /-- The backtrack stack pointer. -/
  | backtrackStackPointer
  /-- The start of the running code. -/
  | codeBase
  /-- The frame pointer. -/
  | framePointer
  deriving DecidableEq, Repr

namespace Role

/-- The roles in order. -/
def all : List Role :=
  [currentPosition, currentCharacter, inputEnd, backtrackStackPointer, codeBase, framePointer]

/-- The register that plays a role. -/
def reg : Role → Reg
  | currentPosition => .r12
  | currentCharacter => .r13
  | inputEnd => .r14
  | backtrackStackPointer => .rbx
  | codeBase => .r15
  | framePointer => .rbp

/-- The role's name. -/
def name : Role → String
  | currentPosition => "CurrentPosition"
  | currentCharacter => "CurrentCharacter"
  | inputEnd => "InputEnd"
  | backtrackStackPointer => "BacktrackStackPointer"
  | codeBase => "CodeBase"
  | framePointer => "FramePointer"

end Role

/-- The registers a matcher gives back to its caller, in the order it saves them. -/
def calleeSaved : List Reg := [.rbx, .r12, .r13, .r14, .r15]

/-- The registers that carry the first six arguments of a call. -/
def callArguments : List Reg := [.rdi, .rsi, .rdx, .rcx, .r8, .r9]

end NativeMatcher.X64
