import NativeMatcher.Frame.Slot

/-!
# Faults

A *fault* is the breach of a rule the code generator relies on: an operand that
leaves its machine word, a label bound twice, a write into protected memory. A
fault is not an answer – whoever meets one stops – and is therefore kept apart
from the errors that compiling and matching report
(`NativeMatcher.CompileError`, `NativeMatcher.MatchError`).

Each constructor is one cause; `NativeMatcher.Fault.message` is the only place
that words them.
-/

namespace NativeMatcher

/-- The arithmetic operation whose result left its machine word. -/
inductive WordOp where
  | add | sub | mul | neg
  deriving DecidableEq, Repr

/-- The breach of a rule that code generation relies on. -/
inductive Fault where
  /-- An arithmetic result does not fit its word. -/
  | overflow (op : WordOp)
  /-- A look-up past the end of a table of `len` entries. -/
  | indexOutOfBounds (len index : Nat)
  /-- A label was bound although it has a position. -/
  | labelBoundTwice (label : Nat)
  /-- A pending use was recorded against a label that has a position. -/
  | useOfBoundLabel (label : Nat)
  /-- The distance of a jump does not fit 32 bits. -/
  | displacementRange
  /-- A code offset does not fit 32 bits. -/
  | codeOffsetRange
  /-- A patch reaches past the emitted bytes. -/
  | patchOutside
  /-- A patch of a buffer that is executable. -/
  | patchExecutable
  /-- A read reaches past the emitted bytes. -/
  | readOutside
  /-- An executable buffer was asked to grow. -/
  | writeExecutable
  /-- A byte was stored into memory that is mapped without write permission. -/
  | protectedWrite
  /-- A slice starts past the emitted bytes. -/
  | sliceStart (start len : Nat)
  /-- A slice ends past the emitted bytes. -/
  | sliceEnd (stop len : Nat)
  /-- A slice ends before it starts. -/
  | sliceOrder (start stop : Nat)
  /-- A frame layout lists a slot twice. -/
  | slotListedTwice (slot : Frame.Slot)
  /-- A frame layout was asked for a slot it does not list. -/
  | missingSlot (slot : Frame.Slot)
  /-- The stack pointer was asked to index memory, which no encoding can express. -/
  | stackPointerIndex
  /-- A vector larger than the address space was asked for. -/
  | capacityOverflow
  deriving DecidableEq, Repr

/-- The verb of an operation in an overflow message. -/
def WordOp.verb : WordOp → String
  | add => "add"
  | sub => "subtract"
  | mul => "multiply"
  | neg => "negate"

/-- The wording of a fault. -/
def Fault.message : Fault → String
  | overflow op => s!"attempt to {op.verb} with overflow"
  | indexOutOfBounds len index => s!"index out of bounds: the len is {len} but the index is {index}"
  | labelBoundTwice l => s!"label {l} bound twice"
  | useOfBoundLabel l => s!"use recorded against bound label {l}"
  | displacementRange => "jump displacement out of i32 range"
  | codeOffsetRange => "code offset out of u32 range"
  | patchOutside => "patch outside emitted code"
  | patchExecutable => "patch of executable code buffer"
  | readOutside => "assertion failed: offset + 4 <= self.offset"
  | writeExecutable => "write to executable code buffer"
  | protectedWrite => "store into protected memory"
  | sliceStart start len => s!"range start index {start} out of range for slice of length {len}"
  | sliceEnd stop len => s!"range end index {stop} out of range for slice of length {len}"
  | sliceOrder start stop => s!"slice index starts at {start} but ends at {stop}"
  | slotListedTwice s => s!"frame slot {s.name} listed twice"
  | missingSlot s => s!"frame layout has no {s.name} slot"
  | stackPointerIndex => "rsp cannot index memory"
  | capacityOverflow => "capacity overflow"

/-! ### Checked arithmetic

Operands are 32-bit signed words, sizes 64-bit unsigned ones. Each operation
computes in the integers and faults when the result leaves its word. -/

namespace Checked

/-- `x` as a signed 32-bit word, or an overflow of `op`. -/
def word (op : WordOp) (x : Int) : Except Fault Int32 :=
  if -2147483648 ≤ x ∧ x ≤ 2147483647 then .ok (Int32.ofInt x) else .error (.overflow op)

/-- The sum of two signed 32-bit words. -/
def add (a b : Int32) : Except Fault Int32 := word .add (a.toInt + b.toInt)

/-- The difference of two signed 32-bit words. -/
def sub (a b : Int32) : Except Fault Int32 := word .sub (a.toInt - b.toInt)

/-- The product of two signed 32-bit words. -/
def mul (a b : Int32) : Except Fault Int32 := word .mul (a.toInt * b.toInt)

/-- The negation of a signed 32-bit word. -/
def neg (a : Int32) : Except Fault Int32 := word .neg (-a.toInt)

/-- `n` as a 64-bit size, or an overflow of `op`. -/
def size (op : WordOp) (n : Nat) : Except Fault Nat :=
  if n < 18446744073709551616 then .ok n else .error (.overflow op)

/-- A word operation succeeds exactly on results inside the word, and then
returns the result itself. -/
theorem word_eq_ok_iff {op : WordOp} {x : Int} {w : Int32} :
    word op x = .ok w ↔ (-2147483648 ≤ x ∧ x ≤ 2147483647) ∧ Int32.ofInt x = w := by
  unfold word
  split
  · next h => simp [h]
  · next h => simp [h]

/-- A size operation succeeds exactly below `2 ^ 64`, and then returns its argument. -/
theorem size_eq_ok_iff {op : WordOp} {n m : Nat} :
    size op n = .ok m ↔ n < 18446744073709551616 ∧ n = m := by
  unfold size
  split
  · next h => simp [h]
  · next h => simp [h]

end Checked

end NativeMatcher
