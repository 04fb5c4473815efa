import NativeMatcher.Backtrack.Stack
import NativeMatcher.Compile
import NativeMatcher.Guard
import NativeMatcher.Subject

/-!
# Threads

A *thread* is the state of a run: where the program is, the position in the subject,
the registers, the depth of the backtrack stack, and what the run has stored and
counted so far. A *task* is what stays the same: the matcher, the subject, who called.

Positions and registers are 64-bit words. A position is a byte offset from the end of
the subject, so the end is zero and everything before it negative; the place one
character before the subject, `NativeMatcher.Task.before`, also stands for a register
that was never set. An entry of the backtrack stack is 32 bits wide: a push keeps the
lower half of a word and a pop extends its sign.

What a thread does ends in one of three ways (`NativeMatcher.Outcome`). Besides going
on and being done it can go *astray*: pop an empty stack, read far outside the subject,
resume at something that is no opcode. Nothing is said about such a run.
-/

namespace NativeMatcher

/-- What stays the same during a run. -/
structure Task where
  /-- The compiled program. -/
  matcher : Matcher
  /-- The places of its labels. -/
  places : Array (Option Nat)
  /-- The subject. -/
  subject : Subject
  /-- Who called. -/
  origin : CallOrigin
  /-- The native stack pointer at a poll. -/
  sp : UInt64

/-- The state of a run. -/
structure Thread where
  /-- The index of the next opcode. -/
  pc : Nat
  /-- The position. -/
  pos : Int64
  /-- The characters loaded last. -/
  char : UInt32
  /-- The registers. -/
  regs : Array Int64
  /-- The depth of the backtrack stack pointer. -/
  depth : Int
  /-- Backtracks counted so far. -/
  backtracks : Nat
  /-- Capture sets stored so far. -/
  captures : Nat
  /-- Where in the output the next capture set goes. -/
  outBase : Nat
  /-- How many output registers are left. -/
  remaining : Nat
  /-- The output registers. -/
  output : Array Int32
  /-- The interrupt limit that polls compare with. -/
  limit : UInt64
  /-- The memory of the backtrack stack. -/
  stack : Backtrack.Stack
  /-- The pending interrupts. -/
  guard : Guard
  /-- Polls that fired so far. -/
  polls : Nat
  /-- How often the code moved so far. -/
  relocations : Nat
  /-- How often the backtrack stack grew so far. -/
  growths : Nat

/-- What became of a thread. -/
inductive Outcome where
  /-- It goes on. -/
  | next (t : Thread)
  /-- It is done. -/
  | done (status : Status) (t : Thread)
  /-- It went astray. -/
  | stray

/-- Goes on with a thread that goes on. -/
def Outcome.andThen (o : Outcome) (f : Thread → Outcome) : Outcome :=
  match o with
  | .next t => f t
  | .done s t => .done s t
  | .stray => .stray

/-! ### Words and entries -/

/-- The lower half of a word. -/
def lowWord (x : Int64) : UInt32 := x.toUInt64.toUInt32

/-- An entry as a word, with its sign. -/
def signWord (e : UInt32) : Int64 := e.toInt32.toInt64

namespace Task

variable (k : Task)

/-- The encoding of the subject. -/
def mode : Mode := k.matcher.options.mode

/-- Bytes per character, as a word. -/
def unit : Int64 := Int64.ofNat k.mode.charSize

/-- A number of characters in bytes, as a word. -/
def bytes (count : Int32) : Int64 := Int64.ofInt (count.toInt * k.mode.charSize)

/-- The length of the subject in bytes, as a word. -/
def length : Int64 := Int64.ofNat k.subject.byteSize

/-- The place one character before the subject, and the value of an unset register. -/
def before : Int64 := -k.length - k.unit

/-- The address of a place in the subject. -/
def address (pos : Int64) : UInt64 := Memory.address (Memory.heap + k.subject.byteSize) pos

/-- The place of a label. -/
def place? (l : Label) : Option Nat := (k.places[l.index]?).join

/-- The opcode whose code is at an offset. -/
def opcodeAt? (offset : UInt32) : Option Nat :=
  k.matcher.offsets.findIdx? fun o => o == offset.toNat

/-- The `count` characters at a position. -/
def chars? (pos : Int64) (count : Nat) : Option UInt32 :=
  k.subject.wordFromEnd? pos.toInt (count * k.mode.charSize)

end Task

namespace Thread

variable (t : Thread)

/-- Goes on with the next opcode. -/
def advance : Thread := { t with pc := t.pc + 1 }

/-- A register; those the program does not touch are never read. -/
def reg (i : Nat) : Int64 := t.regs.getD i 0

/-- The thread with a register replaced. -/
def setReg (i : Nat) (v : Int64) : Thread := { t with regs := t.regs.setIfInBounds i v }

/-- A register that was set is read back. -/
theorem reg_setReg_self {i : Nat} (v : Int64) (h : i < t.regs.size) :
    (t.setReg i v).reg i = v := by
  simp [reg, setReg, h]

/-- Setting a register leaves the others alone. -/
theorem reg_setReg_of_ne {i j : Nat} (v : Int64) (h : j ≠ i) :
    (t.setReg i v).reg j = t.reg j := by
  simp [reg, setReg, Array.getElem?_setIfInBounds_ne h.symm]

@[simp] theorem size_regs_setReg (i : Nat) (v : Int64) :
    (t.setReg i v).regs.size = t.regs.size := by
  simp [setReg]

end Thread

end NativeMatcher
