import NativeMatcher.CharTest
import NativeMatcher.Label

/-!
# Opcodes and programs

The language a pattern is compiled to before it becomes machine code. An opcode
works on a current position in the subject, the characters loaded last, a file of
capture registers and a backtrack stack.

An opcode that branches names its *target*: a label of the program, or nothing,
which stands for backtracking – going on at the resumption point pushed last.
-/

namespace NativeMatcher

/-- Where a branch goes: a label, or back to the last resumption point. -/
abbrev Target := Option Label

/-- A property of the current position. -/
inductive PlaceTest where
  /-- The place `offset` characters on is the start of the subject. -/
  | atStart (offset : Int32)
  /-- The place `offset` characters on is not the start of the subject. -/
  | notAtStart (offset : Int32)
  /-- The character `offset` characters on lies outside the subject. -/
  | outside (offset : Int32)
  deriving DecidableEq, Repr

/-- A property of a capture register. -/
inductive RegisterTest where
  /-- The register is at least `value`. -/
  | ge (reg : Nat) (value : Int32)
  /-- The register is below `value`. -/
  | lt (reg : Nat) (value : Int32)
  /-- The register holds the current position. -/
  | eqPosition (reg : Nat)
  deriving DecidableEq, Repr

/-- One operation of a matcher. -/
inductive Opcode where
  /-- Gives a label its place. -/
  | bind (label : Label)
  /-- Moves the position by `count` characters. -/
  | advance (count : Int32)
  /-- Adds `delta` to a register. -/
  | advanceRegister (reg : Nat) (delta : Int32)
  /-- Goes on at the last resumption point. -/
  | backtrack
  /-- Branches if the current character satisfies the test. -/
  | onChar (test : CharTest) (dest : Target)
  /-- Branches if the current position satisfies the test. -/
  | onPlace (test : PlaceTest) (dest : Target)
  /-- Branches if the register satisfies the test. -/
  | onRegister (test : RegisterTest) (dest : Target)
  /-- Drops the top of the backtrack stack and branches if it is the current position. -/
  | checkGreedyLoop (dest : Target)
  /-- Moves over a repetition of the capture at `reg`, or branches if there is none. -/
  | checkNotBackReference (reg : Nat) (backward : Bool) (dest : Target)
  /-- As `checkNotBackReference`, but ignoring case. -/
  | checkNotBackReferenceIgnoreCase (reg : Nat) (backward unicode : Bool) (dest : Target)
  /-- Ends the match without a result. -/
  | fail
  /-- Branches. -/
  | goTo (dest : Target)
  /-- Loads `count` characters from `offset` characters on; with `checked`, branches if
  one of them lies outside the subject. -/
  | load (offset : Int32) (dest : Target) (checked : Bool) (count : Nat)
  /-- Pops the position. -/
  | popPosition
  /-- Pops a register. -/
  | popRegister (reg : Nat)
  /-- Pushes a resumption point. -/
  | pushBacktrack (label : Label)
  /-- Pushes the position. -/
  | pushPosition
  /-- Pushes a register; with `checked`, makes sure that the stack has room for more. -/
  | pushRegister (reg : Nat) (checked : Bool)
  /-- Sets the position from a register. -/
  | readPosition (reg : Nat)
  /-- Sets the backtrack stack pointer from a register. -/
  | readStackPointer (reg : Nat)
  /-- Moves the position to `count` characters before the end, if it is before that. -/
  | setPositionFromEnd (count : Int32)
  /-- Sets a register. -/
  | setRegister (reg : Nat) (value : Int32)
  /-- Reports a match. -/
  | succeed
  /-- Stores the place `offset` characters on into a register. -/
  | writePosition (reg : Nat) (offset : Int32)
  /-- Resets the registers from `first` to `last`, both included. -/
  | clearRegisters (first last : Nat)
  /-- Stores the backtrack stack pointer into a register. -/
  | writeStackPointer (reg : Nat)
  deriving DecidableEq, Repr

/-- The opcode with every label renamed. -/
def Opcode.mapLabels (f : Label → Label) : Opcode → Opcode
  | bind l => bind (f l)
  | onChar t dest => onChar t (dest.map f)
  | onPlace t dest => onPlace t (dest.map f)
  | onRegister t dest => onRegister t (dest.map f)
  | checkGreedyLoop dest => checkGreedyLoop (dest.map f)
  | checkNotBackReference r b dest => checkNotBackReference r b (dest.map f)
  | checkNotBackReferenceIgnoreCase r b u dest => checkNotBackReferenceIgnoreCase r b u (dest.map f)
  | goTo dest => goTo (dest.map f)
  | load o dest c n => load o (dest.map f) c n
  | pushBacktrack l => pushBacktrack (f l)
  | op => op

/-- The label an opcode names, if any. -/
def Opcode.label? : Opcode → Option Label
  | bind l | pushBacktrack l => some l
  | onChar _ dest | onPlace _ dest | onRegister _ dest | checkGreedyLoop dest
  | checkNotBackReference _ _ dest | checkNotBackReferenceIgnoreCase _ _ _ dest
  | goTo dest | load _ dest _ _ => dest
  | _ => none

/-- A list of opcodes with its labels and its capture registers. -/
structure Program where
  /-- The opcodes, in order. -/
  opcodes : Array Opcode
  /-- How many labels the program has; an opcode may name a label beyond them. -/
  labels : Nat
  /-- How many registers a match reports, two for each capture. -/
  saved : Nat
  deriving DecidableEq, Repr

namespace Program

/-- The number of opcodes. -/
def size (p : Program) : Nat := p.opcodes.size

/-- Whether there are no opcodes. -/
def isEmpty (p : Program) : Bool := p.opcodes.isEmpty

/-- The place of a label: the index of the first opcode that binds it. -/
def place? (p : Program) (l : Label) : Option Nat :=
  p.opcodes.findIdx? fun op => op == .bind l

/-- The places of all labels, by index. -/
def places (p : Program) : Array (Option Nat) :=
  (Array.range p.labels).map fun i => p.place? ⟨i⟩

end Program

end NativeMatcher
