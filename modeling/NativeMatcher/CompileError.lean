import NativeMatcher.CharTest
import NativeMatcher.Label

/-!
# Compile errors

What compiling a program reports when it gives no code. Unlike a fault, an error is
an answer: it names something about the program or the options that cannot be
compiled.
-/

namespace NativeMatcher

/-- A construct that has no machine code. -/
inductive Unsupported where
  /-- No load brings in that many characters at once. -/
  | loadWidth (count : Nat) (mode : Mode)
  /-- A look-up in too many ranges. -/
  | rangeArray (count : Nat)
  /-- A bit table of the wrong size. -/
  | bitTable (count : Nat)
  /-- A class that takes more than one opcode to test. -/
  | charClass (cls : CharClass)
  /-- A restart after each match needs the two registers of the whole match. -/
  | globalWithoutCaptures
  deriving DecidableEq, Repr

/-- The wording of an unsupported construct. -/
def Unsupported.message : Unsupported → String
  | loadWidth n mode => s!"loading {n} characters at once in {mode.name} mode"
  | rangeArray n => s!"range array of {n} ranges"
  | bitTable n => s!"bit table of {n} entries (expected {tableSize})"
  | charClass cls => s!"no fast path for class {cls.name}"
  | globalWithoutCaptures => "global matching without capture registers"

/-- Why a program gives no code. -/
inductive CompileError where
  /-- A construct has no machine code. -/
  | unsupported (what : Unsupported)
  /-- A label is used but has no place. -/
  | unboundLabel (label : Label)
  /-- A label has two places. -/
  | labelRebound (label : Label)
  /-- A label beyond those of the program. -/
  | unknownLabel (label : Label)
  /-- A register beyond the largest one. -/
  | registerOutOfRange (reg : Nat)
  /-- A call whose target keeps an absolute return address. -/
  | relocationSafety (label : Label)
  /-- Code generation was given up. -/
  | aborted
  /-- The code was already handed out. -/
  | alreadyFinalized
  deriving DecidableEq, Repr

/-- The wording of a compile error. -/
def CompileError.message : CompileError → String
  | unsupported what => s!"unsupported construct: {what.message}"
  | unboundLabel l => s!"label {l.index} is referenced but never bound"
  | labelRebound l => s!"label {l.index} is bound more than once"
  | unknownLabel l => s!"program label {l.index} is out of range"
  | registerOutOfRange r => s!"register {r} exceeds the supported maximum"
  | relocationSafety l =>
    s!"relocation safety violation: call to label {l.index} without a relative-return prologue"
  | aborted => "code generation was aborted"
  | alreadyFinalized => "code has already been finalized"

/-- The largest register a program may use. -/
def maxRegister : Nat := 65535

end NativeMatcher
