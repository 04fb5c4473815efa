import NativeMatcher.Code.Buffer
import NativeMatcher.Mode

/-!
# Code objects

A finished matcher: executable machine code and what is needed to run it. The tables
the code reads are kept beside it, not in it, so that moving the code does not move
them.
-/

namespace NativeMatcher.Code

/-- A finished matcher. -/
structure Object where
  /-- The machine code. -/
  buffer : Buffer
  /-- The encoding of the subjects. -/
  mode : Mode
  /-- What happens after a match. -/
  globalMode : GlobalMode
  /-- How many capture registers the frame has. -/
  registers : Nat
  /-- How many of them a match reports. -/
  saved : Nat
  /-- The bit tables. -/
  bitTables : Array (Array UInt8)
  /-- The boundary lists. -/
  boundaryLists : Array (List UInt32)
  /-- The text the matcher was made from. -/
  source : String
  deriving Repr

namespace Object

/-- The number of bytes of code. -/
def size (o : Object) : Nat := o.buffer.size

/-- Whether there is no code. -/
def isEmpty (o : Object) : Bool := o.size == 0

/-- How many tables the code reads. -/
def tables (o : Object) : Nat := o.bitTables.size + o.boundaryLists.size

/-- The same code in fresh memory. -/
def relocated (o : Object) : Object := { o with buffer := o.buffer.relocated }

/-- The name of the instruction set. -/
def implementation (_ : Object) : String := "X64"

@[simp] theorem bytes_relocated (o : Object) : o.relocated.buffer.bytes = o.buffer.bytes := rfl

@[simp] theorem relocated_relocated (o : Object) : o.relocated.relocated = o.relocated := rfl

end Object

end NativeMatcher.Code
