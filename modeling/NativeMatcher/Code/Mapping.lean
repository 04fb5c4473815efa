import NativeMatcher.Code.Buffer

/-!
# Code buffers in memory

`NativeMatcher.Code.Buffer` is what a code buffer shows: the bytes emitted so far, its
capacity and its protection. This module is how it comes by them. The bytes lie in memory
that the operating system hands out in whole pages (`NativeMatcher.Code.Pages`); a buffer
that is full asks for more of it and copies what was emitted, a relocated one asks for just
enough, and an executable one has given up that its pages are writable. A system that refuses
memory, or a change of its protection, is not described.

An operation that faults leaves the buffer as it is at that moment, not as it was at the
start, so a fault comes with a buffer (`NativeMatcher.Code.Mapping.Change`).

* `NativeMatcher.Code.Mapping.reserve` – more pages;
* `NativeMatcher.Code.Mapping.emit`, `NativeMatcher.Code.Mapping.patch32` – the two ways
  to write;
* `NativeMatcher.Code.Mapping.relocated` – the same code in fresh pages;
* `NativeMatcher.Code.Mapping.Op` – the operations as data.
-/

namespace NativeMatcher.Code

/-- The initial capacity of a matcher's code. -/
def defaultSize : Nat := 4096

/-- Memory from the operating system. Fresh memory is writable and zero. -/
structure Pages where
  /-- How many bytes there are. -/
  size : Nat
  /-- The bytes from the lowest address up; those that are not listed are zero. -/
  touched : Array UInt8 := #[]
  /-- Whether the bytes may be written, and then not executed. -/
  writable : Bool := true
  deriving Repr

namespace Pages

/-- The byte at a distance from the start. -/
def byte (p : Pages) (i : Nat) : UInt8 := p.touched.getD i 0

/-- The `n` bytes from `start` on. -/
def load (p : Pages) (start n : Nat) : List UInt8 :=
  (List.range n).map fun i => p.byte (start + i)

/-- Writes bytes from `start` on. The processor stops a write that does not lie inside the
pages, or whose pages are not writable. -/
def store (p : Pages) (start : Nat) (bs : List UInt8) : Except Fault Pages :=
  if bs.isEmpty then .ok p
  else if p.writable && decide (start + bs.length ≤ p.size) then
    let zeros := Array.replicate (start + bs.length - p.touched.size) 0
    .ok { p with touched := Buffer.overwrite (p.touched ++ zeros) start bs }
  else .error .protectedWrite

end Pages

/-- A code buffer in memory. -/
structure Mapping where
  /-- The memory, if there is any yet. -/
  pages : Option Pages := none
  /-- The size of the memory. -/
  capacity : Nat := 0
  /-- How many bytes were emitted. -/
  offset : Nat := 0
  /-- Whether the buffer is executable, and then not writable. -/
  executable : Bool := false
  deriving Repr

namespace Mapping

/-- A buffer without memory. -/
def empty : Mapping := {}

/-- The size of the least number of pages that holds `n` bytes. -/
def wholePages (n : Nat) : Except Fault Nat := do
  let _ ← Checked.size .add (n + pageSize)
  return roundToPage n

/-- A buffer with fresh memory. -/
def fresh (capacity : Nat) : Mapping := { pages := some { size := capacity }, capacity }

/-- A buffer with room for `size` bytes. -/
def new (size : Nat) : Except Fault Mapping := do
  let capacity ← wholePages (max size 1)
  return fresh capacity

/-- The `n` bytes from `start` on. -/
def load (m : Mapping) (start n : Nat) : List UInt8 :=
  match m.pages with
  | none => []
  | some p => p.load start n

/-- The bytes emitted so far. -/
def code (m : Mapping) : List UInt8 := m.load 0 m.offset

/-- What the buffer shows. -/
def view (m : Mapping) : Buffer := ⟨m.code.toArray, m.capacity, m.executable⟩

/-- A computation that may change a buffer, also before it faults. -/
abbrev Change := EStateM Fault Mapping

/-- A computation that changes nothing. -/
def Change.of {α : Type} (x : Except Fault α) : Change α := fun m =>
  match x with
  | .ok a => .ok a m
  | .error f => .error f m

/-! ### Writing -/

/-- Writes bytes from `start` on. -/
def store (start : Nat) (bs : List UInt8) : Change Unit := do
  let m ← get
  match m.pages with
  | some p =>
    let p ← Change.of (p.store start bs)
    set { m with pages := some p }
  | none => if bs.isEmpty then return else throw .protectedWrite

/-- Moves to memory with room for `needed` bytes, of at least twice the size. What was
emitted is copied. -/
def grow (needed : Nat) : Change Unit := do
  let m ← get
  let twice ← Change.of (Checked.size .mul (m.capacity * 2))
  let capacity ← Change.of (wholePages (max (max twice needed) defaultSize))
  let pages ← Change.of (Pages.store { size := capacity } 0 m.code)
  set { m with pages := some pages, capacity }

/-- Makes room for `n` more bytes. -/
def reserve (n : Nat) : Change Unit := do
  let m ← get
  let needed ← Change.of (Checked.size .add (m.offset + n))
  if needed ≤ m.capacity then return
  else if m.executable then throw .writeExecutable
  else grow needed

/-- Emits bytes at the end. -/
def emit (bs : List UInt8) : Change Unit := do
  reserve bs.length
  store (← get).offset bs
  modify fun m => { m with offset := m.offset + bs.length }

/-- Replaces the four bytes at `offset`. -/
def patch32 (offset : Nat) (v : UInt32) : Change Unit := do
  let m ← get
  let stop ← Change.of (Checked.size .add (offset + 4))
  if m.offset < stop then throw .patchOutside
  else if m.executable then throw .patchExecutable
  else store offset (bytes32 v)

/-- The word at `offset`. -/
def read32 (m : Mapping) (offset : Nat) : Except Fault UInt32 := do
  let stop ← Checked.size .add (offset + 4)
  if m.offset < stop then throw .readOutside
  else return UInt32.ofNat (ofBytes (m.load offset 4))

/-! ### Protection and relocation -/

/-- Makes the memory writable, or executable. -/
def protect (writable : Bool) : Change Unit :=
  modify fun m => { m with pages := m.pages.map fun p => { p with writable } }

/-- Makes the buffer executable and no longer writable. -/
def setExecutable : Change Unit := do
  protect false
  modify fun m => { m with executable := true }

/-- Makes the buffer writable and no longer executable. -/
def setWritable : Change Unit := do
  protect true
  modify fun m => { m with executable := false }

/-- Fills a fresh buffer with the code of another one. -/
def takeOver (m : Mapping) : Change Unit := do
  store 0 m.code
  modify fun copy => { copy with offset := m.offset }
  if m.executable then setExecutable else return

/-- A copy in fresh memory, just large enough, with the same protection. -/
def relocated (m : Mapping) : Except Fault Mapping := do
  let copy ← new m.offset
  match m.takeOver copy with
  | .ok _ copy => return copy
  | .error f _ => throw f

/-! ### Operations -/

/-- What can be emitted in one go. -/
inductive Datum where
  /-- One byte. -/
  | byte (v : UInt8)
  /-- The four bytes of a word, lowest first. -/
  | word (v : UInt32)
  /-- The eight bytes of a long word, lowest first. -/
  | long (v : UInt64)
  /-- Bytes as they are. -/
  | bytes (bs : List UInt8)
  deriving DecidableEq, Repr

/-- The bytes that are emitted. -/
def Datum.encode : Datum → List UInt8
  | byte v => [v]
  | word v => bytes32 v
  | long v => bytes64 v
  | bytes bs => bs

/-- An operation on a buffer. -/
inductive Op where
  /-- Emission at the end. -/
  | emit (d : Datum)
  /-- Replacing a word. -/
  | patch32 (offset : Nat) (v : UInt32)
  /-- Reading a word. -/
  | read32 (offset : Nat)
  /-- Making the buffer executable. -/
  | setExecutable
  /-- Making the buffer writable. -/
  | setWritable
  /-- Going on with the relocated copy. -/
  | relocate
  deriving DecidableEq, Repr

/-- Carries an operation out. Only reading has an answer. -/
def Op.run : Op → Change (Option UInt32)
  | emit d => do Mapping.emit d.encode; return none
  | patch32 offset v => do Mapping.patch32 offset v; return none
  | read32 offset => do return some (← Change.of ((← get).read32 offset))
  | setExecutable => do Mapping.setExecutable; return none
  | setWritable => do Mapping.setWritable; return none
  | relocate => do set (← Change.of (← get).relocated); return none

end Mapping

end NativeMatcher.Code
