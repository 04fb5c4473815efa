import NativeMatcher.Assembly.Lower
import NativeMatcher.Assembly.Routine
import NativeMatcher.Code.Object
import NativeMatcher.Label.Table

/-!
# The assembler

The assembler turns items into bytes, one at a time. It keeps the emitted code, the
label table, and everything about the matcher that is only known at the end: how many
registers it uses, which tables it reads, the first error it met.

A branch to a label that is bound is emitted with its displacement; a branch to one
that is not leaves a field of zeros and is patched when the label is bound. The entry
sequence needs to know how many registers there are, so it comes last, and the code
begins with a jump to it.

* `NativeMatcher.Assembler.place` – one item;
* `NativeMatcher.Assembler.emit` – one opcode;
* `NativeMatcher.Assembler.finish` – the fixed routines, and the finished code.
-/

namespace NativeMatcher

open Assembly X64

/-- The state of one code generation. -/
structure Assembler where
  /-- The code so far. -/
  buffer : Code.Buffer := .default
  /-- The labels. -/
  labels : Label.Table := {}
  /-- The encoding of the subjects. -/
  mode : Mode
  /-- How many registers are used so far, the reported ones included. -/
  registers : Nat
  /-- How many registers a match reports. -/
  saved : Nat
  /-- What happens after a match. -/
  globalMode : GlobalMode := .notGlobal
  /-- How many backtracks are allowed. -/
  backtrackLimit : Option UInt32 := none
  /-- Whether too many backtracks are reported. -/
  canFallback : Bool := false
  /-- The bit tables the code reads. -/
  bitTables : Array (Array UInt8) := #[]
  /-- The boundary lists the code reads. -/
  boundaryLists : Array (List UInt32) := #[]
  /-- Where the heap puts these tables, in the order they are made. -/
  heap : Nat → UInt64
  /-- The targets of all calls of stubs. -/
  callSites : Array Label := #[]
  /-- The labels bound as stubs. -/
  stubs : List Label := []
  /-- The first error. -/
  error : Option CompileError := none
  /-- Whether code generation was given up. -/
  aborted : Bool := false
  /-- Whether the code was asked for. -/
  finalized : Bool := false

namespace Assembler

/-- Entries that may be pushed between two checks of the stack limit. -/
def stackLimitSlack : Nat := 32

/-- The first error wins. -/
def record (a : Assembler) (e : CompileError) : Assembler :=
  { a with error := a.error <|> some e }

/-- Makes the register file large enough for a register, or records an error. -/
def touch (a : Assembler) (reg : Nat) : Assembler :=
  if maxRegister < reg then a.record (.registerOutOfRange reg)
  else { a with registers := max a.registers (reg + 1) }

/-- The address of the next table. -/
def nextTable (a : Assembler) : UInt64 := a.heap (a.bitTables.size + a.boundaryLists.size)

/-! ### Items -/

/-- Emits bytes. -/
def append (a : Assembler) (bs : List UInt8) : Except Fault Assembler := do
  let buffer ← a.buffer.append bs
  return { a with buffer := buffer }

/-- Patches the fields that waited for a label at `target`. -/
def patchUses (buffer : Code.Buffer) (target : Nat) : List Label.Use → Except Fault Code.Buffer
  | [] => .ok buffer
  | u :: us => do
    let v ← u.kind.resolve u.offset target
    let buffer ← buffer.patch32 u.offset v
    patchUses buffer target us

/-- Gives a label the current place. -/
def bindLabel (a : Assembler) (l : Label) : Except Fault Assembler := do
  let here := a.buffer.size
  let (labels, uses) ← a.labels.bind l here
  let buffer ← patchUses a.buffer here uses
  return { a with labels := labels, buffer := buffer }

/-- Emits a branch to a label. -/
def branchTo (a : Assembler) (b : Branch) (l : Label) : Except Fault Assembler := do
  match ← a.labels.pos l with
  | some target =>
    let i ← b.between a.buffer.size target
    a.append i.encode
  | none =>
    let a ← a.append (Instr.branch b 0).encode
    let labels ← a.labels.addUse l ⟨a.buffer.size - 4, .rel32⟩
    return { a with labels := labels }

/-- Emits the store of a label's code offset at the backtrack stack pointer. -/
def storeTarget (a : Assembler) (l : Label) : Except Fault Assembler := do
  match ← a.labels.pos l with
  | some target => a.append (Instr.storeImm .w32 backtrackSp 0 (Int32.ofNat target)).encode
  | none =>
    let a ← a.append (Instr.storeImm .w32 backtrackSp 0 0).encode
    let labels ← a.labels.addUse l ⟨a.buffer.size - 4, .codeOffset32⟩
    return { a with labels := labels }

/-- Emits one item. -/
def place (a : Assembler) : Item → Except Fault Assembler
  | .instr i => a.append i.encode
  | .branch b l =>
    let a := if b = .call then { a with callSites := a.callSites.push l } else a
    a.branchTo b l
  | .declare => .ok { a with labels := a.labels.declare.1 }
  | .bind l => a.bindLabel l
  | .stub l => do
    let a ← a.bindLabel l
    let a := { a with stubs := l :: a.stubs }
    a.append (Instr.aluStore .sub .w64 .rsp 0 codeBase).encode
  | .storeTarget l => a.storeTarget l

/-- Emits items in order. -/
def placeAll (a : Assembler) : List Item → Except Fault Assembler
  | [] => .ok a
  | i :: is => do
    let a ← a.place i
    a.placeAll is

/-- Emits a block. -/
def placeBlock (a : Assembler) (b : Block) : Except Fault Assembler :=
  let a := b.registers.foldl touch a
  let a := (b.error.map a.record).getD a
  let a := { a with
    bitTables := a.bitTables ++ b.bitTable.toArray
    boundaryLists := a.boundaryLists ++ b.boundaryList.toArray }
  a.placeAll b.items

/-! ### Opcodes -/

/-- An assembler whose code is the jump to the entry sequence. -/
def new (mode : Mode) (saved : Nat) (heap : Nat → UInt64) : Except Fault Assembler :=
  let labels : Label.Table := Label.Table.declareMany {} reservedLabels
  let a : Assembler :=
    { labels := labels, mode := mode, registers := saved, saved := saved, heap := heap }
  let a := if maxRegister < saved then a.record (.registerOutOfRange saved) else a
  a.placeAll [.branch .jmp Reserved.entry.label, .bind Reserved.start.label]

/-- The same assembler with the given global mode. -/
def setGlobalMode (a : Assembler) (g : GlobalMode) : Assembler := { a with globalMode := g }

/-- The same assembler with a bound on backtracks, which is a positive 32-bit word. -/
def setBacktrackLimit (a : Assembler) (limit : UInt32) (canFallback : Bool) : Assembler :=
  { a with backtrackLimit := some (min limit 0x7FFFFFFF), canFallback := canFallback }

/-- Gives up code generation. -/
def abort (a : Assembler) : Assembler :=
  { a with aborted := true, labels := a.labels.clearUses }

/-- Declares a label. -/
def newLabel (a : Assembler) : Assembler × Label :=
  let (labels, l) := a.labels.declare
  ({ a with labels := labels }, l)

/-- Binds a label; a label that is bound already is an error. -/
def bind (a : Assembler) (l : Label) : Except Fault Assembler := do
  if ← a.labels.isBound l then return a.record (.labelRebound l)
  a.bindLabel l

/-- Whether a label is bound. -/
def isBound (a : Assembler) (l : Label) : Bool :=
  match a.labels.isBound l with
  | .ok b => b
  | .error _ => false

/-- What an opcode reports to whoever emits it: whether a test has machine code, whether the
matcher restarts after a match. -/
def reply (a : Assembler) : Opcode → Option Bool
  | .onChar (.inRanges rs) _ | .onChar (.notInRanges rs) _ =>
    some (rs.length ≤ maxRangeArraySize)
  | .onChar (.notInClass cls) _ => some (cls.hasFastPath a.mode)
  | .succeed => some a.globalMode.isGlobal
  | _ => none

/-- Emits one stage of an opcode. -/
def emitStage (a : Assembler) (op : Opcode) : Except Fault Assembler :=
  match op with
  | .bind l => a.bind l
  | op => do
    let b ← lower a.mode a.labels.size a.nextTable a.isBound op
    a.placeBlock b

/-- Emits the stages of an opcode. -/
def emitStages (a : Assembler) : List Opcode → Except Fault Assembler
  | [] => .ok a
  | op :: ops => do
    let a ← a.emitStage op
    a.emitStages ops

/-- Whether an opcode is a test without machine code. -/
def refuses (a : Assembler) (op : Opcode) : Bool :=
  match op with
  | .onChar _ _ => a.reply op == some false
  | _ => false

/-- Emits an opcode. A test without machine code leaves the assembler as it is. -/
def emit (a : Assembler) (op : Opcode) : Except Fault Assembler :=
  if a.refuses op then .ok a
  else do
    let ops ← stages op
    a.emitStages ops

/-! ### The end -/

/-- Emits a routine if its label is used and not bound. -/
def placeIfLinked (a : Assembler) (place : Reserved) (items : Assembler → List Item) :
    Except Fault Assembler := do
  if ← a.labels.isLinked place.label then a.placeAll (items a) else return a

/-- Emits the fixed routines. -/
def placeRoutines (a : Assembler) : Except Fault Assembler := do
  let a ← a.placeAll (entry a.mode a.registers a.labels.size)
  let a ← a.placeIfLinked .success fun a => success a.mode a.globalMode a.saved a.labels.size
  let a ← a.placeAll (exit a.globalMode)
  let a ← a.placeIfLinked .backtrack fun a =>
    backtrack a.backtrackLimit a.canFallback a.labels.size
  let a ← a.placeIfLinked .fail fun _ => failExit
  let a ← a.placeIfLinked .checkPreempt fun _ => checkPreempt
  let a ← a.placeIfLinked .stackOverflow fun _ => growStack
  let a ← a.placeIfLinked .exception fun _ => statusExit .exception statusException
  a.placeIfLinked .fallback fun _ => statusExit .fallback statusFallback

/-- What is wrong with the labels: one that is used but not bound, or a call of one that is
no stub. -/
def labelError? (a : Assembler) : Option CompileError :=
  match a.labels.firstUnresolved with
  | some l => some (.unboundLabel l)
  | none => (a.callSites.find? fun l => !a.stubs.contains l).map .relocationSafety

/-- What keeps the code from being finished before the routines are emitted. -/
def finishError? (a : Assembler) : Option CompileError :=
  if a.finalized then some .alreadyFinalized
  else if a.aborted then some .aborted
  else match a.error with
    | some e => some e
    | none =>
      if a.globalMode.isGlobal && a.saved < 2 then some (.unsupported .globalWithoutCaptures)
      else none

/-- The finished code. -/
def object (a : Assembler) (source : String) : Code.Object where
  buffer := a.buffer.setExecutable
  mode := a.mode
  globalMode := a.globalMode
  registers := a.registers
  saved := a.saved
  bitTables := a.bitTables
  boundaryLists := a.boundaryLists
  source := source

/-- Emits the fixed routines and hands the code out, once. What is left is an assembler
without code and tables; its labels keep their places. -/
def finish (a : Assembler) (source : String) :
    Except Fault (Assembler × Except CompileError Code.Object) :=
  match a.finishError? with
  | some e =>
    let error := if a.finalized || a.aborted then a.error else none
    .ok ({ a with finalized := true, error := error }, .error e)
  | none => do
    let a ← placeRoutines { a with finalized := true }
    match a.labelError? with
    | some e => return (a, .error e)
    | none =>
      return ({ a with buffer := .empty, bitTables := #[], boundaryLists := #[] },
        .ok (a.object source))

end Assembler

end NativeMatcher
