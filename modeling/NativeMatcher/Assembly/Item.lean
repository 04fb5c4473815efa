import NativeMatcher.CompileError
import NativeMatcher.Opcode
import NativeMatcher.X64.Encode
import NativeMatcher.X64.Frame

/-!
# Lines of assembly

Code generation goes through a list of *items*, the lines of a symbolic assembly:
instructions, branches to labels, the labels themselves. An opcode and each of the
fixed routines around the program is one *block* of items, together with what it
asks of the assembler besides bytes – the registers it touches, the tables it reads.

The first twelve labels are reserved for the fixed routines
(`NativeMatcher.Assembly.Reserved`); the labels of a program follow, and after them
the local labels of blocks, declared where they are first needed.
-/

namespace NativeMatcher.Assembly

open X64

/-- The places of the fixed routines. -/
inductive Reserved where
  /-- The entry sequence. -/
  | entry
  /-- The first opcode of the program. -/
  | start
  /-- Where a match starts over. -/
  | restart
  /-- The program reports a match. -/
  | success
  /-- The matcher returns the number of matches. -/
  | exit
  /-- The matcher returns its status. -/
  | leave
  /-- The last resumption point is popped. -/
  | backtrack
  /-- The match ends without a result. -/
  | fail
  /-- A firing poll calls the host. -/
  | checkPreempt
  /-- A full backtrack stack calls the host. -/
  | stackOverflow
  /-- The matcher reports an exhausted stack. -/
  | exception
  /-- The matcher reports too many backtracks. -/
  | fallback
  deriving DecidableEq, Repr

/-- The label of a reserved place. -/
def Reserved.label : Reserved → Label
  | entry => ⟨0⟩
  | start => ⟨1⟩
  | restart => ⟨2⟩
  | success => ⟨3⟩
  | exit => ⟨4⟩
  | leave => ⟨5⟩
  | backtrack => ⟨6⟩
  | fail => ⟨7⟩
  | checkPreempt => ⟨8⟩
  | stackOverflow => ⟨9⟩
  | exception => ⟨10⟩
  | fallback => ⟨11⟩

/-- How many labels are reserved. -/
def reservedLabels : Nat := 12

/-- One line of symbolic assembly. -/
inductive Item where
  /-- An instruction. -/
  | instr (i : Instr)
  /-- A branch to a label. -/
  | branch (b : Branch) (target : Label)
  /-- Declares the next local label. -/
  | declare
  /-- Gives a label its place. -/
  | bind (l : Label)
  /-- Gives a label its place and turns the return address on the native stack into a
  code offset there, so that the code may move until the routine returns. -/
  | stub (l : Label)
  /-- Stores the code offset of a label at the backtrack stack pointer. -/
  | storeTarget (l : Label)
  deriving DecidableEq, Repr

/-- The items of one opcode, with what else they ask of the assembler. -/
structure Block where
  /-- The lines of assembly. -/
  items : List Item
  /-- The capture registers the opcode touches, in order. -/
  registers : List Nat := []
  /-- The error to record, if the opcode has no machine code. -/
  error : Option CompileError := none
  /-- The bit table the opcode reads. -/
  bitTable : Option (Array UInt8) := none
  /-- The boundary list the opcode reads. -/
  boundaryList : Option (List UInt32) := none
  deriving Repr

/-- A block of instructions. -/
def Block.ofInstrs (is : List Instr) : Block := { items := is.map .instr }

/-- The load of a table's address. Tables lie outside the code, each in memory of its own that
is allocated when the opcode is lowered, and the code holds their addresses. The heap lies
beyond what a shorter move reaches, so every address takes the move of ten bytes. -/
def loadTable (dst : Reg) (table : UInt64) : Instr := .movRegImm64 dst table

/-- The address of an empty boundary list: the least aligned one, since nothing is
ever allocated for it and nothing is ever read there. -/
def emptyTable : UInt64 := 4

/-! ### The fixed registers -/

/-- The current position. -/
abbrev pos : Reg := Role.currentPosition.reg

/-- The current character. -/
abbrev chr : Reg := Role.currentCharacter.reg

/-- The end of the subject. -/
abbrev inputEnd : Reg := Role.inputEnd.reg

/-- The backtrack stack pointer. -/
abbrev backtrackSp : Reg := Role.backtrackStackPointer.reg

/-- The start of the code. -/
abbrev codeBase : Reg := Role.codeBase.reg

/-- The frame pointer. -/
abbrev fp : Reg := Role.framePointer.reg

/-- The frame offset of a capture register. A register beyond the largest one makes
the assembler record an error; meanwhile it counts as the first. -/
def registerSlot (reg : Nat) : Int32 :=
  if maxRegister < reg then registerOffset 0 else registerOffset reg

/-- The label a target stands for. -/
def targetLabel (dest : Target) : Label := dest.getD Reserved.backtrack.label

/-- A conditional branch to a target. -/
def branchTo (c : Cond) (dest : Target) : Item := .branch (.jcc c) (targetLabel dest)

/-! ### Common sequences -/

/-- Loads a frame slot. -/
def loadSlot (dst : Reg) (s : Frame.Slot) : Instr := .load .w64 dst fp (slotOffset s)

/-- Loads the address of the host's state. -/
def loadContext (dst : Reg) : Instr := loadSlot dst .runtimeContext

/-- Loads the start of the code again after the host may have moved it. -/
def reloadCodeBase : List Instr :=
  [loadContext .rcx, .load .w64 codeBase .rcx ContextField.codeBase.offset]

/-- Aligns the native stack for a call and keeps its old pointer in the new top word. -/
def prepareCall : List Instr :=
  [.mov .w64 .r10 .rsp, .aluImm .sub .w64 .rsp 8, .aluImm .and .w64 .rsp (-16),
    .store .w64 .r10 .rsp 0]

/-- Calls a function of the host and restores the native stack pointer. -/
def callHost (f : ContextField) : List Instr :=
  [loadContext .rax, .callRm (.mem { base := .rax, disp := f.offset }), .load .w64 .rsp .rsp 0]

/-- Calls `stub` unless `reg` is above the host's word `limit`; `next` is the next
local label. -/
def callUnlessAbove (next : Nat) (reg : Reg) (limit : ContextField) (stub : Reserved) : List Item :=
  [.declare, .instr (loadContext .rax), .instr (.aluLoad .cmp .w64 reg .rax limit.offset),
    .branch (.jcc .a) ⟨next⟩, .branch .call stub.label, .bind ⟨next⟩]

/-- The preemption poll: calls the host if the native stack pointer is at or below the
interrupt limit. -/
def poll (next : Nat) : List Item := callUnlessAbove next .rsp .interruptLimit .checkPreempt

/-- The limit check after a push: calls the host if the backtrack stack is nearly full. -/
def checkStackLimit (next : Nat) : List Item :=
  callUnlessAbove next backtrackSp .stackLimit .stackOverflow

/-- Makes room for one entry of the backtrack stack. -/
def makeEntry : Instr := .aluImm .sub .w64 backtrackSp 4

/-- Drops the top entry of the backtrack stack. -/
def dropEntry : Instr := .aluImm .add .w64 backtrackSp 4

/-- Pushes the lower half of a register. -/
def pushEntry (src : Reg) : List Instr := [makeEntry, .store .w32 src backtrackSp 0]

/-- Pops a sign-extended entry. -/
def popEntry (dst : Reg) : List Instr :=
  [.movExtend .signDword dst (.mem { base := backtrackSp }), dropEntry]

/-- Loads the stack pointer of the empty backtrack stack. -/
def loadStackBase (dst : Reg) : List Instr :=
  [loadContext dst, .load .w64 dst dst ContextField.stackMemoryTop.offset,
    .aluLoad .add .w64 dst fp (slotOffset .stackBase)]

/-- Compares the current character with the range from `first` to `last`: afterwards
*below or equal* holds inside it and *above* outside. -/
def rangeTest (first last : UInt32) : List Instr :=
  [.leaAt .w32 .rax chr (-first).toInt32, .aluImm .cmp .w32 .rax (last - first).toInt32]

/-- The load of `count` characters from `disp` bytes past the position, if there is one. -/
def loadChars? (mode : Mode) (disp : Int32) (count : Nat) : Option Instr :=
  let src : Operand := .mem { base := inputEnd, index := some (pos, 0), disp := disp }
  match mode, count with
  | .latin1, 1 => some (.movExtend .zeroByte chr src)
  | .latin1, 2 | .uc16, 1 => some (.movExtend .zeroWord chr src)
  | .latin1, 4 | .uc16, 2 => some (.movRegRm .w32 chr src)
  | _, _ => none

/-- The load of the character before the position. -/
def loadPrevious (mode : Mode) : List Instr :=
  (loadChars? mode (Int32.ofInt (-(mode.charSize : Int))) 1).toList

end NativeMatcher.Assembly
