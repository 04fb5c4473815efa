import NativeMatcher.Assembly.Item

/-!
# The fixed routines of a matcher

Around the code of the opcodes stand the routines every matcher has: the entry
sequence, which builds the frame; the success routine, which stores the captures
and in a global mode starts over; the exit sequence; and the routines that
backtracking, polls and a full stack lead to. Most of them are emitted only if
something refers to them.

The two stubs, `NativeMatcher.Assembly.checkPreempt` and
`NativeMatcher.Assembly.growStack`, are the only routines that are *called*. While
the host runs the code may move, so a stub keeps its return address as a code
offset and turns it back into an address just before it returns.
-/

namespace NativeMatcher.Assembly

open X64

/-- The status of a match that found something. -/
def statusSuccess : UInt64 := 1

/-- The status of an exhausted stack, minus one. -/
def statusException : UInt64 := 0xFFFFFFFFFFFFFFFF

/-- The status of too many backtracks, minus three. -/
def statusFallback : UInt64 := 0xFFFFFFFFFFFFFFFD

/-- Register files larger than this are filled by a loop. -/
def maxUnrolledFill : Nat := 8

/-- Stores `rax` into each of the first `count` registers. -/
def fillRegisters (next count : Nat) : List Item :=
  if count ≤ maxUnrolledFill then
    (List.range count).map fun i => .instr (.store .w64 .rax fp (registerOffset i))
  else
    [.declare, .instr (.leaAt .w64 .rcx fp (registerOffset 0)),
      .instr (.loadConst .w32 .rdx (UInt64.ofNat count)), .bind ⟨next⟩,
      .instr (.store .w64 .rax .rcx 0), .instr (.aluImm .sub .w64 .rcx wordSize),
      .instr (.aluImm .sub .w32 .rdx 1), .branch (.jcc .ne) ⟨next⟩]

/-- Saves one slot on entry: its incoming register, or zero. -/
def saveSlot (s : Frame.Slot) : Instr :=
  match savedRegister s with
  | some r => .push r
  | none => .pushImm 0

/-- Builds the frame with room for `registers` capture registers. -/
def buildFrame (registers : Nat) : List Instr :=
  [.push .rbp, .mov .w64 .rbp .rsp] ++ frameLayout.below.map saveSlot
    ++ (if registers = 0 then [] else
      [.aluImm .sub .w64 .rsp (Int32.ofNat (registers * 8))])

/-- Loads the start of the code and the backtrack stack pointer, and keeps the base of
the stack as an offset from its top, which moves when the stack grows. -/
def enterStack : List Instr :=
  [loadContext .rax, .load .w64 codeBase .rax ContextField.codeBase.offset,
    .load .w64 backtrackSp .rax ContextField.stackPointer.offset,
    .mov .w64 .rcx backtrackSp,
    .aluLoad .sub .w64 .rcx .rax ContextField.stackMemoryTop.offset,
    .store .w64 .rcx fp (slotOffset .stackBase)]

/-- Sets the position, and computes the place before the subject. -/
def enterSubject (mode : Mode) : List Instr :=
  [loadSlot inputEnd .inputEnd, loadSlot pos .inputStart, .alu .sub .w64 pos inputEnd,
    loadSlot .rcx .startIndex, .neg .w64 (.reg .rcx),
    .lea .w64 .rax { base := pos, index := some (.rcx, UInt8.ofNat (mode.charSize - 1)),
                     disp := Int32.ofInt (-(mode.charSize : Int)) },
    .store .w64 .rax fp (slotOffset .beforeStart)]

/-- The entry sequence. A match starts over at its second half: the character before the
position is loaded, which at the start of the subject counts as a line feed, and every
register is unset. -/
def entry (mode : Mode) (registers next : Nat) : List Item :=
  .bind Reserved.entry.label :: (buildFrame registers ++ enterStack).map .instr
    ++ poll next ++ (enterSubject mode).map .instr
    ++ [.bind Reserved.restart.label, .declare, .declare,
      .instr (.leaAt .w64 .rax pos (Int32.ofInt (-(mode.charSize : Int)))),
      .instr (.aluLoad .cmp .w64 .rax fp (slotOffset .beforeStart)),
      .branch (.jcc .e) ⟨next + 1⟩]
    ++ (loadPrevious mode).map .instr
    ++ [.branch .jmp ⟨next + 2⟩, .bind ⟨next + 1⟩, .instr (.loadConst .w32 chr 10),
      .bind ⟨next + 2⟩, .instr (loadSlot .rax .beforeStart)]
    ++ fillRegisters (next + 3) registers
    ++ [.branch .jmp Reserved.start.label]

/-- Stores one register as an index from the start of the subject; `rcx` is the length of
the subject in bytes. -/
def storeCapture (mode : Mode) (globalMode : GlobalMode) (i : Nat) : List Instr :=
  [.load .w64 .rax fp (registerOffset i)]
    ++ (if i = 0 && globalMode.checksZeroLength then [.mov .w64 .rdx .rax] else [])
    ++ [.alu .add .w64 .rax .rcx]
    ++ (match mode with | .latin1 => [] | .uc16 => [.shiftImm .sar .w64 (.reg .rax) 1])
    ++ [.store .w32 .rax .r8 (Int32.ofNat (i * 4))]

/-- Stores the `saved` captures into the output. -/
def storeCaptures (mode : Mode) (globalMode : GlobalMode) (saved : Nat) : List Instr :=
  if saved = 0 then [] else
    [loadSlot .rcx .inputEnd, .aluLoad .sub .w64 .rcx fp (slotOffset .inputStart),
      loadSlot .rax .startIndex,
      .lea .w64 .rcx { base := .rcx, index := some (.rax, UInt8.ofNat (mode.charSize - 1)) },
      loadSlot .r8 .output]
      ++ (List.range saved).flatMap (storeCapture mode globalMode)

/-- Goes on at `reload` unless the position is between the halves of a surrogate pair,
and otherwise at `advance`. -/
def skipPair (advance reload : Label) : List Item :=
  let unit (disp : Int32) : Instr :=
    .movExtend .zeroWord .rax (.mem { base := inputEnd, index := some (pos, 0), disp := disp })
  [.instr (.aluImm .cmp .w64 pos 0), .branch (.jcc .ge) reload,
    .instr (unit (-2)), .instr (.aluImm .sub .w32 .rax 0xD800),
    .instr (.aluImm .cmp .w32 .rax 0x3FF), .branch (.jcc .a) reload,
    .instr (unit 0), .instr (.aluImm .sub .w32 .rax 0xDC00),
    .instr (.aluImm .cmp .w32 .rax 0x3FF), .branch (.jcc .be) advance]

/-- Steps over an empty match, so that it is not found again at the same place; `rdx` is
the start of the match. -/
def stepOverEmpty (mode : Mode) (globalMode : GlobalMode) (next : Nat) : List Item :=
  [.declare, .instr (.alu .cmp .w64 pos .rdx), .branch (.jcc .ne) ⟨next⟩,
    .instr (.test .w64 pos pos), .branch (.jcc .e) Reserved.exit.label,
    .declare, .bind ⟨next + 1⟩,
    .instr (.aluImm .add .w64 pos (Int32.ofNat mode.charSize))]
    ++ (if globalMode = .unicode ∧ mode = .uc16 then skipPair ⟨next + 1⟩ ⟨next⟩ else [])
    ++ [.bind ⟨next⟩]

/-- The success routine: stores the captures and returns, or, in a global mode, counts the
match and starts over unless the output is full. -/
def success (mode : Mode) (globalMode : GlobalMode) (saved next : Nat) : List Item :=
  .bind Reserved.success.label :: (storeCaptures mode globalMode saved).map .instr
    ++ (if globalMode.isGlobal then
      [.instr (.inc .w64 (.mem { base := fp, disp := slotOffset .successfulCaptures })),
        .instr (loadSlot .rcx .outputCount),
        .instr (.aluImm .sub .w64 .rcx (Int32.ofNat saved)),
        .instr (.aluImm .cmp .w64 .rcx (Int32.ofNat saved)),
        .branch (.jcc .l) Reserved.exit.label,
        .instr (.store .w64 .rcx fp (slotOffset .outputCount)),
        .instr (.aluImmStore .add .w64 fp (slotOffset .output) (Int32.ofNat (saved * 4)))]
        ++ (loadStackBase backtrackSp).map .instr
        ++ (if globalMode.checksZeroLength then stepOverEmpty mode globalMode next else [])
        ++ [.branch .jmp Reserved.restart.label]
    else
      [.instr (.loadConst .w32 .rax statusSuccess), .branch .jmp Reserved.leave.label])

/-- The exit sequence: gives the caller its registers back. -/
def exit (globalMode : GlobalMode) : List Item :=
  .bind Reserved.exit.label
    :: (if globalMode.isGlobal then [.instr (loadSlot .rax .successfulCaptures)] else [])
    ++ [.bind Reserved.leave.label,
      .instr (.leaAt .w64 .rsp fp (slotOffset (.calleeSaved 15)))]
    ++ (calleeSaved.reverse.map fun r => .instr (.pop r))
    ++ [.instr (.mov .w64 .rsp .rbp), .instr (.pop .rbp), .instr .ret]

/-- Counts a backtrack, and gives up after too many. -/
def countBacktrack (limit : UInt32) (canFallback : Bool) (next : Nat) : List Item :=
  let count : X64.Mem := { base := fp, disp := slotOffset .backtrackCount }
  let giveUp : Reserved := if canFallback then .fallback else .fail
  [.declare, .instr (.inc .w64 (.mem count)),
    .instr (.aluRmImm .cmp .w64 (.mem count) limit.toInt32), .branch (.jcc .le) ⟨next⟩,
    .branch .jmp giveUp.label, .bind ⟨next⟩]

/-- The backtrack routine: pops the last resumption point and goes on there. -/
def backtrack (limit : Option UInt32) (canFallback : Bool) (next : Nat) : List Item :=
  .bind Reserved.backtrack.label :: poll next
    ++ (match limit with
      | some n => countBacktrack n canFallback (next + 1)
      | none => [])
    ++ (loadStackBase .rcx).map .instr
    ++ [.instr (.alu .cmp .w64 backtrackSp .rcx), .branch (.jcc .ae) Reserved.fail.label]
    ++ (popEntry .rax).map .instr
    ++ [.instr (.alu .add .w64 .rax codeBase), .instr (.jmpRm (.reg .rax))]

/-- The end of a match without a result. -/
def failExit : List Item :=
  [.bind Reserved.fail.label, .instr (.loadConst .w32 .rax 0),
    .branch .jmp Reserved.exit.label]

/-- Turns the return code offset back into an address and returns. -/
def leaveStub : List Item :=
  [.instr (.aluStore .add .w64 .rsp 0 codeBase), .instr .ret]

/-- Leaves the backtrack stack pointer where the host can change it. -/
def spillStackPointer : List Instr :=
  [loadContext .rax, .store .w64 backtrackSp .rax ContextField.stackPointer.offset]

/-- The stub of a firing poll. -/
def checkPreempt : List Item :=
  .stub Reserved.checkPreempt.label
    :: (spillStackPointer ++ prepareCall
      ++ [Instr.leaAt .w64 .rdi .rsp (-8), Instr.mov .w64 .rsi codeBase, Instr.mov .w64 .rdx fp]
      ++ callHost .checkStackGuardState ++ [Instr.test .w64 .rax .rax]).map .instr
    ++ [.branch (.jcc .ne) Reserved.leave.label]
    ++ (reloadCodeBase
      ++ [Instr.load .w64 backtrackSp .rcx ContextField.stackPointer.offset]).map .instr
    ++ leaveStub

/-- The stub of a full backtrack stack. -/
def growStack : List Item :=
  .stub Reserved.stackOverflow.label
    :: (spillStackPointer ++ prepareCall ++ [loadContext .rdi] ++ callHost .growStack
      ++ [Instr.test .w64 .rax .rax]).map .instr
    ++ [.branch (.jcc .e) Reserved.exception.label, .instr (.mov .w64 backtrackSp .rax)]
    ++ reloadCodeBase.map .instr ++ leaveStub

/-- The end of a match with a status of its own. -/
def statusExit (place : Reserved) (status : UInt64) : List Item :=
  [.bind place.label, .instr (.loadConst .w64 .rax status), .branch .jmp Reserved.leave.label]

end NativeMatcher.Assembly
