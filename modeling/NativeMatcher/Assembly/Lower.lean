import NativeMatcher.Assembly.Item

/-!
# The machine code of opcodes

Each opcode as a block of assembly. The current position lives in `r12` as a byte
offset from the end of the subject, the current character in `r13`, the backtrack
stack pointer in `rbx`, and register `i` in the frame.

Offsets that an opcode gives in characters are scaled to bytes here, and the
scaled offset has to fit 32 bits: this is where lowering can fault. A load that
checks its bounds is lowered in two stages, the check of the last character and
the load itself (`NativeMatcher.Assembly.stages`).

The argument `next` is the index of the next local label; a block that needs one
declares it (`NativeMatcher.Assembly.Item.declare`) where the first use is at hand. The
argument `table` is the address of the memory that a table is allocated in, should the
opcode need one.
-/

namespace NativeMatcher.Assembly

open X64

/-- A number of characters in bytes. -/
def scale (mode : Mode) (count : Int32) : Except Fault Int32 :=
  Checked.mul count (Int32.ofNat mode.charSize)

/-! ### Character tests -/

/-- Looks the current character up in a boundary list; afterwards *not equal* holds
inside the ranges and *equal* outside. -/
def rangeLookup (table : UInt64) (ranges : List CharRange) (c : Cond) (dest : Target) : Block :=
  let address : Instr :=
    if ranges.isEmpty then .loadConst .w64 .rsi emptyTable else loadTable .rsi table
  let code := prepareCall
    ++ [.mov .w32 .rdi chr, address, .loadConst .w64 .rdx (UInt64.ofNat (2 * ranges.length))]
    ++ callHost .isCharacterInRangeArray ++ reloadCodeBase ++ [.test .w64 .rax .rax]
  { items := code.map .instr ++ [branchTo c dest]
    boundaryList := some (CharRange.boundaries ranges) }

/-- The table of the word characters. -/
def wordTable : Array UInt8 :=
  (Array.range tableSize).map fun i => if CharClass.isWord (UInt32.ofNat i) then 1 else 0

/-- Compares the current character with a constant. -/
def compareChar (c : UInt32) : Instr := .aluImm .cmp .w32 chr c.toInt32

/-- Leaves the difference of the character and the line ends in `rax`. Line feed and
carriage return differ in bits that an exclusive or with one makes adjacent. -/
def lineEndTest : List Instr :=
  [.mov .w32 .rax chr, .aluImm .xor .w32 .rax 1, .aluImm .sub .w32 .rax 0x0B,
    .aluImm .cmp .w32 .rax 1]

/-- Goes on from `lineEndTest` to the two separators. -/
def separatorTest : List Instr :=
  [.aluImm .sub .w32 .rax (0x2028 - 0x0B), .aluImm .cmp .w32 .rax 1]

/-- Reads the word table at the current character. -/
def readWordTable (table : UInt64) : List Instr :=
  [loadTable .rax table,
    .movExtend .zeroByte .rax (.mem { base := .rax, index := some (chr, 0) }),
    .test .w32 .rax .rax]

/-- Branches to `dest` unless the current character is in the class. -/
def lowerClass (mode : Mode) (next : Nat) (table : UInt64) (dest : Target) : CharClass → Block
  | .whitespace =>
    { items := [.declare, .instr (compareChar 0x20), .branch (.jcc .e) ⟨next⟩,
        .instr (compareChar 0xA0), .branch (.jcc .e) ⟨next⟩]
        ++ (rangeTest 9 13).map .instr ++ [branchTo .a dest, .bind ⟨next⟩] }
  | .notWhitespace =>
    { items := [.instr (compareChar 0x20), branchTo .e dest, .instr (compareChar 0xA0),
        branchTo .e dest] ++ (rangeTest 9 13).map .instr ++ [branchTo .be dest] }
  | .digit => { items := (rangeTest 0x30 0x39).map .instr ++ [branchTo .a dest] }
  | .notDigit => { items := (rangeTest 0x30 0x39).map .instr ++ [branchTo .be dest] }
  | .word =>
    { items := [.instr (compareChar 0x7A), branchTo .a dest, .declare]
        ++ (readWordTable table).map .instr ++ [branchTo .e dest, .bind ⟨next⟩]
      bitTable := some wordTable }
  | .notWord =>
    { items := [.declare, .instr (compareChar 0x7A), .branch (.jcc .a) ⟨next⟩]
        ++ (readWordTable table).map .instr ++ [branchTo .ne dest, .bind ⟨next⟩]
      bitTable := some wordTable }
  | .lineTerminator =>
    { items := .declare :: lineEndTest.map .instr
        ++ (match mode with
          | .latin1 => [branchTo .a dest]
          | .uc16 =>
            .branch (.jcc .be) ⟨next⟩ :: separatorTest.map .instr ++ [branchTo .a dest])
        ++ [.bind ⟨next⟩] }
  | .notLineTerminator =>
    { items := lineEndTest.map .instr ++ [branchTo .be dest]
        ++ (match mode with
          | .latin1 => []
          | .uc16 => separatorTest.map .instr ++ [branchTo .be dest]) }
  | .everything => { items := [] }

/-- Masks the current character and compares it with `c`. -/
def maskTest (c mask : UInt32) : List Instr :=
  if c = 0 then [.testRmImm .w32 (.reg chr) mask]
  else [.mov .w32 .rax chr, .aluImm .and .w32 .rax mask.toInt32, .aluImm .cmp .w32 .rax c.toInt32]

/-- Branches to `dest` if the current character satisfies the test. -/
def lowerTest (mode : Mode) (next : Nat) (address : UInt64) (dest : Target) : CharTest → Block
  | .equal c => { items := [.instr (compareChar c), branchTo .e dest] }
  | .notEqual c => { items := [.instr (compareChar c), branchTo .ne dest] }
  | .equalAfterAnd c mask => { items := (maskTest c mask).map .instr ++ [branchTo .e dest] }
  | .notEqualAfterAnd c mask => { items := (maskTest c mask).map .instr ++ [branchTo .ne dest] }
  | .notEqualAfterMinusAnd c minus mask =>
    { items := [.instr (.leaAt .w32 .rax chr (-minus).toInt32),
        .instr (.aluImm .and .w32 .rax mask.toInt32),
        .instr (.aluImm .cmp .w32 .rax c.toInt32), branchTo .ne dest] }
  | .greater limit => { items := [.instr (compareChar limit), branchTo .a dest] }
  | .less limit => { items := [.instr (compareChar limit), branchTo .b dest] }
  | .inRange first last => { items := (rangeTest first last).map .instr ++ [branchTo .be dest] }
  | .notInRange first last => { items := (rangeTest first last).map .instr ++ [branchTo .a dest] }
  | .inRanges ranges => rangeLookup address ranges .ne dest
  | .notInRanges ranges => rangeLookup address ranges .e dest
  | .inTable table =>
    { items := [.instr (loadTable .rax address), .instr (.mov .w32 .rcx chr),
        .instr (.aluImm .and .w32 .rcx 127),
        .instr (.movExtend .zeroByte .rax (.mem { base := .rax, index := some (.rcx, 0) })),
        .instr (.test .w32 .rax .rax), branchTo .ne dest]
      bitTable := some table }
  | .notInClass cls => lowerClass mode next address dest cls

/-! ### Tests of the position and of registers -/

/-- Compares the place `disp` bytes past the position with the place before the subject. -/
def compareStart (disp : Int32) : List Instr :=
  [.leaAt .w64 .rax pos disp, .aluLoad .cmp .w64 .rax fp (slotOffset .beforeStart)]

/-- Branches to `dest` if the position satisfies the test. -/
def lowerPlace (mode : Mode) (dest : Target) : PlaceTest → Except Fault Block
  | .atStart offset => do
    let disp ← scale mode (← Checked.sub offset 1)
    return { items := (compareStart disp).map .instr ++ [branchTo .e dest] }
  | .notAtStart offset => do
    let disp ← scale mode (← Checked.sub offset 1)
    return { items := (compareStart disp).map .instr ++ [branchTo .ne dest] }
  | .outside offset => do
    let disp ← scale mode offset
    if 0 ≤ offset then
      return { items := [.instr (.aluImm .cmp .w64 pos (-disp)), branchTo .ge dest] }
    else
      return { items := (compareStart disp).map .instr ++ [branchTo .le dest] }

/-- Branches to `dest` if the register satisfies the test. -/
def lowerRegister (dest : Target) : RegisterTest → Block
  | .ge reg value =>
    { items := [.instr (.aluImmStore .cmp .w64 fp (registerSlot reg) value), branchTo .ge dest]
      registers := [reg] }
  | .lt reg value =>
    { items := [.instr (.aluImmStore .cmp .w64 fp (registerSlot reg) value), branchTo .l dest]
      registers := [reg] }
  | .eqPosition reg =>
    { items := [.instr (.aluLoad .cmp .w64 pos fp (registerSlot reg)), branchTo .e dest]
      registers := [reg] }

/-! ### Back references -/

/-- Leaves the start of the capture at `reg` in `rdx` and its length in `rax`, and goes to
`done` if the length is zero. -/
def captureLength (reg : Nat) (done : Label) : List Item :=
  [.instr (.load .w64 .rdx fp (registerSlot reg)),
    .instr (.load .w64 .rax fp (registerSlot (reg + 1))),
    .instr (.alu .sub .w64 .rax .rdx), .branch (.jcc .e) done]

/-- Branches to `dest` unless `rax` bytes fit before or after the position. -/
def captureFits (backward : Bool) (dest : Target) : List Item :=
  if backward then
    [.instr (loadSlot .rcx .beforeStart), .instr (.alu .add .w64 .rcx .rax),
      .instr (.alu .cmp .w64 pos .rcx), branchTo .le dest]
  else
    [.instr (.mov .w64 .rcx pos), .instr (.alu .add .w64 .rcx .rax), branchTo .g dest]

/-- Moves the position over the length of the capture at `reg`. -/
def skipCapture (reg : Nat) (backward : Bool) : List Item :=
  [.instr (.load .w64 .rax fp (registerSlot (reg + 1))),
    .instr (.aluLoad .sub .w64 .rax fp (registerSlot reg)),
    .instr (.alu (if backward then .sub else .add) .w64 pos .rax)]

/-- The address `base + index`. -/
def leaSum (dst base index : Reg) : Instr :=
  .lea .w64 dst { base := base, index := some (index, 0) }

/-- Compares the capture with the subject character by character: `r8` walks the
subject, `rdx` the capture, and `r9` is the end of the capture. -/
def backReference (mode : Mode) (next reg : Nat) (backward : Bool) (dest : Target) : List Item :=
  let ext : Extend := match mode with | .latin1 => .zeroByte | .uc16 => .zeroWord
  let size : Int32 := Int32.ofNat mode.charSize
  [.declare, .declare] ++ captureLength reg ⟨next⟩ ++ captureFits backward dest
    ++ [.instr (leaSum .r8 inputEnd pos)]
    ++ (if backward then [.instr (.alu .sub .w64 .r8 .rax)] else [])
    ++ [.instr (.alu .add .w64 .rdx inputEnd), .instr (leaSum .r9 .rdx .rax),
      .bind ⟨next + 1⟩,
      .instr (.movExtend ext .rax (.mem { base := .rdx })),
      .instr (.movExtend ext .rcx (.mem { base := .r8 })),
      .instr (.alu .cmp .w32 .rax .rcx), branchTo .ne dest,
      .instr (.aluImm .add .w64 .r8 size), .instr (.aluImm .add .w64 .rdx size),
      .instr (.alu .cmp .w64 .rdx .r9), .branch (.jcc .b) ⟨next + 1⟩]
    ++ (if backward then skipCapture reg true
      else [.instr (.mov .w64 pos .r8), .instr (.alu .sub .w64 pos inputEnd)])
    ++ [.bind ⟨next⟩]

/-- The flags of the host's comparison: one for 16-bit characters, two for code points. -/
def compareFlags (mode : Mode) (unicode : Bool) : UInt64 :=
  (match mode with | .latin1 => 0 | .uc16 => 1) + (if unicode then 2 else 0)

/-- Lets the host compare the capture with the subject ignoring case. -/
def backReferenceIgnoreCase (mode : Mode) (next reg : Nat) (backward unicode : Bool)
    (dest : Target) : List Item :=
  let arguments : List Instr := prepareCall
    ++ [leaSum .rdi inputEnd .rdx, leaSum .rsi inputEnd pos]
    ++ (if backward then [.alu .sub .w64 .rsi .rax] else [])
    ++ [.mov .w64 .rdx .rax, .loadConst .w32 .rcx (compareFlags mode unicode)]
  [.declare] ++ captureLength reg ⟨next⟩ ++ captureFits backward dest
    ++ (arguments ++ callHost .caseInsensitiveCompare ++ reloadCodeBase
      ++ [Instr.test .w64 .rax .rax]).map .instr
    ++ [branchTo .e dest] ++ skipCapture reg backward ++ [.bind ⟨next⟩]

/-! ### Opcodes -/

/-- The offset of the last character a checked load reads, or of the first one if that
lies before the position. -/
def lastOffset (offset : Int32) (count : Nat) : Except Fault Int32 :=
  if 0 ≤ offset then do Checked.sub (← Checked.add offset (Int32.ofNat count)) 1
  else .ok offset

/-- The opcodes an opcode is lowered as, one after the other: a checked load is a position
test and an unchecked load. -/
def stages : Opcode → Except Fault (List Opcode)
  | .load offset dest true count => do
    let last ← lastOffset offset count
    return [.onPlace (.outside last) dest, .load offset dest false count]
  | op => .ok [op]

/-- The block of one opcode, which is a stage. -/
def lower (mode : Mode) (next : Nat) (table : UInt64) (isBound : Label → Bool) :
    Opcode → Except Fault Block
  | .bind l => .ok { items := [.bind l] }
  | .advance count =>
    if count = 0 then .ok { items := [] }
    else do
      let disp ← scale mode count
      return .ofInstrs [.aluImm .add .w64 pos disp]
  | .advanceRegister reg delta =>
    .ok { items := if delta = 0 then [] else
            [.instr (.aluImmStore .add .w64 fp (registerSlot reg) delta)]
          registers := [reg] }
  | .backtrack => .ok { items := [.branch .jmp Reserved.backtrack.label] }
  | .onChar test dest => .ok (lowerTest mode next table dest test)
  | .onPlace test dest => lowerPlace mode dest test
  | .onRegister test dest => .ok (lowerRegister dest test)
  | .checkGreedyLoop dest =>
    .ok { items := .declare :: (loadStackBase .rcx).map .instr
            ++ [.instr (.alu .cmp .w64 backtrackSp .rcx), .branch (.jcc .ae) ⟨next⟩,
              .instr (.aluLoad .cmp .w32 pos backtrackSp 0), .branch (.jcc .ne) ⟨next⟩,
              .instr dropEntry, .branch .jmp (targetLabel dest), .bind ⟨next⟩] }
  | .checkNotBackReference reg backward dest => do
    let _ ← Checked.size .add (reg + 1)
    return { items := backReference mode next reg backward dest, registers := [reg, reg + 1] }
  | .checkNotBackReferenceIgnoreCase reg backward unicode dest => do
    let _ ← Checked.size .add (reg + 1)
    return { items := backReferenceIgnoreCase mode next reg backward unicode dest
             registers := [reg, reg + 1] }
  | .fail => .ok { items := [.branch .jmp Reserved.fail.label] }
  | .goTo none => .ok { items := [.branch .jmp Reserved.backtrack.label] }
  | .goTo (some l) =>
    .ok { items := (if isBound l then poll next else []) ++ [.branch .jmp l] }
  | .load offset _ _ count => do
    let disp ← scale mode offset
    match loadChars? mode disp count with
    | some i => return .ofInstrs [i]
    | none => return { items := [], error := some (.unsupported (.loadWidth count mode)) }
  | .popPosition => .ok (.ofInstrs (popEntry pos))
  | .popRegister reg =>
    .ok { items := (popEntry .rax ++ [Instr.store .w64 .rax fp (registerSlot reg)]).map .instr
          registers := [reg] }
  | .pushBacktrack l =>
    .ok { items := [.instr makeEntry, .storeTarget l] ++ checkStackLimit next }
  | .pushPosition => .ok { items := (pushEntry pos).map .instr ++ checkStackLimit next }
  | .pushRegister reg checked =>
    .ok { items := (.load .w64 .rax fp (registerSlot reg) :: pushEntry .rax).map .instr
            ++ (if checked then checkStackLimit next else [])
          registers := [reg] }
  | .readPosition reg =>
    .ok { items := [.instr (.load .w64 pos fp (registerSlot reg))], registers := [reg] }
  | .readStackPointer reg =>
    .ok { items := [.instr (loadContext .rax),
            .instr (.load .w64 backtrackSp .rax ContextField.stackMemoryTop.offset),
            .instr (.aluLoad .add .w64 backtrackSp fp (registerSlot reg))]
          registers := [reg] }
  | .setPositionFromEnd count => do
    let limit ← scale mode (← Checked.neg count)
    return { items := [.declare, .instr (.aluImm .cmp .w64 pos limit), .branch (.jcc .ge) ⟨next⟩,
               .instr (.loadConst .w64 pos limit.toInt64.toUInt64)]
               ++ (loadPrevious mode).map .instr ++ [.bind ⟨next⟩] }
  | .setRegister reg value =>
    .ok { items := [.instr (.storeImm .w64 fp (registerSlot reg) value)], registers := [reg] }
  | .succeed => .ok { items := [.branch .jmp Reserved.success.label] }
  | .writePosition reg offset =>
    if offset = 0 then
      .ok { items := [.instr (.store .w64 pos fp (registerSlot reg))], registers := [reg] }
    else do
      let disp ← scale mode offset
      return { items := [.instr (.leaAt .w64 .rax pos disp),
                 .instr (.store .w64 .rax fp (registerSlot reg))]
               registers := [reg] }
  | .clearRegisters first last =>
    let regs := List.range' first (last + 1 - first)
    .ok { items := .instr (loadSlot .rax .beforeStart)
            :: regs.map fun r => .instr (.store .w64 .rax fp (registerSlot r))
          registers := regs }
  | .writeStackPointer reg =>
    .ok { items := [.instr (loadContext .rax), .instr (.mov .w64 .rcx backtrackSp),
            .instr (.aluLoad .sub .w64 .rcx .rax ContextField.stackMemoryTop.offset),
            .instr (.store .w64 .rcx fp (registerSlot reg))]
          registers := [reg] }

end NativeMatcher.Assembly
