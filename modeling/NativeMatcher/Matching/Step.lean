import NativeMatcher.Matching.Thread

/-!
# What opcodes do

The effect of each opcode on a thread, and of the routines that stand around the
program: backtracking, the report of a match, the start over of a global mode.

Control reaches the host at three places: a *poll* at the entry, at every backtrack and
before every jump back; a *growth* after a push that leaves the stack nearly full; and
the comparison of a back reference that ignores case.
-/

namespace NativeMatcher

/-! ### Pushing and popping -/

namespace Thread

/-- Pushes an entry; a checked push grows the stack if it is nearly full, and the match
ends if it cannot grow. -/
def push (t : Thread) (e : UInt32) (checked : Bool) : Outcome :=
  let depth := t.depth + 4
  match t.stack.write depth e with
  | none => .stray
  | some stack =>
    -- The check comes after the write: the entries kept free have room for this one.
    if checked && stack.needsGrowth depth then
      match stack.grow depth with
      | some (stack, depth) =>
        .next { t with stack := stack, depth := depth, growths := t.growths + 1, pc := t.pc + 1 }
      | none => .done .exception { t with stack := stack, depth := depth }
    else .next { t with stack := stack, depth := depth, pc := t.pc + 1 }

/-- Pops an entry and goes on with its word. -/
def pop (t : Thread) (f : Int64 → Thread → Thread) : Outcome :=
  match t.stack.read t.depth with
  | none => .stray
  | some e => .next (f (signWord e) { t with depth := t.depth - 4, pc := t.pc + 1 })

end Thread

namespace Task

variable (k : Task)

/-! ### Polls, branches and backtracking -/

/-- A poll: it fires when the stack pointer is at or below the interrupt limit, and then
the host answers. The answer goes by the address of the call's own return address. -/
def poll (t : Thread) : Outcome :=
  if t.limit < k.sp then .next t
  else
    let t := { t with polls := t.polls + 1 }
    match t.guard.answer k.origin (returnSlot k.sp) with
    | .unwind s => .done s t
    | .proceed => .next t
    | .serviced g moved =>
      -- What is pending may have changed, and with it the limit of the polls to come.
      .next { t with
        guard := g
        limit := g.interruptLimit
        relocations := if moved then t.relocations + 1 else t.relocations }

/-- The end of a match that finds nothing more: in a global mode what was found counts. -/
def exit (t : Thread) : Outcome :=
  if k.matcher.options.globalMode.isGlobal then .done (.ofCount t.captures) t
  else .done .failure t

/-- Counts a backtrack if there is a limit; the match ends at the first one beyond it. -/
def countBacktrack (t : Thread) : Outcome :=
  match k.matcher.options.backtrackLimit with
  | none => .next t
  | some limit =>
    let t := { t with backtracks := t.backtracks + 1 }
    -- Generated code compares with a signed immediate, so a limit beyond that is cut.
    if t.backtracks ≤ (min limit 0x7FFFFFFF).toNat then .next t
    else if k.matcher.options.canFallback then .done .fallback t
    else k.exit t

/-- Pops the last resumption point and goes on there. -/
def resume (t : Thread) : Outcome :=
  if t.stack.isEmptyAt t.depth then k.exit t
  else match t.stack.read t.depth with
    | none => .stray
    | some e =>
      match k.opcodeAt? e with
      | none => .stray
      | some i => .next { t with depth := t.depth - 4, pc := i }

/-- Backtracks: polls, counts, resumes. -/
def backtrack (t : Thread) : Outcome :=
  ((k.poll t).andThen k.countBacktrack).andThen k.resume

/-- Jumps to a label. -/
def jump (l : Label) (t : Thread) : Outcome :=
  match k.place? l with
  | some i => .next { t with pc := i }
  | none => .stray

/-- Branches to a target. -/
def branch (dest : Target) (t : Thread) : Outcome :=
  match dest with
  | some l => k.jump l t
  | none => k.backtrack t

/-- Branches to a target under a condition, and goes on otherwise. -/
def branchIf (c : Bool) (dest : Target) (t : Thread) : Outcome :=
  if c then k.branch dest t else .next t.advance

/-- Jumps to a label, with a poll if the jump goes back. -/
def goTo (l : Label) (t : Thread) : Outcome :=
  match k.place? l with
  | some i => if i < t.pc then (k.poll t).andThen (k.jump l) else k.jump l t
  | none => .stray

/-! ### Entries of the stack -/

/-- Pushes the code offset of a label. -/
def pushTarget (l : Label) (t : Thread) : Outcome :=
  match k.place? l with
  | none => .stray
  | some i =>
    match k.matcher.offsets[i]? with
    | none => .stray
    | some offset => t.push (UInt32.ofNat offset) true

/-- Drops the top entry and branches if it is the position. -/
def greedyLoop (dest : Target) (t : Thread) : Outcome :=
  if t.stack.isEmptyAt t.depth then .next t.advance
  else match t.stack.read t.depth with
    | none => .stray
    | some e =>
      if e = lowWord t.pos then k.branch dest { t with depth := t.depth - 4 }
      else .next t.advance

/-! ### Tests -/

/-- Whether the position satisfies a test. -/
def placeHolds (t : Thread) : PlaceTest → Bool
  | .atStart offset => t.pos + (k.bytes offset - k.unit) == k.before
  | .notAtStart offset => t.pos + (k.bytes offset - k.unit) != k.before
  | .outside offset =>
    if 0 ≤ offset then -(k.bytes offset) ≤ t.pos else t.pos + k.bytes offset ≤ k.before

/-- Whether a register satisfies a test. -/
def registerHolds (t : Thread) : RegisterTest → Bool
  | .ge reg value => value.toInt64 ≤ t.reg reg
  | .lt reg value => t.reg reg < value.toInt64
  | .eqPosition reg => t.reg reg == t.pos

/-- Loads characters and goes on. -/
def load (offset : Int32) (count : Nat) (t : Thread) : Outcome :=
  match k.chars? (t.pos + k.bytes offset) count with
  | some c => .next { t with char := c, pc := t.pc + 1 }
  | none => .stray

/-- The offset of the last character of a checked load, or of the first one if that lies
before the position. -/
def lastOffset (offset : Int32) (count : Nat) : Int32 :=
  if 0 ≤ offset then offset + Int32.ofNat count - 1 else offset

/-! ### Back references -/

/-- Whether `count` characters at two positions are the same; no answer if one of them lies
outside the subject. -/
def sameChars (k : Task) : (count : Nat) → (a b : Int64) → Option Bool
  | 0, _, _ => some true
  | n + 1, a, b => do
    let x ← k.chars? a 1
    let y ← k.chars? b 1
    if x = y then sameChars k n (a + k.unit) (b + k.unit) else return false

/-- The `count` characters from a position on. -/
def charList (k : Task) : (count : Nat) → (a : Int64) → Option (List UInt32)
  | 0, _ => some []
  | n + 1, a => do
    let x ← k.chars? a 1
    let rest ← charList k n (a + k.unit)
    return x :: rest

/-- Whether `count` characters at two positions are the same ignoring case. -/
def sameCharsIgnoreCase (unicode : Bool) (count : Nat) (a b : Int64) : Option Bool := do
  let xs ← k.charList count a
  let ys ← k.charList count b
  match k.mode with
  | .latin1 =>
    return Text.equalIgnoreCaseLatin1 .standard unicode (xs.map UInt32.toUInt8)
      (ys.map UInt32.toUInt8)
  | .uc16 =>
    return Text.equalIgnoreCaseUc16 .standard unicode (xs.map UInt32.toUInt16)
      (ys.map UInt32.toUInt16)

/-- The length of the capture at a register in bytes. -/
def captureLength (reg : Nat) (t : Thread) : Int64 := t.reg (reg + 1) - t.reg reg

/-- Whether `length` bytes fit before or after the position. -/
def captureFits (backward : Bool) (length : Int64) (t : Thread) : Bool :=
  if backward then k.before + length < t.pos else t.pos.toInt + length.toInt ≤ 0

/-- How many characters a comparison looks at: as many as it takes to get from the address of
the first register to that of the second, but at least one. -/
def compareCount (first last : Int64) : Nat :=
  let bytes := (k.address last).toNat - (k.address first).toNat
  -- The loop tests at its end.
  max 1 ((bytes + (k.mode.charSize - 1)) / k.mode.charSize)

/-- Moves over a repetition of the capture at a register, or branches if there is none. An
empty capture is repeated everywhere. -/
def backReference (reg : Nat) (backward : Bool) (dest : Target) (t : Thread) : Outcome :=
  let length := captureLength reg t
  if length = 0 then .next t.advance
  else if !k.captureFits backward length t then k.branch dest t
  else
    let count := k.compareCount (t.reg reg) (t.reg (reg + 1))
    let here := if backward then t.pos - length else t.pos
    match k.sameChars count (t.reg reg) here with
    | none => .stray
    | some false => k.branch dest t
    | some true =>
      let pos := if backward then here else t.pos + Int64.ofNat (count * k.mode.charSize)
      .next { t with pos := pos, pc := t.pc + 1 }

/-- As `backReference`, but ignoring case. -/
def backReferenceIgnoreCase (reg : Nat) (backward unicode : Bool) (dest : Target) (t : Thread) :
    Outcome :=
  let length := captureLength reg t
  if length = 0 then .next t.advance
  else if !k.captureFits backward length t then k.branch dest t
  -- The host compares slices, and there is none of a negative length.
  else if length < 0 then .stray
  else
    let here := if backward then t.pos - length else t.pos
    match k.sameCharsIgnoreCase unicode (length.toInt.toNat / k.mode.charSize) (t.reg reg) here with
    | none => .stray
    | some false => k.branch dest t
    | some true =>
      .next { t with pos := if backward then here else t.pos + length, pc := t.pc + 1 }

/-! ### Success and starting over -/

/-- A register as an index from the start of the subject. -/
def captureIndex (v : Int64) : Int32 :=
  let byte := v + k.length
  match k.mode with
  | .latin1 => byte.toInt32
  | .uc16 => (byte >>> 1).toInt32

/-- Stores the first `count` registers into the output, from `base` on. -/
def storeCaptures (count base : Nat) (regs : Array Int64) (output : Array Int32) : Array Int32 :=
  (List.range count).foldl
    (fun out i => out.setIfInBounds (base + i) (k.captureIndex (regs.getD i 0))) output

/-- Starts over at the position: loads the character before it, a line feed at the start of
the subject, and unsets every register. -/
def restart (t : Thread) : Outcome :=
  let previous := t.pos - k.unit
  let char := if previous = k.before then some 10 else k.chars? previous 1
  match char with
  | none => .stray
  | some c =>
    .next { t with
      char := c
      regs := Array.replicate k.matcher.object.registers k.before
      pc := 0 }

/-- Whether the position is between the halves of a surrogate pair. -/
def splitsPair (pos : Int64) : Option Bool :=
  if 0 ≤ pos then some false
  else do
    let lead ← k.chars? (pos - k.unit) 1
    if !Text.isLead lead.toUInt16 then return false
    let trail ← k.chars? pos 1
    return Text.isTrail trail.toUInt16

/-- The position after an empty match: one character on, and not inside a surrogate pair
where pairs count. -/
def positionAfterEmpty (pos : Int64) : Option Int64 :=
  let pos := pos + k.unit
  if k.matcher.options.globalMode = .unicode ∧ k.mode = .uc16 then do
    if ← k.splitsPair pos then return pos + k.unit
    return pos
  else some pos

/-- Starts over after a match that began at `start`; after an empty match at the end of the
subject there is nothing left to find. -/
def startOver (start : Int64) (t : Thread) : Outcome :=
  if k.matcher.options.globalMode.checksZeroLength && t.pos == start then
    if t.pos = 0 then k.exit t
    else match k.positionAfterEmpty t.pos with
      | none => .stray
      | some pos => k.restart { t with pos := pos }
  else k.restart t

/-- Reports a match: stores the captures, and in a global mode starts over with an empty
stack unless the output has no room for another match. -/
def succeed (t : Thread) : Outcome :=
  let saved := k.matcher.program.saved
  let t := { t with output := k.storeCaptures saved t.outBase t.regs t.output }
  let start := t.reg 0
  if k.matcher.options.globalMode.isGlobal then
    let t := { t with captures := t.captures + 1 }
    -- Room for this match and another one.
    if t.remaining < saved + saved then k.exit t
    else
      k.startOver start { t with
        remaining := t.remaining - saved
        outBase := t.outBase + saved
        depth := 0 }
  else .done (.success 1) t

/-! ### Opcodes -/

/-- Moves the position to `count` characters before the end, if it is before that, and loads
the character before it. -/
def positionFromEnd (count : Int32) (t : Thread) : Outcome :=
  let limit := -(k.bytes count)
  if limit ≤ t.pos then .next t.advance
  else match k.chars? (limit - k.unit) 1 with
    | some c => .next { t with pos := limit, char := c, pc := t.pc + 1 }
    | none => .stray

/-- The effect of one opcode. -/
def perform (op : Opcode) (t : Thread) : Outcome :=
  match op with
  | .bind _ => .next t.advance
  | .advance count => .next { t with pos := t.pos + k.bytes count, pc := t.pc + 1 }
  | .advanceRegister reg delta => .next (t.setReg reg (t.reg reg + delta.toInt64)).advance
  | .backtrack => k.backtrack t
  | .onChar test dest => k.branchIf (test.holds k.mode t.char) dest t
  | .onPlace test dest => k.branchIf (k.placeHolds t test) dest t
  | .onRegister test dest => k.branchIf (registerHolds t test) dest t
  | .checkGreedyLoop dest => k.greedyLoop dest t
  | .checkNotBackReference reg backward dest => k.backReference reg backward dest t
  | .checkNotBackReferenceIgnoreCase reg backward unicode dest =>
    k.backReferenceIgnoreCase reg backward unicode dest t
  | .fail => k.exit t
  | .goTo none => k.backtrack t
  | .goTo (some l) => k.goTo l t
  | .load offset dest checked count =>
    if checked && k.placeHolds t (.outside (lastOffset offset count)) then k.branch dest t
    else k.load offset count t
  | .popPosition => t.pop fun v t => { t with pos := v }
  | .popRegister reg => t.pop fun v t => t.setReg reg v
  | .pushBacktrack l => k.pushTarget l t
  | .pushPosition => t.push (lowWord t.pos) true
  | .pushRegister reg checked => t.push (lowWord (t.reg reg)) checked
  | .readPosition reg => .next { t with pos := t.reg reg, pc := t.pc + 1 }
  -- A register holds the pointer as an offset from the top, and the stack grows downwards.
  | .readStackPointer reg => .next { t with depth := -(t.reg reg).toInt, pc := t.pc + 1 }
  | .setPositionFromEnd count => k.positionFromEnd count t
  | .setRegister reg value => .next (t.setReg reg value.toInt64).advance
  | .succeed => k.succeed t
  | .writePosition reg offset => .next (t.setReg reg (t.pos + k.bytes offset)).advance
  | .clearRegisters first last =>
    .next ((List.range' first (last + 1 - first)).foldl (fun t r => t.setReg r k.before) t).advance
  | .writeStackPointer reg => .next (t.setReg reg (Int64.ofInt (-t.depth))).advance

/-- One step of a thread: the effect of the opcode it stands at. -/
def step (t : Thread) : Outcome :=
  match k.matcher.program.opcodes[t.pc]? with
  | some op => k.perform op t
  | none => .stray

end Task

end NativeMatcher
