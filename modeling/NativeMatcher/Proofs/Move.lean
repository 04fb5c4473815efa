import NativeMatcher.Matching.Run

/-!
# Moves

A step of a thread decides something and then does it. What it decides depends on little:
the *cursor* of the thread – where it is, its position, character, registers and stack depth
– and what it sees when it *peeks* at the top of the backtrack stack. What it does is one of
seven *moves* (`NativeMatcher.Move`).

* `NativeMatcher.Task.move` is the decision, made opcode by opcode;
* `NativeMatcher.Task.act` is what a move does to a thread;
* `NativeMatcher.Task.step_eq_act` – a step is the one after the other.

So whatever holds along every run is shown move by move, not opcode by opcode, and two
threads that agree in cursor and top of stack make the same move, whatever else they hold
and whoever runs them (`NativeMatcher.Task.move_congr`).
-/

namespace NativeMatcher

open Backtrack

namespace Backtrack.Stack

/-- An empty stack has no entry to read. -/
theorem read_eq_none_of_isEmptyAt {s : Stack} {depth : Int} (h : s.isEmptyAt depth = true) :
    s.read depth = none := by
  have hsize : (s.size : Int) ≤ s.top := by
    simp only [top]
    omega
  have hout : depth ≤ 0 ∨ (s.size : Int) < depth := by
    simp only [isEmptyAt, Bool.or_eq_true, decide_eq_true_eq] at h
    omega
  have hinside : ¬s.inside depth = true := by
    simp only [inside, Bool.and_eq_true, decide_eq_true_eq]
    omega
  rw [read, if_neg hinside, if_neg (by omega)]

end Backtrack.Stack

/-- The part of a thread that an opcode reads, and changes without help. -/
structure Cursor where
  /-- The index of the next opcode. -/
  pc : Nat
  /-- The position. -/
  pos : Int64
  /-- The characters loaded last. -/
  char : UInt32
  /-- The registers. -/
  regs : Array Int64
  /-- The depth of the backtrack stack pointer. -/
  depth : Int

/-- What the top of the backtrack stack shows. -/
inductive Peek where
  /-- There is no entry. -/
  | empty
  /-- The top entry. -/
  | entry (e : UInt32)
  /-- The stack pointer is outside the memory. -/
  | outside

/-- What a step decides to do. -/
inductive Move where
  /-- Goes on with another cursor. -/
  | go (c : Cursor)
  /-- Polls, and goes on at another opcode. -/
  | poll (pc : Nat)
  /-- Backtracks, from a depth. -/
  | backtrack (depth : Int)
  /-- Pushes an entry. -/
  | push (e : UInt32) (checked : Bool)
  /-- Ends the match without a result. -/
  | exit
  /-- Reports a match. -/
  | succeed
  /-- Goes astray. -/
  | stray

namespace Thread

variable (t : Thread)

/-- The cursor of a thread. -/
def cursor : Cursor := ⟨t.pc, t.pos, t.char, t.regs, t.depth⟩

/-- The thread with another cursor. -/
def withCursor (c : Cursor) : Thread :=
  { t with pc := c.pc, pos := c.pos, char := c.char, regs := c.regs, depth := c.depth }

/-- What the top of a thread's stack shows. -/
def peek : Peek :=
  if t.stack.isEmptyAt t.depth then .empty
  else match t.stack.read t.depth with
    | some e => .entry e
    | none => .outside

@[simp] theorem cursor_withCursor (c : Cursor) : (t.withCursor c).cursor = c := rfl

@[simp] theorem withCursor_cursor : t.withCursor t.cursor = t := rfl

variable {t}

/-- Where a stack is not empty the pointer is below its top. -/
theorem pos_of_not_isEmptyAt {depth : Int} (h : ¬t.stack.isEmptyAt depth = true) : 0 < depth := by
  simp only [Stack.isEmptyAt, Bool.or_eq_true, decide_eq_true_eq, not_or] at h
  omega

/-- A thread that sees an entry has its pointer below the top. -/
theorem pos_of_peek {e : UInt32} (hp : t.peek = .entry e) : 0 < t.depth := by
  unfold peek at hp
  split at hp
  · cases hp
  · next hempty => exact pos_of_not_isEmptyAt hempty

end Thread

namespace Task

variable (k : Task)

/-! ### Decisions -/

/-- The move of a branch. -/
def branchMove (dest : Target) (t : Thread) : Move :=
  match dest with
  | none => .backtrack t.depth
  | some l =>
    match k.place? l with
    | some i => .go { t.cursor with pc := i }
    | none => .stray

/-- The move of a branch under a condition. -/
def branchMoveIf (c : Bool) (dest : Target) (t : Thread) : Move :=
  if c then k.branchMove dest t else .go t.advance.cursor

/-- The move of a jump to a label, which polls if it goes back. -/
def goToMove (l : Label) (t : Thread) : Move :=
  match k.place? l with
  | some i => if i < t.pc then .poll i else .go { t.cursor with pc := i }
  | none => .stray

/-- The move of a pop. -/
def popMove (p : Peek) (t : Thread) (f : Int64 → Thread → Thread) : Move :=
  match p with
  | .entry e => .go (f (signWord e) { t with depth := t.depth - 4, pc := t.pc + 1 }).cursor
  | _ => .stray

/-- The move of a push of a label. -/
def pushMove (l : Label) : Move :=
  match k.place? l with
  | none => .stray
  | some i =>
    match k.matcher.offsets[i]? with
    | none => .stray
    | some offset => .push (UInt32.ofNat offset) true

/-- The move of a greedy loop. -/
def greedyMove (p : Peek) (dest : Target) (t : Thread) : Move :=
  match p with
  | .empty => .go t.advance.cursor
  | .outside => .stray
  | .entry e =>
    if e = lowWord t.pos then k.branchMove dest { t with depth := t.depth - 4 }
    else .go t.advance.cursor

/-- The move of a back reference whose comparison came out as `same`. -/
def comparisonMove (same : Option Bool) (dest : Target) (pos : Int64) (t : Thread) : Move :=
  match same with
  | none => .stray
  | some false => k.branchMove dest t
  | some true => .go { t.cursor with pos := pos, pc := t.pc + 1 }

/-- The move of a back reference. -/
def backReferenceMove (reg : Nat) (backward : Bool) (dest : Target) (t : Thread) : Move :=
  let length := captureLength reg t
  let count := k.compareCount (t.reg reg) (t.reg (reg + 1))
  let here := if backward then t.pos - length else t.pos
  let pos := if backward then here else t.pos + Int64.ofNat (count * k.mode.charSize)
  if length = 0 then .go t.advance.cursor
  else if !k.captureFits backward length t then k.branchMove dest t
  else k.comparisonMove (k.sameChars count (t.reg reg) here) dest pos t

/-- The move of a back reference that ignores case. -/
def backReferenceIgnoreCaseMove (reg : Nat) (backward unicode : Bool) (dest : Target)
    (t : Thread) : Move :=
  let length := captureLength reg t
  let here := if backward then t.pos - length else t.pos
  let same := k.sameCharsIgnoreCase unicode (length.toInt.toNat / k.mode.charSize) (t.reg reg) here
  if length = 0 then .go t.advance.cursor
  else if !k.captureFits backward length t then k.branchMove dest t
  else if length < 0 then .stray
  else k.comparisonMove same dest (if backward then here else t.pos + length) t

/-- The move of a load. -/
def loadMove (offset : Int32) (count : Nat) (t : Thread) : Move :=
  match k.chars? (t.pos + k.bytes offset) count with
  | some c => .go { t.cursor with char := c, pc := t.pc + 1 }
  | none => .stray

/-- The move of going to a place before the end. -/
def positionFromEndMove (count : Int32) (t : Thread) : Move :=
  let limit := -(k.bytes count)
  if limit ≤ t.pos then .go t.advance.cursor
  else match k.chars? (limit - k.unit) 1 with
    | some c => .go { t.cursor with pos := limit, char := c, pc := t.pc + 1 }
    | none => .stray

/-- The move of an opcode, given what the top of the stack shows. -/
def opcodeMove (p : Peek) (op : Opcode) (t : Thread) : Move :=
  match op with
  | .bind _ => .go t.advance.cursor
  | .advance count => .go { t.cursor with pos := t.pos + k.bytes count, pc := t.pc + 1 }
  | .advanceRegister reg delta => .go (t.setReg reg (t.reg reg + delta.toInt64)).advance.cursor
  | .backtrack => .backtrack t.depth
  | .onChar test dest => k.branchMoveIf (test.holds k.mode t.char) dest t
  | .onPlace test dest => k.branchMoveIf (k.placeHolds t test) dest t
  | .onRegister test dest => k.branchMoveIf (registerHolds t test) dest t
  | .checkGreedyLoop dest => k.greedyMove p dest t
  | .checkNotBackReference reg backward dest => k.backReferenceMove reg backward dest t
  | .checkNotBackReferenceIgnoreCase reg backward unicode dest =>
    k.backReferenceIgnoreCaseMove reg backward unicode dest t
  | .fail => .exit
  | .goTo none => .backtrack t.depth
  | .goTo (some l) => k.goToMove l t
  | .load offset dest checked count =>
    if checked && k.placeHolds t (.outside (lastOffset offset count)) then k.branchMove dest t
    else k.loadMove offset count t
  | .popPosition => popMove p t fun v t => { t with pos := v }
  | .popRegister reg => popMove p t fun v t => t.setReg reg v
  | .pushBacktrack l => k.pushMove l
  | .pushPosition => .push (lowWord t.pos) true
  | .pushRegister reg checked => .push (lowWord (t.reg reg)) checked
  | .readPosition reg => .go { t.cursor with pos := t.reg reg, pc := t.pc + 1 }
  | .readStackPointer reg => .go { t.cursor with depth := -(t.reg reg).toInt, pc := t.pc + 1 }
  | .setPositionFromEnd count => k.positionFromEndMove count t
  | .setRegister reg value => .go (t.setReg reg value.toInt64).advance.cursor
  | .succeed => .succeed
  | .writePosition reg offset => .go (t.setReg reg (t.pos + k.bytes offset)).advance.cursor
  | .clearRegisters first last =>
    .go ((List.range' first (last + 1 - first)).foldl
      (fun t r => t.setReg r k.before) t).advance.cursor
  | .writeStackPointer reg => .go (t.setReg reg (Int64.ofInt (-t.depth))).advance.cursor

/-- The opcode a thread stands at. -/
def opcode? (t : Thread) : Option Opcode := k.matcher.program.opcodes[t.pc]?

/-- The move of a thread. -/
def move (t : Thread) : Move :=
  match k.opcode? t with
  | some op => k.opcodeMove t.peek op t
  | none => .stray

/-- What a move does to a thread. -/
def act (m : Move) (t : Thread) : Outcome :=
  match m with
  | .go c => .next (t.withCursor c)
  | .poll pc => (k.poll t).andThen fun t => .next { t with pc := pc }
  | .backtrack depth => k.backtrack { t with depth := depth }
  | .push e checked => t.push e checked
  | .exit => k.exit t
  | .succeed => k.succeed t
  | .stray => .stray

/-! ### A step is a decision and a move -/

variable {k}

/-- A branch as a move: to a label it goes on there, and to none it backtracks. A label without a
place leads astray. -/
theorem branch_eq_act (dest : Target) (t : Thread) :
    k.branch dest t = k.act (k.branchMove dest t) t := by
  cases dest with
  | none => rfl
  | some l =>
    simp only [branch, jump, branchMove]
    cases k.place? l with
    | none => rfl
    | some i => rfl

theorem branchIf_eq_act (c : Bool) (dest : Target) (t : Thread) :
    k.branchIf c dest t = k.act (k.branchMoveIf c dest t) t := by
  cases c with
  | false => rfl
  | true => exact branch_eq_act dest t

/-- A jump as a move. One that may close a loop polls first. -/
theorem goTo_eq_act (l : Label) (t : Thread) : k.goTo l t = k.act (k.goToMove l t) t := by
  simp only [goTo, goToMove]
  cases hl : k.place? l with
  | none => rfl
  | some i =>
    have hjump : k.jump l = fun t => .next { t with pc := i } := by
      funext t
      simp only [jump, hl]
    rw [hjump]
    by_cases hi : i < t.pc
    · simp only [if_pos hi, act]
    · simp only [if_neg hi, act]
      rfl

/-- A pop that changes the cursor only is a move. -/
theorem pop_eq_act (t : Thread) (f : Int64 → Thread → Thread)
    (hf : ∀ v u, u.withCursor (f v u).cursor = f v u) :
    t.pop f = k.act (popMove t.peek t f) t := by
  cases he : t.stack.isEmptyAt t.depth with
  | true => simp [Thread.pop, popMove, Thread.peek, he, Stack.read_eq_none_of_isEmptyAt he, act]
  | false =>
    cases hr : t.stack.read t.depth with
    | none => simp [Thread.pop, popMove, Thread.peek, he, hr, act]
    | some e =>
      simp only [Thread.pop, popMove, Thread.peek, he, hr, act, Bool.false_eq_true, if_false]
      exact congrArg Outcome.next (hf _ _).symm

/-- Pushing a resumption point as a move. What is pushed is the code offset of the label. -/
theorem pushTarget_eq_act (l : Label) (t : Thread) : k.pushTarget l t = k.act (k.pushMove l) t := by
  simp only [pushTarget, pushMove]
  cases k.place? l with
  | none => rfl
  | some i =>
    cases hi : k.matcher.offsets[i]? with
    | none => simp [hi, act]
    | some offset => simp [hi, act]

/-- The test of a loop that made no progress as a move, which looks at the top of the stack and
nothing else of it. -/
theorem greedyLoop_eq_act (dest : Target) (t : Thread) :
    k.greedyLoop dest t = k.act (k.greedyMove t.peek dest t) t := by
  simp only [greedyLoop, greedyMove, Thread.peek]
  cases t.stack.isEmptyAt t.depth with
  | true => rfl
  | false =>
    cases t.stack.read t.depth with
    | none => rfl
    | some e =>
      by_cases he : e = lowWord t.pos
      · simp only [Bool.false_eq_true, if_false, if_pos he, branch_eq_act]
        cases dest with
        | none => rfl
        | some l =>
          simp only [branchMove]
          cases k.place? l with
          | none => rfl
          | some i => rfl
      · simp only [Bool.false_eq_true, if_false, if_neg he]
        rfl

/-- A reference to a capture as a move: to behind the text if it is found, and else to the
target. -/
theorem backReference_eq_act (reg : Nat) (backward : Bool) (dest : Target) (t : Thread) :
    k.backReference reg backward dest t = k.act (k.backReferenceMove reg backward dest t) t := by
  simp only [backReference, backReferenceMove]
  by_cases h0 : captureLength reg t = 0
  · simp only [if_pos h0]
    rfl
  · simp only [if_neg h0]
    split
    · exact branch_eq_act dest t
    · split
      · next hs => simp only [hs, comparisonMove, act]
      · next hs => simp only [hs, comparisonMove, branch_eq_act]
      · next hs =>
        simp only [hs, comparisonMove, act]
        rfl

/-- Ignoring case changes the comparison and not what follows from it. -/
theorem backReferenceIgnoreCase_eq_act (reg : Nat) (backward unicode : Bool) (dest : Target)
    (t : Thread) : k.backReferenceIgnoreCase reg backward unicode dest t =
      k.act (k.backReferenceIgnoreCaseMove reg backward unicode dest t) t := by
  simp only [backReferenceIgnoreCase, backReferenceIgnoreCaseMove]
  by_cases h0 : captureLength reg t = 0
  · simp only [if_pos h0]
    rfl
  · simp only [if_neg h0]
    split
    · exact branch_eq_act dest t
    · split
      · rfl
      · split
        · next hs => simp only [hs, comparisonMove, act]
        · next hs => simp only [hs, comparisonMove, branch_eq_act]
        · next hs =>
          simp only [hs, comparisonMove, act]
          rfl

theorem load_eq_act (offset : Int32) (count : Nat) (t : Thread) :
    k.load offset count t = k.act (k.loadMove offset count t) t := by
  simp only [load, loadMove]
  cases k.chars? (t.pos + k.bytes offset) count with
  | none => rfl
  | some c => rfl

/-- Clamping the position as a move, with the character that has to be loaded again. -/
theorem positionFromEnd_eq_act (count : Int32) (t : Thread) :
    k.positionFromEnd count t = k.act (k.positionFromEndMove count t) t := by
  simp only [positionFromEnd, positionFromEndMove]
  split
  · rfl
  · cases k.chars? (-k.bytes count - k.unit) 1 with
    | none => rfl
    | some c => rfl

/-- Setting registers one after the other changes the registers only. -/
theorem foldl_setReg (v : Int64) (rs : List Nat) (t : Thread) :
    rs.foldl (fun t r => t.setReg r v) t =
      { t with regs := rs.foldl (fun regs r => regs.setIfInBounds r v) t.regs } := by
  induction rs generalizing t with
  | nil => rfl
  | cons r rs ih =>
    rw [List.foldl_cons, List.foldl_cons, ih]
    rfl

/-- The effect of an opcode is the effect of its move. So a step can be taken apart into a decision,
which only looks, and an act, which has five kinds only. -/
theorem perform_eq_act (op : Opcode) (t : Thread) :
    k.perform op t = k.act (k.opcodeMove t.peek op t) t := by
  cases op with
  | onChar test dest => exact branchIf_eq_act _ dest t
  | onPlace test dest => exact branchIf_eq_act _ dest t
  | onRegister test dest => exact branchIf_eq_act _ dest t
  | checkGreedyLoop dest => exact greedyLoop_eq_act dest t
  | checkNotBackReference reg backward dest => exact backReference_eq_act reg backward dest t
  | checkNotBackReferenceIgnoreCase reg backward unicode dest =>
    exact backReferenceIgnoreCase_eq_act reg backward unicode dest t
  | goTo dest =>
    cases dest with
    | none => rfl
    | some l => exact goTo_eq_act l t
  | load offset dest checked count =>
    simp only [perform, opcodeMove]
    split
    · exact branch_eq_act dest t
    · exact load_eq_act offset count t
  | popPosition => exact pop_eq_act t (fun v t => { t with pos := v }) fun _ _ => rfl
  | popRegister reg => exact pop_eq_act t (fun v t => t.setReg reg v) fun _ _ => rfl
  | pushBacktrack l => exact pushTarget_eq_act l t
  | setPositionFromEnd count => exact positionFromEnd_eq_act count t
  | clearRegisters first last =>
    simp only [perform, opcodeMove, foldl_setReg]
    rfl
  | _ => rfl

/-- **A step is a decision and a move.** -/
theorem step_eq_act (t : Thread) : k.step t = k.act (k.move t) t := by
  unfold step move opcode?
  cases k.matcher.program.opcodes[t.pc]? with
  | none => rfl
  | some op => exact perform_eq_act op t

/-- A thread at an opcode does what the opcode does. -/
theorem step_of_opcode {t : Thread} {op : Opcode} (hop : k.opcode? t = some op) :
    k.step t = k.perform op t := by
  rw [opcode?] at hop
  simp only [step, hop]

/-- A thread that goes on stands at an opcode. -/
theorem exists_opcode {t u : Thread} (hs : k.step t = .next u) : ∃ op, k.opcode? t = some op := by
  cases hop : k.opcode? t with
  | none =>
    rw [opcode?] at hop
    simp only [step, hop] at hs
    cases hs
  | some op => exact ⟨op, rfl⟩

/-! ### What a decision depends on -/

/-- Two tasks run the same program on the same subject; who called, and what happens after a
match or a number of backtracks, may differ. -/
structure SameCode (k k' : Task) : Prop where
  /-- The programs are the same. -/
  program : k.matcher.program = k'.matcher.program
  /-- The opcodes have the same code offsets. -/
  offsets : k.matcher.offsets = k'.matcher.offsets
  /-- There are as many registers. -/
  registers : k.matcher.object.registers = k'.matcher.object.registers
  /-- The encodings are the same. -/
  mode : k.mode = k'.mode
  /-- The labels have the same places. -/
  places : k.places = k'.places
  /-- The subjects are the same. -/
  subject : k.subject = k'.subject

namespace SameCode

variable {k' : Task} (h : SameCode k k')

include h

theorem unit_eq : k.unit = k'.unit := by rw [unit, unit, h.mode]

theorem bytes_eq : k.bytes = k'.bytes := by
  funext count
  rw [bytes, bytes, h.mode]

theorem length_eq : k.length = k'.length := by rw [length, length, h.subject]

theorem before_eq : k.before = k'.before := by rw [before, before, h.length_eq, h.unit_eq]

theorem place?_eq : k.place? = k'.place? := by
  funext l
  rw [place?, place?, h.places]

theorem chars?_eq : k.chars? = k'.chars? := by
  funext pos count
  rw [chars?, chars?, h.subject, h.mode]

theorem opcodeAt?_eq : k.opcodeAt? = k'.opcodeAt? := by
  funext offset
  rw [opcodeAt?, opcodeAt?, h.offsets]

theorem captureIndex_eq : k.captureIndex = k'.captureIndex := by
  funext v
  rw [captureIndex, captureIndex, h.length_eq, h.mode]

theorem compareCount_eq : k.compareCount = k'.compareCount := by
  funext first last
  simp only [compareCount, address, h.subject, h.mode]

theorem placeHolds_eq : k.placeHolds = k'.placeHolds := by
  funext t test
  cases test <;> simp only [placeHolds, h.bytes_eq, h.unit_eq, h.before_eq]

theorem captureFits_eq : k.captureFits = k'.captureFits := by
  funext backward length t
  simp only [captureFits, h.before_eq]

theorem sameChars_eq : k.sameChars = k'.sameChars := by
  funext count a b
  induction count generalizing a b with
  | zero => rfl
  | succ n ih => simp only [sameChars, h.chars?_eq, h.unit_eq, ih]

theorem charList_eq : k.charList = k'.charList := by
  funext count a
  induction count generalizing a with
  | zero => rfl
  | succ n ih => simp only [charList, h.chars?_eq, h.unit_eq, ih]

theorem sameCharsIgnoreCase_eq : k.sameCharsIgnoreCase = k'.sameCharsIgnoreCase := by
  funext unicode count a b
  simp only [sameCharsIgnoreCase, h.charList_eq, h.mode]

theorem branchMove_eq : k.branchMove = k'.branchMove := by
  funext dest t
  cases dest <;> simp only [branchMove, h.place?_eq]

/-- Two tasks with the same code, mode, subject and places have the same moves, opcode by opcode. -/
theorem opcodeMove_eq : k.opcodeMove = k'.opcodeMove := by
  funext p op t
  cases op with
  | goTo dest => cases dest <;> simp only [opcodeMove, goToMove, h.place?_eq]
  | _ =>
    simp only [opcodeMove, branchMoveIf, pushMove, greedyMove, comparisonMove, backReferenceMove,
      backReferenceIgnoreCaseMove, loadMove, positionFromEndMove, h.mode, h.bytes_eq, h.before_eq,
      h.unit_eq, h.place?_eq, h.offsets, h.chars?_eq, h.compareCount_eq, h.placeHolds_eq,
      h.captureFits_eq, h.sameChars_eq, h.sameCharsIgnoreCase_eq, h.branchMove_eq]

end SameCode

/-- The decision reads the cursor only. -/
theorem opcodeMove_congr {t u : Thread} (h : t.cursor = u.cursor) (p : Peek) (op : Opcode) :
    k.opcodeMove p op t = k.opcodeMove p op u := by
  obtain ⟨pc, pos, char, regs, depth⟩ := t
  obtain ⟨pc', pos', char', regs', depth'⟩ := u
  simp only [Thread.cursor, Cursor.mk.injEq] at h
  obtain ⟨rfl, rfl, rfl, rfl, rfl⟩ := h
  cases op with
  | clearRegisters first last =>
    simp only [opcodeMove, foldl_setReg]
    rfl
  | goTo dest => cases dest <;> rfl
  | _ => rfl

/-- **Threads that agree in cursor and top of stack make the same move.** -/
theorem move_congr {k' : Task} (hk : SameCode k k') {t u : Thread} (hc : t.cursor = u.cursor)
    (hp : t.peek = u.peek) : k.move t = k'.move u := by
  have hpc : t.pc = u.pc := congrArg Cursor.pc hc
  simp only [move, opcode?, hk.program, hpc, hp, hk.opcodeMove_eq, opcodeMove_congr hc]

end Task

end NativeMatcher
