import NativeMatcher.Proofs.Listing

/-!
# What a listing consists of

Facts about every item a program can be made of, whatever its opcodes are. An item is
*regular* if its instruction is fixed up to its label and has an encoding, and if it calls
nothing but a stub (`NativeMatcher.Assembly.Item.isRegular`). The items of opcodes and of
most routines are even *plain*: they give no place to a label that other code relies on
(`NativeMatcher.Assembly.Item.isPlain`). Such labels are those of the two stubs and of the
two places where a stub can end a match, and behind each of them stands its routine
(`NativeMatcher.Assembly.Opens`).

What holds of all listings is collected in `NativeMatcher.Program.closed_listing`.
-/

namespace NativeMatcher

open Assembly Code X64

namespace Assembly

/-! ### Regular and plain items -/

/-- The exit sequence from where the status is in `rax`. -/
def leaveItems : List Item :=
  .bind Reserved.leave.label :: (Instr.leaAt .w64 .rsp fp (slotOffset (.calleeSaved 15))
    :: calleeSaved.reverse.map Instr.pop ++ [Instr.mov .w64 .rsp .rbp, .pop .rbp, .ret]).map .instr

/-- The routines that other code relies on, by their labels. -/
def routineAt (l : Label) : Option (List Item) :=
  if l = Reserved.leave.label then some leaveItems
  else if l = Reserved.checkPreempt.label then some checkPreempt
  else if l = Reserved.stackOverflow.label then some growStack
  else if l = Reserved.exception.label then some (statusExit .exception statusException)
  else none

/-- A label that is made while an opcode is lowered is not the label of a routine: those have the
lowest indices. -/
theorem routineAt_local {n : Nat} (h : reservedLabels ≤ n) : routineAt ⟨n⟩ = none := by
  unfold reservedLabels at h
  simp only [routineAt, Reserved.label, Label.mk.injEq]
  split
  · omega
  · split
    · omega
    · split
      · omega
      · split
        · omega
        · rfl

/-- Whether an instruction is what it is by itself: it has an encoding, and no field that
depends on a label. -/
def isFixed : Instr → Bool
  | .branch .. | .movRmImm .w32 (.mem _) _ => false
  | i => i.encodable

/-- Whether the instruction of an item is fixed up to its label, and a call goes to a stub. -/
def Item.isRegular : Item → Bool
  | .instr i => isFixed i
  | .branch .call l => l = Reserved.checkPreempt.label || l = Reserved.stackOverflow.label
  | _ => true

/-- Whether an item is regular and none of the routines starts at it. -/
def Item.isPlain : Item → Bool
  | .bind l | .stub l => (routineAt l).isNone
  | i => i.isRegular

theorem Item.isRegular_of_isPlain {i : Item} (h : i.isPlain = true) : i.isRegular = true := by
  cases i with
  | bind l | stub l => rfl
  | _ => exact h

@[simp] theorem Item.isPlain_instr (i : Instr) : (Item.instr i).isPlain = isFixed i := rfl

@[simp] theorem Item.isPlain_jmp (l : Label) : (Item.branch .jmp l).isPlain = true := rfl

@[simp] theorem Item.isPlain_jcc (c : Cond) (l : Label) :
    (Item.branch (.jcc c) l).isPlain = true := rfl

@[simp] theorem Item.isPlain_storeTarget (l : Label) : (Item.storeTarget l).isPlain = true := rfl

@[simp] theorem Item.isPlain_declare : Item.declare.isPlain = true := rfl

@[simp] theorem Item.isPlain_bind (l : Label) :
    (Item.bind l).isPlain = (routineAt l).isNone := rfl

@[simp] theorem isFixed_alu (op : AluOp) (w : Width) (dst src : Reg) :
    isFixed (.alu op w dst src) = true := rfl

@[simp] theorem isFixed_aluLoad (op : AluOp) (w : Width) (dst base : Reg) (disp : Int32) :
    isFixed (.aluLoad op w dst base disp) = true := rfl

@[simp] theorem isFixed_aluStore (op : AluOp) (w : Width) (base src : Reg) (disp : Int32) :
    isFixed (.aluStore op w base disp src) = true := rfl

@[simp] theorem isFixed_aluImm (op : AluOp) (w : Width) (dst : Reg) (imm : Int32) :
    isFixed (.aluImm op w dst imm) = true := rfl

@[simp] theorem isFixed_aluImmStore (op : AluOp) (w : Width) (base : Reg) (disp imm : Int32) :
    isFixed (.aluImmStore op w base disp imm) = true := rfl

@[simp] theorem isFixed_test (w : Width) (a b : Reg) : isFixed (.test w a b) = true := rfl

@[simp] theorem isFixed_mov (w : Width) (dst src : Reg) : isFixed (.mov w dst src) = true := rfl

@[simp] theorem isFixed_load (w : Width) (dst base : Reg) (disp : Int32) :
    isFixed (.load w dst base disp) = true := rfl

@[simp] theorem isFixed_store (w : Width) (src base : Reg) (disp : Int32) :
    isFixed (.store w src base disp) = true := rfl

@[simp] theorem isFixed_storeImm (base : Reg) (disp imm : Int32) :
    isFixed (.storeImm .w64 base disp imm) = true := rfl

@[simp] theorem isFixed_leaAt (w : Width) (dst base : Reg) (disp : Int32) :
    isFixed (.leaAt w dst base disp) = true := rfl

@[simp] theorem isFixed_loadConst (w : Width) (dst : Reg) (v : UInt64) :
    isFixed (.loadConst w dst v) = true := by
  unfold Instr.loadConst
  split
  · rfl
  · split
    · rfl
    · split <;> rfl

@[simp] theorem isFixed_loadTable (dst : Reg) (table : UInt64) :
    isFixed (loadTable dst table) = true := rfl

@[simp] theorem isFixed_testRmImm (w : Width) (r : Reg) (imm : UInt32) :
    isFixed (.testRmImm w (.reg r) imm) = true := rfl

@[simp] theorem isFixed_movExtend (ext : Extend) (dst : Reg) (m : X64.Mem) :
    isFixed (.movExtend ext dst (.mem m)) = m.encodable := rfl

@[simp] theorem isFixed_movRegRm (w : Width) (dst : Reg) (m : X64.Mem) :
    isFixed (.movRegRm w dst (.mem m)) = m.encodable := rfl

@[simp] theorem isFixed_callRm (m : X64.Mem) : isFixed (.callRm (.mem m)) = m.encodable := rfl

@[simp] theorem isFixed_lea (w : Width) (dst : Reg) (m : X64.Mem) :
    isFixed (.lea w dst m) = m.encodable := rfl

@[simp] theorem isFixed_push (r : Reg) : isFixed (.push r) = true := rfl

@[simp] theorem isFixed_pop (r : Reg) : isFixed (.pop r) = true := rfl

@[simp] theorem isFixed_inc (w : Width) (m : X64.Mem) :
    isFixed (.inc w (.mem m)) = m.encodable := rfl

@[simp] theorem isFixed_aluRmImm (op : AluOp) (w : Width) (m : X64.Mem) (imm : Int32) :
    isFixed (.aluRmImm op w (.mem m) imm) = m.encodable := rfl

@[simp] theorem isFixed_shiftImm (op : ShiftOp) (w : Width) (r : Reg) (count : UInt8) :
    isFixed (.shiftImm op w (.reg r) count) = true := rfl

@[simp] theorem isFixed_jmpRm (r : Reg) : isFixed (.jmpRm (.reg r)) = true := rfl

@[simp] theorem encodable_base (base : Reg) (disp : Int32) :
    Mem.encodable { base := base, disp := disp } = true := rfl

@[simp] theorem encodable_index (base index : Reg) (disp : Int32) :
    Mem.encodable { base := base, index := some (index, 0), disp := disp } = (index ≠ .rsp) := by
  simp [Mem.encodable]

@[simp] theorem chr_ne_rsp : chr ≠ .rsp := by decide

@[simp] theorem pos_ne_rsp : pos ≠ .rsp := by decide

/-! ### Opcodes -/

theorem isFixed_loadChars? {mode : Mode} {disp : Int32} {count : Nat} {i : Instr}
    (h : loadChars? mode disp count = some i) : isFixed i = true := by
  unfold loadChars? at h
  split at h <;> cases h <;> rfl

theorem isFixed_loadPrevious (mode : Mode) : ∀ i ∈ loadPrevious mode, isFixed i = true := by
  cases mode <;> decide

/-- A limit check calls only the two stubs that its callers ask for, so all of its items are
plain. -/
theorem isPlain_callUnlessAbove {next : Nat} (hnext : reservedLabels ≤ next) (reg : Reg)
    (limit : ContextField) {stub : Reserved}
    (hstub : stub = .checkPreempt ∨ stub = .stackOverflow) :
    ∀ i ∈ callUnlessAbove next reg limit stub, i.isPlain = true := by
  rcases hstub with rfl | rfl <;>
    simp [callUnlessAbove, Item.isPlain, Item.isRegular, loadContext, loadSlot,
      routineAt_local hnext]

theorem isPlain_lowerClass (mode : Mode) {next : Nat} (hnext : reservedLabels ≤ next)
    (table : UInt64) (dest : Target) (cls : CharClass) :
    ∀ i ∈ (lowerClass mode next table dest cls).items, i.isPlain = true := by
  cases cls <;> cases mode <;>
    simp [lowerClass, routineAt_local hnext, compareChar, rangeTest,
      readWordTable, lineEndTest, separatorTest, Assembly.branchTo]

/-- Only the local labels of a character test have their place in its code, so it is plain. -/
theorem isPlain_lowerTest (mode : Mode) {next : Nat} (hnext : reservedLabels ≤ next)
    (table : UInt64) (dest : Target) (test : CharTest) :
    ∀ i ∈ (lowerTest mode next table dest test).items, i.isPlain = true := by
  cases test with
  | notInClass cls => exact isPlain_lowerClass mode hnext table dest cls
  | equalAfterAnd c mask | notEqualAfterAnd c mask =>
    simp only [lowerTest, maskTest]
    split <;> simp [Assembly.branchTo]
  | inRanges ranges | notInRanges ranges =>
    simp only [lowerTest, rangeLookup]
    split <;> simp [Assembly.branchTo, prepareCall, callHost, reloadCodeBase,
      loadContext, loadSlot]
  | _ => simp [lowerTest, compareChar, rangeTest, Assembly.branchTo]

/-- A test of the position is some instructions and a branch. -/
theorem exists_items_of_lowerPlace {mode : Mode} {dest : Target} {test : PlaceTest} {bl : Block}
    (h : lowerPlace mode dest test = .ok bl) : ∃ (is : List Instr) (c : Cond),
      bl.items = is.map .instr ++ [Assembly.branchTo c dest] ∧ ∀ i ∈ is, isFixed i = true := by
  have hcompare (disp : Int32) : ∀ i ∈ compareStart disp, isFixed i = true := by
    simp [compareStart]
  cases test with
  | atStart offset | notAtStart offset =>
    obtain ⟨off, -, h⟩ := Assembler.bind_eq_ok.mp h
    obtain ⟨disp, -, h⟩ := Assembler.bind_eq_ok.mp h
    obtain rfl := Except.ok.inj h
    exact ⟨_, _, rfl, hcompare disp⟩
  | outside offset =>
    obtain ⟨disp, -, h⟩ := Assembler.bind_eq_ok.mp h
    split at h
    · obtain rfl := Except.ok.inj h
      exact ⟨[_], _, rfl, by simp⟩
    · obtain rfl := Except.ok.inj h
      exact ⟨_, _, rfl, hcompare disp⟩

theorem isPlain_instrs {is : List Instr} (h : ∀ i ∈ is, isFixed i = true) :
    ∀ i ∈ is.map Item.instr, i.isPlain = true := by
  rwa [List.forall_mem_map]

theorem isPlain_lowerPlace {mode : Mode} {dest : Target} {test : PlaceTest} {bl : Block}
    (h : lowerPlace mode dest test = .ok bl) : ∀ i ∈ bl.items, i.isPlain = true := by
  obtain ⟨is, c, hitems, his⟩ := exists_items_of_lowerPlace h
  rw [hitems, List.forall_mem_append]
  exact ⟨isPlain_instrs his, by simp [Assembly.branchTo]⟩

theorem isPlain_lowerRegister (dest : Target) (test : RegisterTest) :
    ∀ i ∈ (lowerRegister dest test).items, i.isPlain = true := by
  cases test <;> simp [lowerRegister, Assembly.branchTo]

theorem isPlain_backReference (mode : Mode) {next : Nat} (hnext : reservedLabels ≤ next) (reg : Nat)
    (backward : Bool) (dest : Target) :
    ∀ i ∈ backReference mode next reg backward dest, i.isPlain = true := by
  have hnext' : reservedLabels ≤ next + 1 := Nat.le_succ_of_le hnext
  cases backward <;>
    simp [backReference, captureLength, captureFits, skipCapture, leaSum,
      Assembly.branchTo, loadSlot, routineAt_local hnext, routineAt_local hnext']

theorem isPlain_backReferenceIgnoreCase (mode : Mode) {next : Nat} (hnext : reservedLabels ≤ next)
    (reg : Nat) (backward unicode : Bool) (dest : Target) :
    ∀ i ∈ backReferenceIgnoreCase mode next reg backward unicode dest, i.isPlain = true := by
  cases backward <;>
    simp [backReferenceIgnoreCase, captureLength, captureFits, skipCapture, leaSum,
      Assembly.branchTo, loadSlot, routineAt_local hnext, prepareCall, callHost, reloadCodeBase,
      loadContext]

end Assembly

/-- Whether the code of an opcode is a row of instructions: it names no label and binds none. -/
def Opcode.isStraight : Opcode → Bool
  | .advance _ | .advanceRegister .. | .load .. | .popPosition | .popRegister _
  | .readPosition _ | .readStackPointer _ | .setRegister .. | .writePosition ..
  | .clearRegisters .. | .writeStackPointer _ => true
  | _ => false

namespace Assembly

/-- The code of a straight opcode. -/
theorem exists_instrs_of_lower {mode : Mode} {next : Nat} {table : UInt64}
    {isBound : Label → Bool} {op : Opcode} {bl : Block} (hop : op.isStraight = true)
    (h : lower mode next table isBound op = .ok bl) :
    ∃ is : List Instr, bl.items = is.map .instr ∧ ∀ i ∈ is, isFixed i = true := by
  cases op with
  | advance count =>
    simp only [lower] at h
    split at h
    · obtain rfl := Except.ok.inj h
      exact ⟨[], rfl, by simp⟩
    · obtain ⟨disp, -, h⟩ := Assembler.bind_eq_ok.mp h
      obtain rfl := Except.ok.inj h
      exact ⟨_, rfl, by simp⟩
  | advanceRegister reg delta =>
    obtain rfl := Except.ok.inj h
    by_cases hdelta : delta = 0
    · exact ⟨[], if_pos hdelta, by simp⟩
    · exact ⟨[_], if_neg hdelta, by simp⟩
  | load offset dest checked count =>
    obtain ⟨disp, -, h⟩ := Assembler.bind_eq_ok.mp h
    split at h
    · next i hi =>
      obtain rfl := Except.ok.inj h
      exact ⟨[i], rfl, by simpa using isFixed_loadChars? hi⟩
    · obtain rfl := Except.ok.inj h
      exact ⟨[], rfl, by simp⟩
  | writePosition reg offset =>
    simp only [lower] at h
    split at h
    · obtain rfl := Except.ok.inj h
      exact ⟨[_], rfl, by simp⟩
    · obtain ⟨disp, -, h⟩ := Assembler.bind_eq_ok.mp h
      obtain rfl := Except.ok.inj h
      exact ⟨[_, _], rfl, by simp⟩
  | clearRegisters first last =>
    obtain rfl := Except.ok.inj h
    refine ⟨loadSlot .rax .beforeStart :: (List.range' first (last + 1 - first)).map
      fun r => .store .w64 .rax fp (registerSlot r), by simp, ?_⟩
    rw [List.forall_mem_cons, List.forall_mem_map]
    exact ⟨rfl, fun r _ => rfl⟩
  | popPosition | popRegister reg =>
    obtain rfl := Except.ok.inj h
    exact ⟨_, rfl, by simp [popEntry, dropEntry]⟩
  | readPosition reg | setRegister reg value =>
    obtain rfl := Except.ok.inj h
    exact ⟨[_], rfl, by simp⟩
  | readStackPointer reg =>
    obtain rfl := Except.ok.inj h
    exact ⟨[_, _, _], rfl, by simp [loadContext, loadSlot]⟩
  | writeStackPointer reg =>
    obtain rfl := Except.ok.inj h
    exact ⟨[_, _, _, _], rfl, by simp [loadContext, loadSlot]⟩
  | _ => cases hop

/-- What an opcode is lowered to is plain, unless the opcode gives a label its place. This is the
case analysis over all opcodes; what follows up to the items of a program only puts lists
together. -/
theorem isPlain_lower {mode : Mode} {next : Nat} {table : UInt64} {isBound : Label → Bool}
    {op : Opcode} {bl : Block} (hnext : reservedLabels ≤ next) (hop : ∀ l, op ≠ .bind l)
    (h : lower mode next table isBound op = .ok bl) : ∀ i ∈ bl.items, i.isPlain = true := by
  by_cases hstraight : op.isStraight = true
  · obtain ⟨is, hitems, his⟩ := exists_instrs_of_lower hstraight h
    rw [hitems]
    exact isPlain_instrs his
  have hlimit := isPlain_callUnlessAbove hnext backtrackSp .stackLimit (.inr rfl)
  cases op with
  | bind l => exact absurd rfl (hop l)
  | onChar test dest =>
    obtain rfl := Except.ok.inj h
    exact isPlain_lowerTest mode hnext table dest test
  | onPlace test dest => exact isPlain_lowerPlace h
  | onRegister test dest =>
    obtain rfl := Except.ok.inj h
    exact isPlain_lowerRegister dest test
  | checkGreedyLoop dest =>
    obtain rfl := Except.ok.inj h
    simp [dropEntry, loadStackBase, loadContext, loadSlot, routineAt_local hnext]
  | checkNotBackReference reg backward dest =>
    obtain ⟨_, -, h⟩ := Assembler.bind_eq_ok.mp h
    obtain rfl := Except.ok.inj h
    exact isPlain_backReference mode hnext reg backward dest
  | checkNotBackReferenceIgnoreCase reg backward unicode dest =>
    obtain ⟨_, -, h⟩ := Assembler.bind_eq_ok.mp h
    obtain rfl := Except.ok.inj h
    exact isPlain_backReferenceIgnoreCase mode hnext reg backward unicode dest
  | goTo dest =>
    cases dest with
    | none =>
      obtain rfl := Except.ok.inj h
      simp
    | some l =>
      obtain rfl := Except.ok.inj h
      have hpoll := isPlain_callUnlessAbove hnext .rsp .interruptLimit (.inl rfl)
      simp only
      split
      · simpa [poll, or_imp, forall_and] using hpoll
      · simp
  | pushBacktrack l =>
    obtain rfl := Except.ok.inj h
    simpa [checkStackLimit, makeEntry, or_imp, forall_and] using hlimit
  | pushPosition =>
    obtain rfl := Except.ok.inj h
    simpa [checkStackLimit, makeEntry, pushEntry, or_imp, forall_and] using hlimit
  | pushRegister reg checked =>
    obtain rfl := Except.ok.inj h
    cases checked with
    | false => simp [makeEntry, pushEntry]
    | true => simpa [checkStackLimit, makeEntry, pushEntry, or_imp, forall_and] using hlimit
  | setPositionFromEnd count =>
    obtain ⟨neg, -, h⟩ := Assembler.bind_eq_ok.mp h
    obtain ⟨limit, -, h⟩ := Assembler.bind_eq_ok.mp h
    obtain rfl := Except.ok.inj h
    simpa [or_imp, forall_and, routineAt_local hnext] using isFixed_loadPrevious mode
  | backtrack | fail | succeed =>
    obtain rfl := Except.ok.inj h
    simp
  | _ => exact absurd rfl hstraight

/-! ### Routines -/

theorem isPlain_fillRegisters {next : Nat} (hnext : reservedLabels ≤ next) (count : Nat) :
    ∀ i ∈ fillRegisters next count, i.isPlain = true := by
  unfold fillRegisters
  split
  · rw [List.forall_mem_map]
    exact fun _ _ => rfl
  · simp [routineAt_local hnext]

theorem isFixed_buildFrame (registers : Nat) : ∀ i ∈ buildFrame registers, isFixed i = true := by
  have hslots : ∀ s ∈ frameLayout.below, isFixed (saveSlot s) = true := by decide
  unfold buildFrame
  split <;> simpa [or_imp, forall_and] using hslots

/-- The entry sequence is plain: the one stub that it calls is that of the poll. -/
theorem isPlain_entry (mode : Mode) (registers : Nat) {next : Nat} (hnext : reservedLabels ≤ next) :
    ∀ i ∈ entry mode registers next, i.isPlain = true := by
  have hpoll := isPlain_callUnlessAbove hnext .rsp .interruptLimit (.inl rfl)
  have hfill : ∀ i ∈ fillRegisters (next + 3) registers, i.isPlain = true :=
    isPlain_fillRegisters (by omega) registers
  have hone : reservedLabels ≤ next + 1 := by omega
  have htwo : reservedLabels ≤ next + 2 := by omega
  have hsubject : ∀ i ∈ enterSubject mode, isFixed i = true := by cases mode <;> decide
  have hstack : ∀ i ∈ enterStack, isFixed i = true := by decide
  have hentry : routineAt Reserved.entry.label = none := rfl
  have hrestart : routineAt Reserved.restart.label = none := rfl
  simpa [entry, or_imp, forall_and, poll, hentry, hrestart, routineAt_local hone,
    routineAt_local htwo, loadSlot] using
    ⟨isFixed_buildFrame registers, hstack, hpoll, hsubject, isFixed_loadPrevious mode, hfill⟩

/-- The copy of the captures to the output is straight-line code, whichever way empty matches are
treated. -/
theorem isFixed_storeCaptures (mode : Mode) (globalMode : GlobalMode) (saved : Nat) :
    ∀ i ∈ storeCaptures mode globalMode saved, isFixed i = true := by
  have hone : ∀ n, ∀ i ∈ storeCapture mode globalMode n, isFixed i = true := by
    intro n
    unfold storeCapture
    cases mode <;> split <;> simp
  have hlea : isFixed (.lea .w64 .rcx
      { base := .rcx, index := some (.rax, UInt8.ofNat (mode.charSize - 1)) }) = true := by
    cases mode <;> rfl
  unfold storeCaptures
  split
  · simp
  · simp only [List.forall_mem_append, List.forall_mem_cons, List.forall_mem_flatMap]
    exact ⟨⟨rfl, rfl, rfl, hlea, rfl, by simp⟩, fun n _ => hone n⟩

theorem isPlain_stepOverEmpty (mode : Mode) (globalMode : GlobalMode) {next : Nat}
    (hnext : reservedLabels ≤ next) :
    ∀ i ∈ stepOverEmpty mode globalMode next, i.isPlain = true := by
  have hone : reservedLabels ≤ next + 1 := by omega
  unfold stepOverEmpty
  split <;> simp [skipPair, routineAt_local hnext, routineAt_local hone]

theorem isPlain_success (mode : Mode) (globalMode : GlobalMode) (saved : Nat) {next : Nat}
    (hnext : reservedLabels ≤ next) :
    ∀ i ∈ success mode globalMode saved next, i.isPlain = true := by
  have hstore := isFixed_storeCaptures mode globalMode saved
  have hempty := isPlain_stepOverEmpty mode globalMode hnext
  have hsuccess : routineAt Reserved.success.label = none := rfl
  unfold success
  split
  · split
    · simpa [or_imp, forall_and, hsuccess, loadSlot, loadStackBase, loadContext] using
        ⟨hstore, hempty⟩
    · simpa [or_imp, forall_and, hsuccess, loadSlot, loadStackBase, loadContext] using hstore
  · simpa [or_imp, forall_and, hsuccess] using hstore

/-- The backtrack routine is plain, with and without a limit: its own label is none that the rest of
the code finds a routine behind. -/
theorem isPlain_backtrack (limit : Option UInt32) (canFallback : Bool) {next : Nat}
    (hnext : reservedLabels ≤ next) :
    ∀ i ∈ backtrack limit canFallback next, i.isPlain = true := by
  have hone : reservedLabels ≤ next + 1 := by omega
  have hpoll := isPlain_callUnlessAbove hnext .rsp .interruptLimit (.inl rfl)
  have hbacktrack : routineAt Reserved.backtrack.label = none := rfl
  unfold backtrack
  cases limit <;>
    simpa [or_imp, forall_and, poll, hbacktrack, countBacktrack, popEntry, dropEntry,
      loadStackBase, loadContext, loadSlot, routineAt_local hone] using hpoll

/-! ### Routines behind labels -/

/-- Wherever a label of a routine has its place, the routine follows. -/
def Opens : List Item → Prop
  | [] => True
  | x :: rest =>
    (∀ l r, x.binds l = true → routineAt l = some r → r <+: x :: rest) ∧ Opens rest

theorem Opens.append {is js : List Item} (hi : Opens is) (hj : Opens js) : Opens (is ++ js) := by
  induction is with
  | nil => exact hj
  | cons x is ih =>
    refine ⟨fun l r hl hr => ?_, ih hi.2⟩
    exact (hi.1 l r hl hr).trans (List.prefix_append (x :: is) js)

/-- Plain items give no place to the label of a routine, so there is nothing to follow. -/
theorem Opens.of_isPlain {is : List Item} (h : ∀ i ∈ is, i.isPlain = true) : Opens is := by
  induction is with
  | nil => trivial
  | cons x is ih =>
    rw [List.forall_mem_cons] at h
    refine ⟨fun l r hl hr => ?_, ih h.2⟩
    -- A plain item gives no place to the label of a routine.
    have hnone : (routineAt l).isNone = true := by
      cases x <;> simp_all [Item.binds, Item.isPlain]
    simp [hr] at hnone

theorem Opens.prefix_of_append {is js : List Item} {x : Item} {l : Label} {r : List Item}
    (h : Opens (is ++ x :: js)) (hl : x.binds l = true) (hr : routineAt l = some r) :
    r <+: x :: js := by
  induction is with
  | nil => exact h.1 l r hl hr
  | cons y is ih => exact ih h.2

/-- Whether control never goes on with the next item. -/
def Item.endsControl : Item → Bool
  | .branch .jmp _ | .instr (.jmpRm _) | .instr .ret => true
  | _ => false

/-- A list of items is regular, has its routines in place, and control does not run past its
end. -/
structure Closed (items : List Item) : Prop where
  /-- The items are regular. -/
  regular : ∀ i ∈ items, i.isRegular = true
  /-- The routines are in place. -/
  opens : Opens items
  /-- The last item ends control. -/
  ends : ∃ i, items.getLast? = some i ∧ i.endsControl = true

theorem Closed.append {is js : List Item} (hregular : ∀ i ∈ is, i.isRegular = true)
    (hopens : Opens is) (hj : Closed js) : Closed (is ++ js) := by
  refine ⟨List.forall_mem_append.mpr ⟨hregular, hj.regular⟩, hopens.append hj.opens, ?_⟩
  obtain ⟨i, hi, hends⟩ := hj.ends
  exact ⟨i, by simp [List.getLast?_append, hi], hends⟩

theorem Closed.of_isPlain {items : List Item} {i : Item} (h : ∀ i ∈ items, i.isPlain = true)
    (hlast : items.getLast? = some i) (hi : i.endsControl = true) : Closed items :=
  ⟨fun j hj => Item.isRegular_of_isPlain (h j hj), .of_isPlain h, i, hlast, hi⟩

theorem closed_leaveItems : Closed leaveItems := by
  have hplain : ∀ i ∈ leaveItems.tail, i.isPlain = true := by decide
  refine ⟨by decide, ⟨fun l r hl hr => ?_, .of_isPlain hplain⟩, .instr .ret, rfl, rfl⟩
  obtain rfl : Reserved.leave.label = l := by simpa [Item.binds] using hl
  obtain rfl : leaveItems = r := by simpa [routineAt] using hr
  exact List.prefix_rfl

/-- A routine that is emitted for its own label. -/
theorem closed_routine {x : Item} {l : Label} {rest : List Item} {i : Item}
    (hx : ∀ k, x.binds k = true → k = l) (hr : routineAt l = some (x :: rest))
    (hregular : x.isRegular = true) (hplain : ∀ i ∈ rest, i.isPlain = true)
    (hlast : (x :: rest).getLast? = some i) (hi : i.endsControl = true) : Closed (x :: rest) := by
  refine ⟨?_, ⟨fun k r hk hr' => ?_, .of_isPlain hplain⟩, i, hlast, hi⟩
  · rw [List.forall_mem_cons]
    exact ⟨hregular, fun j hj => Item.isRegular_of_isPlain (hplain j hj)⟩
  · obtain rfl := hx k hk
    obtain rfl := Option.some.inj (hr.symm.trans hr')
    exact List.prefix_rfl

/-- The exit has a routine inside: it loads the count of a global matcher and runs into the code
that leaves the frame, which other code also jumps to. -/
theorem closed_exit (globalMode : GlobalMode) : Closed (exit globalMode) := by
  have hexit : exit globalMode = (.bind Reserved.exit.label ::
      (if globalMode.isGlobal then [.instr (loadSlot .rax .successfulCaptures)] else []))
        ++ leaveItems := by
    simp [exit, leaveItems]
  have hplain : ∀ i ∈ (.bind Reserved.exit.label ::
      (if globalMode.isGlobal then [.instr (loadSlot .rax .successfulCaptures)] else []) :
        List Item), i.isPlain = true := by
    cases globalMode.isGlobal <;> decide
  rw [hexit]
  exact .append (fun j hj => Item.isRegular_of_isPlain (hplain j hj)) (.of_isPlain hplain)
    closed_leaveItems

theorem closed_checkPreempt : Closed checkPreempt :=
  closed_routine (l := Reserved.checkPreempt.label) (by simp [Item.binds, eq_comm]) rfl rfl
    (by decide) rfl rfl

theorem closed_growStack : Closed growStack :=
  closed_routine (l := Reserved.stackOverflow.label) (by simp [Item.binds, eq_comm]) rfl rfl
    (by decide) rfl rfl

theorem closed_exception : Closed (statusExit .exception statusException) :=
  closed_routine (l := Reserved.exception.label) (by simp [Item.binds, eq_comm]) rfl rfl
    (by decide) rfl rfl

end Assembly

/-! ### Listings -/

namespace Assembler

/-- Each section of the closing code ends with a jump, a return or a jump through a register, so
whatever is emitted next is entered through its label only. -/
theorem closed_sections {s : Section} (hs : s ∈ sections) {a : Assembler}
    (ha : reservedLabels ≤ a.labels.size) : Closed (s.items a) := by
  simp only [sections, List.mem_cons, List.not_mem_nil, or_false] at hs
  rcases hs with rfl | rfl | rfl | rfl | rfl | rfl | rfl | rfl | rfl
  · exact .of_isPlain (i := .branch .jmp Reserved.start.label)
      (isPlain_entry a.mode a.registers ha) List.getLast?_concat rfl
  · have hplain := isPlain_success a.mode a.globalMode a.saved ha
    cases hg : a.globalMode.isGlobal with
    | true =>
      refine .of_isPlain (i := .branch .jmp Reserved.restart.label) hplain ?_ rfl
      simp [success, hg, List.getLast?_cons, List.getLast?_append]
    | false =>
      refine .of_isPlain (i := .branch .jmp Reserved.leave.label) hplain ?_ rfl
      simp [success, hg, List.getLast?_cons, List.getLast?_append]
  · exact closed_exit a.globalMode
  · refine .of_isPlain (i := .instr (.jmpRm (.reg .rax)))
      (isPlain_backtrack a.backtrackLimit a.canFallback ha) ?_ rfl
    simp [backtrack, List.getLast?_cons, List.getLast?_append]
  · have hplain : ∀ i ∈ failExit, i.isPlain = true := by decide
    exact .of_isPlain (i := .branch .jmp Reserved.exit.label) hplain rfl rfl
  · exact closed_checkPreempt
  · exact closed_growStack
  · exact closed_exception
  · have hplain : ∀ i ∈ statusExit .fallback statusFallback, i.isPlain = true := by decide
    exact .of_isPlain (i := .branch .jmp Reserved.leave.label) hplain rfl rfl

/-- A section that depends on whether its label was used is emitted in whole or not at all. -/
theorem closed_sectionItems {s : Section} (hs : s ∈ sections) {a : Assembler}
    (ha : reservedLabels ≤ a.labels.size) :
    a.sectionItems s = [] ∨ Closed (a.sectionItems s) := by
  unfold sectionItems
  split
  · split
    · exact .inr (closed_sections hs ha)
    · exact .inl rfl
  · exact .inr (closed_sections hs ha)

theorem closed_append_of_closed {is js : List Item} (hi : Closed is) (hj : js = [] ∨ Closed js) :
    Closed (is ++ js) := by
  rcases hj with rfl | hj
  · simpa using hi
  · exact .append hi.regular hi.opens hj

theorem nil_or_closed_append {is js : List Item} (hi : is = [] ∨ Closed is)
    (hj : js = [] ∨ Closed js) : is ++ js = [] ∨ Closed (is ++ js) := by
  rcases hi with rfl | hi
  · exact hj
  · exact .inr (closed_append_of_closed hi hj)

/-- The sections one after the other are regular, and control stays inside, by induction on the
sections; each may have used labels that a later one looks at. -/
theorem closed_sectionsItems {n : Nat} {a : Assembler} {items : List Item} {ss : List Section}
    (hss : ∀ s ∈ ss, s ∈ sections) (h : Laid n items a) (hn : reservedLabels ≤ n) :
    a.sectionsItems ss = [] ∨ Closed (a.sectionsItems ss) := by
  induction ss generalizing a items with
  | nil => exact .inl rfl
  | cons s ss ih =>
    have ha := Nat.le_trans hn h.size
    rw [List.forall_mem_cons] at hss
    refine nil_or_closed_append (closed_sectionItems hss.1 ha) ?_
    split
    · next b hb => exact ih hss.2 (h.placeSection hb)
    · exact .inl rfl

theorem closed_routines {n : Nat} {a : Assembler} {items : List Item} (h : Laid n items a)
    (hn : reservedLabels ≤ n) : Closed (a.sectionsItems sections) := by
  rcases closed_sectionsItems (fun _ hs => hs) h hn with hnil | hclosed
  · -- The entry sequence is always there.
    simp [sections, sectionsItems, sectionItems, entry] at hnil
  · exact hclosed

/-- One of the opcodes that an opcode stands for gives items that are plain, if a label that it
binds is one of the program's. -/
theorem isPlain_stageItems {a : Assembler} {op : Opcode} (ha : reservedLabels ≤ a.labels.size)
    (hop : ∀ l, op = .bind l → reservedLabels ≤ l.index) :
    ∀ i ∈ a.stageItems op, i.isPlain = true := by
  unfold stageItems
  split
  · next l =>
    have hnone : routineAt l = none := routineAt_local (hop l rfl)
    split <;> simp [hnone]
  · next hbind =>
    split
    · next bl hbl => exact isPlain_lower ha hbind hbl
    · simp

/-- The same for all that an opcode stands for, by induction along the assemblers between them. -/
theorem isPlain_stagesItems {n : Nat} {a : Assembler} {items : List Item} {ops : List Opcode}
    (hops : ∀ op ∈ ops, ∀ l, op = .bind l → reservedLabels ≤ l.index) (h : Laid n items a)
    (hn : reservedLabels ≤ n) : ∀ i ∈ a.stagesItems ops, i.isPlain = true := by
  induction ops generalizing a items with
  | nil => simp [stagesItems]
  | cons op ops ih =>
    rw [List.forall_mem_cons] at hops
    rw [stagesItems, List.forall_mem_append]
    refine ⟨isPlain_stageItems (Nat.le_trans hn h.size) hops.1, ?_⟩
    split
    · next b hb => exact ih hops.2 (h.emitStage hb)
    · simp

/-- A label has its place only where the program says so: what an opcode stands for binds no label
unless the opcode does. -/
theorem eq_bind_of_mem_stages {op op' : Opcode} {ops : List Opcode} {l : Label}
    (h : stages op = .ok ops) (hmem : op' ∈ ops) (hl : op' = .bind l) : op = .bind l := by
  unfold stages at h
  split at h
  · obtain ⟨last, -, h⟩ := bind_eq_ok.mp h
    obtain rfl := Except.ok.inj h
    simp [hl] at hmem
  · obtain rfl := Except.ok.inj h
    exact (List.mem_singleton.mp hmem) ▸ hl

/-- The items of an opcode are plain, with the record of its code offset before them. -/
theorem isPlain_opItems {n : Nat} {a : Assembler} {items : List Item} {op : Opcode}
    (hop : ∀ l, op = .bind l → reservedLabels ≤ l.index) (h : Laid n items a)
    (hn : reservedLabels ≤ n) : ∀ i ∈ a.opItems op, i.isPlain = true := by
  unfold opItems
  split
  · simp
  · split
    · next ops hops =>
      exact isPlain_stagesItems
        (fun op' hmem l hl => hop l (eq_bind_of_mem_stages hops hmem hl)) h hn
    · simp

end Assembler

namespace Program

open Assembler

theorem le_index_of_mapLabels {op : Opcode} {l : Label}
    (h : op.mapLabels Label.shifted = .bind l) : reservedLabels ≤ l.index := by
  cases op <;> simp only [Opcode.mapLabels] at h <;> cases h
  exact Nat.le_add_right _ _

/-- The items of a program are plain, since its own labels come after the reserved ones. -/
theorem isPlain_items {p : Program} {n : Nat} {c : Compilation} {items : List Item}
    {ops : List Opcode} (h : Laid n items c.assembler) (hn : reservedLabels ≤ n) :
    ∀ i ∈ c.items p ops, i.isPlain = true := by
  induction ops generalizing c items with
  | nil => simp [Compilation.items]
  | cons op ops ih =>
    rw [Compilation.items, List.forall_mem_append]
    refine ⟨isPlain_opItems (fun l hl => le_index_of_mapLabels hl) h hn, ?_⟩
    split
    · next d hd => exact ih (laid_step h hd)
    · simp

/-- **The listing of a compiled program is closed.** From here on the code is looked at as the code
of a closed listing, and no longer as that of a program. -/
theorem closed_listing {p : Program} {o : Options} {source : String} {heap : Nat → UInt64}
    {m : Matcher} (h : p.compile o source heap = .ok m) : Closed (p.listing o heap) := by
  obtain ⟨c, d, a, hc, hd, -⟩ := compile_eq_ok h
  have hstart := laid_start hc
  have hfinal : Laid _ _ { d.assembler with finalized := true } :=
    (laid_steps hstart hd).of_eq rfl rfl
  have hplain : ∀ i ∈ opening ++ c.items p p.opcodes.toList, i.isPlain = true := by
    rw [List.forall_mem_append]
    exact ⟨by decide, isPlain_items hstart (Nat.le_refl _)⟩
  simp only [listing, hc, hd]
  exact .append (fun i hi => Item.isRegular_of_isPlain (hplain i hi)) (.of_isPlain hplain)
    (closed_routines hfinal (Nat.le_refl _))

end Program

end NativeMatcher
