import NativeMatcher.Proofs.Placement
import NativeMatcher.Proofs.Regular

/-!
# Pieces of code

What the code of one opcode, and each of the fixed routines, does with labels. It declares its
local labels where it needs them, binds each of them once, and asks for the places of its local
labels and of few others (`NativeMatcher.Assembly.Piece`). An opcode asks for its target, unless
it names it in vain (`NativeMatcher.Opcode.target?`), and for fixed routines; a routine asks for
other routines, named in `NativeMatcher.Assembly.Routine`.

There is one lemma for each opcode and each routine, and nothing else looks into their code to
learn about labels.
-/

namespace NativeMatcher

open Assembly Code X64

namespace Assembly

/-- The local labels of a piece of code: `count` labels from `next` on. -/
def locals (next count : Nat) : List Label := (List.range' next count).map Label.mk

/-- Items that bind the labels in `own` and the labels they declare, each once, and ask for the
places of the labels they declare and of labels in `Names` only. -/
structure Piece (next : Nat) (own : List Label) (Names : Label → Prop) (items : List Item) :
    Prop where
  /-- Labels are declared before they are named. -/
  declared : Scoped next items
  /-- The labels that are bound. -/
  binds : (bindings items).Perm (own ++ locals next (declares items))
  /-- The labels that are asked for. -/
  names : ∀ l ∈ targets items, Names l ∨ next ≤ l.index

theorem Piece.mono {next : Nat} {own : List Label} {P Q : Label → Prop} {items : List Item}
    (h : Piece next own P items) (hPQ : ∀ l, P l → Q l) : Piece next own Q items :=
  ⟨h.declared, h.binds, fun l hl => (h.names l hl).imp_left (hPQ l)⟩

/-! ### Opcodes -/

theorem index_label_lt (r : Reserved) : r.label.index < reservedLabels := by
  cases r <;> decide

section Branches

variable {next : Nat} {table : UInt64} {dest : Target} (hdest : (targetLabel dest).index < next)

include hdest

/-- The code of a class test asks for its target and for a local label at most. -/
theorem piece_lowerClass (mode : Mode) (cls : CharClass) :
    Piece next [] (· = targetLabel dest) (lowerClass mode next table dest cls).items := by
  constructor
  · cases cls <;> cases mode <;> simp [lowerClass, Assembly.branchTo] <;> omega
  · cases cls <;> cases mode <;>
      simp [lowerClass, Assembly.branchTo, locals, Item.declares, Item.bound?]
  · cases cls <;> cases mode <;> simp [lowerClass, Assembly.branchTo, Item.target?]

/-- So does that of any test of the character. -/
theorem piece_lowerTest (mode : Mode) (test : CharTest) :
    Piece next [] (· = targetLabel dest) (lowerTest mode next table dest test).items := by
  cases test with
  | notInClass cls => exact piece_lowerClass hdest mode cls
  | _ =>
    constructor
    · simpa [lowerTest, rangeLookup, Assembly.branchTo] using hdest
    · simp [lowerTest, rangeLookup, Assembly.branchTo, locals, Item.declares, Item.bound?]
    · simp [lowerTest, rangeLookup, Assembly.branchTo, Item.target?]

/-- The code of a test of the position has no labels of its own. -/
theorem piece_lowerPlace {mode : Mode} {test : PlaceTest} {bl : Block}
    (h : lowerPlace mode dest test = .ok bl) :
    Piece next [] (· = targetLabel dest) bl.items := by
  obtain ⟨is, c, hitems, -⟩ := exists_items_of_lowerPlace h
  rw [hitems]
  constructor
  · simpa [Assembly.branchTo] using hdest
  · simp [Assembly.branchTo, locals, Item.declares, Item.bound?]
  · simp [Assembly.branchTo, Item.target?]

theorem piece_lowerRegister (test : RegisterTest) :
    Piece next [] (· = targetLabel dest) (lowerRegister dest test).items := by
  constructor
  · cases test <;> simpa [lowerRegister, Assembly.branchTo] using hdest
  · cases test <;> simp [lowerRegister, Assembly.branchTo, locals, Item.declares, Item.bound?]
  · cases test <;> simp [lowerRegister, Assembly.branchTo, Item.target?]

/-- A reference to a capture has two local labels, its loop and its end. -/
theorem piece_backReference (mode : Mode) (reg : Nat) (backward : Bool) :
    Piece next [] (· = targetLabel dest) (backReference mode next reg backward dest) := by
  constructor
  · cases backward <;>
      simp [backReference, captureLength, captureFits, skipCapture, Assembly.branchTo] <;> omega
  · have hswap : [(⟨next + 1⟩ : Label), ⟨next⟩].Perm [⟨next⟩, ⟨next + 1⟩] := .swap _ _ _
    cases backward <;>
      simpa [backReference, captureLength, captureFits, skipCapture, Assembly.branchTo,
        locals, List.range', Item.declares, Item.bound?] using hswap
  · cases backward <;>
      simp [backReference, captureLength, captureFits, skipCapture, Assembly.branchTo, Item.target?]

/-- With the host to compare there is no loop, and the end is the only local label. -/
theorem piece_backReferenceIgnoreCase (mode : Mode) (reg : Nat) (backward unicode : Bool) :
    Piece next [] (· = targetLabel dest)
      (backReferenceIgnoreCase mode next reg backward unicode dest) := by
  constructor
  · cases backward <;>
      simp [backReferenceIgnoreCase, captureLength, captureFits, skipCapture,
        Assembly.branchTo] <;> omega
  · cases backward <;>
      simp [backReferenceIgnoreCase, captureLength, captureFits, skipCapture, Assembly.branchTo,
        locals, Item.declares, Item.bound?]
  · cases backward <;>
      simp [backReferenceIgnoreCase, captureLength, captureFits, skipCapture, Assembly.branchTo,
        Item.target?]

end Branches

/-- The code of a stub call. -/
theorem piece_callUnlessAbove {next : Nat} (hnext : reservedLabels ≤ next) (reg : Reg)
    (limit : ContextField) (stub : Reserved) :
    Piece next [] (· = stub.label) (callUnlessAbove next reg limit stub) := by
  have hstub := index_label_lt stub
  constructor
  · simp [callUnlessAbove]
    omega
  · simp [callUnlessAbove, locals, Item.declares, Item.bound?]
  · simp [callUnlessAbove, Item.target?]

/-- Instructions are a piece of code. -/
theorem piece_instrs (next : Nat) (P : Label → Prop) (is : List Instr) :
    Piece next [] P (is.map .instr) :=
  ⟨by simp, by simp [locals], by simp⟩

theorem piece_jmp {next : Nat} {P : Label → Prop} {l : Label} (hl : l.index < next) (hP : P l) :
    Piece next [] P [.branch .jmp l] :=
  ⟨by simpa using hl, by simp [locals, Item.declares, Item.bound?], by simp [Item.target?, hP]⟩

theorem Piece.instrs_append {next : Nat} {own : List Label} {P : Label → Prop} {items : List Item}
    (h : Piece next own P items) (is : List Instr) : Piece next own P (is.map .instr ++ items) :=
  ⟨by simpa using h.declared, by simpa using h.binds, by simpa using h.names⟩

end Assembly

/-- The label an opcode asks for a place, if any: loads that check nothing and tests that
never fail name a label in vain. -/
def Opcode.target? : Opcode → Option Label
  | .bind _ | .onChar (.notInClass .everything) _ | .load _ _ false _ => none
  | op => op.label?

/-- What the code of an opcode may ask for: the target of the opcode, and fixed routines. -/
def Opcode.Asks (op : Opcode) (l : Label) : Prop :=
  op.target? = some l ∨ l.index < reservedLabels

namespace Assembly

/-- The code of an opcode is a piece of code that asks for the target of the opcode and for fixed
routines. -/
theorem piece_lower {mode : Mode} {next : Nat} {table : UInt64} {isBound : Label → Bool}
    {op : Opcode} {bl : Block} (hnext : reservedLabels ≤ next) (hop : ∀ l, op ≠ .bind l)
    (hlabel : ∀ l, op.label? = some l → l.index < next)
    (h : lower mode next table isBound op = .ok bl) :
    Piece next [] op.Asks bl.items := by
  have hreserved (r : Reserved) : r.label.index < next :=
    Nat.lt_of_lt_of_le (index_label_lt r) hnext
  have hdest (dest : Target) (hl : ∀ l, dest = some l → l.index < next) :
      (targetLabel dest).index < next := by
    cases dest with
    | none => exact hreserved .backtrack
    | some l => exact hl l rfl
  have hasks (dest : Target) {l : Label} (hl : l = targetLabel dest) :
      dest = some l ∨ l.index < reservedLabels := by
    cases dest with
    | none => exact .inr (hl ▸ index_label_lt .backtrack)
    | some l' => exact .inl (congrArg some hl.symm)
  have hlimit : Piece next [] (· = Reserved.stackOverflow.label) (checkStackLimit next) :=
    piece_callUnlessAbove hnext ..
  have hroutine (r : Reserved) : Piece next [] op.Asks [.branch .jmp r.label] :=
    piece_jmp (hreserved r) (.inr (index_label_lt r))
  by_cases hstraight : op.isStraight = true
  · obtain ⟨is, hitems, -⟩ := exists_instrs_of_lower hstraight h
    rw [hitems]
    exact piece_instrs next _ is
  cases op with
  | bind l => exact absurd rfl (hop l)
  | onChar test dest =>
    obtain rfl := Except.ok.inj h
    by_cases htest : test = .notInClass .everything
    · subst htest
      exact piece_instrs next _ []
    · refine (piece_lowerTest (hdest dest hlabel) mode test).mono fun l hl => ?_
      have htarget : (Opcode.onChar test dest).target? = dest := by
        rw [Opcode.target?]
        · rfl
        · simp
        · simpa using htest
        · simp
      rw [Opcode.Asks, htarget]
      exact hasks dest hl
  | onPlace test dest => exact (piece_lowerPlace (hdest dest hlabel) h).mono fun l => hasks dest
  | onRegister test dest =>
    obtain rfl := Except.ok.inj h
    exact (piece_lowerRegister (hdest dest hlabel) test).mono fun l => hasks dest
  | checkGreedyLoop dest =>
    obtain rfl := Except.ok.inj h
    have hlt := hdest dest hlabel
    refine Piece.mono (P := (· = targetLabel dest)) ⟨?_, ?_, ?_⟩ fun l => hasks dest
    · simp
      omega
    · simp [locals, Item.declares, Item.bound?]
    · simp [Item.target?]
  | checkNotBackReference reg backward dest =>
    obtain ⟨_, -, h⟩ := Assembler.bind_eq_ok.mp h
    obtain rfl := Except.ok.inj h
    exact (piece_backReference (hdest dest hlabel) mode reg backward).mono fun l => hasks dest
  | checkNotBackReferenceIgnoreCase reg backward unicode dest =>
    obtain ⟨_, -, h⟩ := Assembler.bind_eq_ok.mp h
    obtain rfl := Except.ok.inj h
    exact (piece_backReferenceIgnoreCase (hdest dest hlabel) mode reg backward unicode).mono
      fun l => hasks dest
  | goTo dest =>
    cases dest with
    | none =>
      obtain rfl := Except.ok.inj h
      exact hroutine .backtrack
    | some l =>
      obtain rfl := Except.ok.inj h
      have hlt := hlabel l rfl
      have hstub := hreserved .checkPreempt
      have hsmall := index_label_lt .checkPreempt
      refine ⟨?_, ?_, ?_⟩
      · split <;> simp [poll, callUnlessAbove] <;> omega
      · split <;> simp [poll, callUnlessAbove, locals, Item.declares, Item.bound?]
      · split <;> simp [poll, callUnlessAbove, Item.target?, Opcode.Asks, Opcode.target?,
          Opcode.label?, hsmall]
  | pushBacktrack l =>
    obtain rfl := Except.ok.inj h
    have hlt := hlabel l rfl
    refine ⟨by simpa [hlt] using hlimit.declared,
      by simpa [Item.declares, Item.bound?] using hlimit.binds, ?_⟩
    simp [checkStackLimit, callUnlessAbove, Item.target?, Opcode.Asks, Opcode.target?,
      Opcode.label?, index_label_lt]
  | pushPosition =>
    obtain rfl := Except.ok.inj h
    exact (hlimit.instrs_append _).mono fun l hl => .inr (hl ▸ index_label_lt _)
  | pushRegister reg checked =>
    obtain rfl := Except.ok.inj h
    cases checked with
    | true => exact (hlimit.instrs_append _).mono fun l hl => .inr (hl ▸ index_label_lt _)
    | false => exact (piece_instrs next _ []).instrs_append _
  | setPositionFromEnd count =>
    obtain ⟨neg, -, h⟩ := Assembler.bind_eq_ok.mp h
    obtain ⟨limit, -, h⟩ := Assembler.bind_eq_ok.mp h
    obtain rfl := Except.ok.inj h
    refine ⟨?_, ?_, ?_⟩
    · simp
    · simp [locals, Item.declares, Item.bound?]
    · simp [Item.target?]
  | backtrack =>
    obtain rfl := Except.ok.inj h
    exact hroutine .backtrack
  | fail =>
    obtain rfl := Except.ok.inj h
    exact hroutine .fail
  | succeed =>
    obtain rfl := Except.ok.inj h
    exact hroutine .success
  | _ => exact absurd rfl hstraight

/-- The code of an opcode asks for the target of the opcode. Besides it there are its own labels and
those of routines, so these are all the places that a block can ask for. -/
theorem mem_targets_of_lower {mode : Mode} {next : Nat} {table : UInt64} {isBound : Label → Bool}
    {op : Opcode} {bl : Block} {l : Label}
    (hop : ∀ offset dest count, op ≠ .load offset dest true count)
    (h : lower mode next table isBound op = .ok bl) (hl : op.target? = some l) :
    l ∈ targets bl.items := by
  -- A target that is a label stands for itself.
  have hself (dest : Target) (hdest : dest = some l) : l = targetLabel dest := by
    rw [hdest]
    rfl
  cases op with
  | onChar test dest =>
    obtain rfl := Except.ok.inj h
    cases test with
    | notInClass cls =>
      cases cls with
      | everything => cases hl
      | _ =>
        rw [hself dest hl]
        cases mode <;> simp [lowerTest, lowerClass, Assembly.branchTo, Item.target?]
    | _ =>
      rw [hself dest hl]
      simp [lowerTest, rangeLookup, Assembly.branchTo, Item.target?]
  | onPlace test dest =>
    obtain ⟨is, c, hitems, -⟩ := exists_items_of_lowerPlace h
    rw [hself dest hl, hitems]
    simp [Assembly.branchTo, Item.target?]
  | onRegister test dest =>
    obtain rfl := Except.ok.inj h
    rw [hself dest hl]
    cases test <;> simp [lowerRegister, Assembly.branchTo, Item.target?]
  | checkGreedyLoop dest =>
    obtain rfl := Except.ok.inj h
    rw [hself dest hl]
    simp [Item.target?]
  | checkNotBackReference reg backward dest =>
    obtain ⟨_, -, h⟩ := Assembler.bind_eq_ok.mp h
    obtain rfl := Except.ok.inj h
    rw [hself dest hl]
    simp [backReference, Assembly.branchTo, Item.target?]
  | checkNotBackReferenceIgnoreCase reg backward unicode dest =>
    obtain ⟨_, -, h⟩ := Assembler.bind_eq_ok.mp h
    obtain rfl := Except.ok.inj h
    rw [hself dest hl]
    simp [backReferenceIgnoreCase, Assembly.branchTo, Item.target?]
  | goTo dest =>
    obtain rfl : dest = some l := hl
    obtain rfl := Except.ok.inj h
    simp [Item.target?]
  | pushBacktrack k =>
    obtain rfl : k = l := Option.some.inj hl
    obtain rfl := Except.ok.inj h
    simp [Item.target?]
  | load offset dest checked count =>
    cases checked with
    | false => cases hl
    | true => exact absurd rfl (hop offset dest count)
  | _ => cases hl

/-! ### Routines -/

theorem locals_add (next m n : Nat) :
    locals next (m + n) = locals next m ++ locals (next + m) n := by
  rw [locals, locals, locals, ← List.map_append, List.range'_append_1]

/-- Pieces of code one after the other are a piece of code. -/
theorem Piece.append {next k : Nat} {own own' : List Label} {P : Label → Prop} {is js : List Item}
    (hi : Piece next own P is) (hk : declares is = k) (hj : Piece (next + k) own' P js) :
    Piece next (own ++ own') P (is ++ js) := by
  subst hk
  refine ⟨?_, ?_, ?_⟩
  · rw [scoped_append]
    exact ⟨hi.declared, hj.declared⟩
  · rw [bindings_append, declares_append, locals_add]
    refine (hi.binds.append hj.binds).trans ?_
    rw [List.append_assoc, List.append_assoc]
    refine .append_left own ?_
    rw [← List.append_assoc, ← List.append_assoc]
    exact .append_right _ List.perm_append_comm
  · rw [targets_append, List.forall_mem_append]
    exact ⟨hi.names, fun l hl => (hj.names l hl).imp_right Nat.le_of_add_right_le⟩

/-- A piece of code may go on with one that binds only labels of its own. -/
theorem Piece.extend {next k : Nat} {own : List Label} {P : Label → Prop} {is js : List Item}
    (hi : Piece next own P is) (hk : declares is = k) (hj : Piece (next + k) [] P js) :
    Piece next own P (is ++ js) := by
  simpa using hi.append hk hj

/-- A routine: it binds the labels in `own`, and asks for the places in `names`. -/
abbrev Routine (next : Nat) (own names : List Reserved) (items : List Item) : Prop :=
  Piece next (own.map Reserved.label) (· ∈ names.map Reserved.label) items

/-- Few registers are filled in a row and many in a loop, whose head is a local label. -/
theorem piece_fillRegisters (next : Nat) (P : Label → Prop) (count : Nat) :
    Piece next [] P (fillRegisters next count) := by
  unfold fillRegisters
  split
  · have hstores := piece_instrs next P
      ((List.range count).map fun i => .store .w64 .rax fp (registerOffset i))
    simpa [Function.comp_def] using hstores
  · constructor
    · simp
    · simp [locals, Item.declares, Item.bound?]
    · simp [Item.target?]

section Routines

variable {next : Nat} (hnext : reservedLabels ≤ next)

include hnext

theorem index_label_lt_next (r : Reserved) : r.label.index < next :=
  Nat.lt_of_lt_of_le (index_label_lt r) hnext

/-- The entry sequence is where a match starts and starts over. It polls, and goes on with the first
opcode. -/
theorem routine_entry (mode : Mode) (registers : Nat) :
    Routine next [.entry, .restart] [.checkPreempt, .start] (entry mode registers next) := by
  have hentry := index_label_lt_next hnext .entry
  have hrestart := index_label_lt_next hnext .restart
  have hpreempt := index_label_lt_next hnext .checkPreempt
  have hstart := index_label_lt_next hnext .start
  unfold entry
  -- Up to the registers all labels are known; what fills them may declare one more.
  refine (Piece.extend ?_ (k := 3) ?_ (piece_fillRegisters ..)).extend rfl (piece_jmp ?_ ?_)
  · constructor
    · simp [poll, callUnlessAbove]
      omega
    · simp [poll, callUnlessAbove, locals, List.range', Item.declares, Item.bound?]
      exact .swap _ _ _
    · simp [poll, callUnlessAbove, Item.target?]
  · simp [poll, callUnlessAbove, Item.declares]
  · omega
  · simp

/-- Stepping over an empty match leaves for the exit at the end of the subject. -/
theorem piece_stepOverEmpty (mode : Mode) (globalMode : GlobalMode) :
    Routine next [] [.exit] (stepOverEmpty mode globalMode next) := by
  have hexit := index_label_lt_next hnext .exit
  have hswap : [(⟨next + 1⟩ : Label), ⟨next⟩].Perm [⟨next⟩, ⟨next + 1⟩] := .swap _ _ _
  unfold stepOverEmpty
  constructor
  · split <;> simp [skipPair] <;> omega
  · split <;> simpa [skipPair, locals, List.range', Item.declares, Item.bound?] using hswap
  · split <;> simp [skipPair, Item.target?]

/-- The routine for a match starts over in the global modes and leaves in the others; only in the
former does it ask for the places of the exit and of the restart. -/
theorem routine_success (mode : Mode) (globalMode : GlobalMode) (saved : Nat) :
    Routine next [.success] [.exit, .restart, .leave] (success mode globalMode saved next) := by
  have hexit := index_label_lt_next hnext .exit
  have hrestart := index_label_lt_next hnext .restart
  have hleave := index_label_lt_next hnext .leave
  have hsuccess := index_label_lt_next hnext .success
  unfold success
  cases globalMode.isGlobal with
  | false =>
    constructor
    · simp [hsuccess, hleave]
    · simp [locals, Item.declares, Item.bound?]
    · simp [Item.target?]
  | true =>
    simp only [if_true]
    rw [← List.append_assoc]
    refine Piece.extend ?_ rfl (piece_jmp (by omega) (by simp))
    rw [← List.append_assoc]
    refine Piece.extend ?_ (k := 0) ?_ ?_
    · constructor
      · simp [hsuccess, hexit]
      · simp [locals, Item.declares, Item.bound?]
      · simp [Item.target?]
    · simp [Item.declares]
    · split
      · exact (piece_stepOverEmpty hnext mode globalMode).mono (by simp)
      · exact piece_instrs next _ []

/-- Leaving has two entrances: with the number of matches as the status, or with a status that is
there already. -/
theorem routine_exit (globalMode : GlobalMode) :
    Routine next [.exit, .leave] [] (exit globalMode) := by
  have hexit := index_label_lt_next hnext .exit
  have hleave := index_label_lt_next hnext .leave
  unfold exit
  constructor
  · split <;> simp [hexit, hleave, calleeSaved]
  · split <;> simp [locals, Item.declares, Item.bound?, calleeSaved]
  · split <;> simp [Item.target?, calleeSaved]

/-- The backtrack routine polls, counts if there is a limit, and then pops. Without a limit it asks
for no place to fall back to. -/
theorem routine_backtrack (limit : Option UInt32) (canFallback : Bool) :
    Routine next [.backtrack] [.checkPreempt, .fallback, .fail]
      (backtrack limit canFallback next) := by
  have hbacktrack := index_label_lt_next hnext .backtrack
  have hfail := index_label_lt_next hnext .fail
  have hpreempt := index_label_lt_next hnext .checkPreempt
  have hfallback := index_label_lt_next hnext .fallback
  unfold backtrack
  cases limit with
  | none =>
    constructor
    · simp [poll, callUnlessAbove]; omega
    · simp [poll, callUnlessAbove, locals, Item.declares, Item.bound?]
    · simp [poll, callUnlessAbove, Item.target?]
  | some n =>
    constructor
    · cases canFallback <;> simp [poll, callUnlessAbove, countBacktrack] <;> omega
    · simp [poll, callUnlessAbove, countBacktrack, locals, List.range', Item.declares, Item.bound?]
    · cases canFallback <;> simp [poll, callUnlessAbove, countBacktrack, Item.target?]

/-- Failing leaves through the exit. -/
theorem routine_failExit : Routine next [.fail] [.exit] failExit := by
  have hexit := index_label_lt_next hnext .exit
  have hfail := index_label_lt_next hnext .fail
  constructor
  · simp [failExit, hexit, hfail]
  · simp [failExit, locals, Item.declares, Item.bound?]
  · simp [failExit, Item.target?]

/-- The stub of a poll goes back or leaves with the host's status. -/
theorem routine_checkPreempt : Routine next [.checkPreempt] [.leave] checkPreempt := by
  have hpreempt := index_label_lt_next hnext .checkPreempt
  have hleave := index_label_lt_next hnext .leave
  constructor
  · simp [checkPreempt, leaveStub, hpreempt, hleave]
  · simp [checkPreempt, leaveStub, locals, Item.declares, Item.bound?]
  · simp [checkPreempt, leaveStub, Item.target?]

/-- The stub for a full stack goes back or leaves with an exception. -/
theorem routine_growStack : Routine next [.stackOverflow] [.exception] growStack := by
  have hoverflow := index_label_lt_next hnext .stackOverflow
  have hexception := index_label_lt_next hnext .exception
  constructor
  · simp [growStack, leaveStub, hoverflow, hexception]
  · simp [growStack, leaveStub, locals, Item.declares, Item.bound?]
  · simp [growStack, leaveStub, Item.target?]

/-- A place that reports a status leaves with it. -/
theorem routine_statusExit (place : Reserved) (status : UInt64) :
    Routine next [place] [.leave] (statusExit place status) := by
  have hplace := index_label_lt_next hnext place
  have hleave := index_label_lt_next hnext .leave
  constructor
  · simp [statusExit, hplace, hleave]
  · simp [statusExit, locals, Item.declares, Item.bound?]
  · simp [statusExit, Item.target?]

end Routines

end Assembly

end NativeMatcher
