import Mathlib.Control.Monad.Basic
import NativeMatcher.Proofs.Listing

/-!
# Blocks under renamed labels

Lowering an opcode treats the labels it names as mere names: the block of a renamed opcode is the
renamed block (`NativeMatcher.Assembly.Keeps.lower`). It does so for every renaming that leaves
the labels alone that a block brings in by itself, those of the routines and the local ones
(`NativeMatcher.Assembly.Keeps`). The routines name no other labels, so such a renaming does not
change them (`NativeMatcher.Assembler.mapLabels_items`).
-/

namespace NativeMatcher

open Assembly Code X64

/-! ### Renamed opcodes -/

theorem Opcode.mapLabels_mapLabels (f f' : Label → Label) (op : Opcode) :
    (op.mapLabels f).mapLabels f' = op.mapLabels (f' ∘ f) := by
  cases op <;> simp [Opcode.mapLabels]

/-- The opcodes that an opcode stands for have its labels, so they are renamed with it. -/
theorem Assembly.stages_mapLabels (f : Label → Label) (op : Opcode) :
    stages (op.mapLabels f) = List.map (Opcode.mapLabels f) <$> stages op := by
  cases op with
  | load offset dest checked count =>
    cases checked with
    | true => simp [Opcode.mapLabels, stages]
    | false => rfl
  | _ => rfl

/-! ### Renamed items -/

namespace Assembly

/-- The item with its label renamed. -/
def Item.mapLabels (g : Label → Label) : Item → Item
  | .branch b l => .branch b (g l)
  | .bind l => .bind (g l)
  | .stub l => .stub (g l)
  | .storeTarget l => .storeTarget (g l)
  | i => i

/-- The block with every label renamed. -/
def Block.mapLabels (g : Label → Label) (b : Block) : Block :=
  { b with items := b.items.map (Item.mapLabels g) }

/-- A renaming leaves the labels of the routines alone, and those from `next` on. -/
structure Keeps (g : Label → Label) (next : Nat) : Prop where
  /-- The labels of the routines. -/
  reserved : ∀ r : Reserved, g r.label = r.label
  /-- The labels that are not declared yet. -/
  fresh : ∀ l : Label, next ≤ l.index → g l = l

variable {g : Label → Label} {next : Nat} {table : UInt64}

@[simp] theorem mapLabels_instr (i : Instr) : (Item.instr i).mapLabels g = .instr i := rfl

@[simp] theorem mapLabels_branch (b : Branch) (l : Label) :
    (Item.branch b l).mapLabels g = .branch b (g l) := rfl

@[simp] theorem mapLabels_declare : Item.declare.mapLabels g = .declare := rfl

@[simp] theorem mapLabels_bind (l : Label) : (Item.bind l).mapLabels g = .bind (g l) := rfl

@[simp] theorem mapLabels_stub (l : Label) : (Item.stub l).mapLabels g = .stub (g l) := rfl

@[simp] theorem mapLabels_storeTarget (l : Label) :
    (Item.storeTarget l).mapLabels g = .storeTarget (g l) := rfl

@[simp] theorem mapLabels_comp_instr : Item.mapLabels g ∘ Item.instr = Item.instr := rfl

namespace Keeps

variable (h : Keeps g next)

include h

theorem targetLabel (dest : Target) : g (targetLabel dest) = Assembly.targetLabel (dest.map g) := by
  cases dest with
  | none => exact h.reserved .backtrack
  | some l => rfl

theorem branchTo (c : Cond) (dest : Target) :
    (branchTo c dest).mapLabels g = Assembly.branchTo c (dest.map g) :=
  congrArg (Item.branch _) (h.targetLabel dest)

theorem local_eq {k : Nat} (hk : next ≤ k) : g ⟨k⟩ = ⟨k⟩ := h.fresh ⟨k⟩ hk

theorem callUnlessAbove (reg : Reg) (limit : ContextField) (stub : Reserved) :
    (callUnlessAbove next reg limit stub).map (Item.mapLabels g) =
      Assembly.callUnlessAbove next reg limit stub := by
  simp [Assembly.callUnlessAbove, h.local_eq (Nat.le_refl next), h.reserved]

theorem poll : (poll next).map (Item.mapLabels g) = Assembly.poll next :=
  h.callUnlessAbove _ _ _

theorem checkStackLimit :
    (checkStackLimit next).map (Item.mapLabels g) = Assembly.checkStackLimit next :=
  h.callUnlessAbove _ _ _

/-! #### Opcodes -/

theorem lowerClass (mode : Mode) (dest : Target) (cls : CharClass) :
    lowerClass mode next table (dest.map g) cls =
      (lowerClass mode next table dest cls).mapLabels g := by
  have hnext := h.local_eq (Nat.le_refl next)
  cases cls <;> cases mode <;>
    simp [Assembly.lowerClass, Block.mapLabels, h.branchTo, hnext]

theorem lowerTest (mode : Mode) (dest : Target) (test : CharTest) :
    lowerTest mode next table (dest.map g) test =
      (lowerTest mode next table dest test).mapLabels g := by
  cases test with
  | notInClass cls => exact h.lowerClass mode dest cls
  | _ => simp [Assembly.lowerTest, rangeLookup, Block.mapLabels, h.branchTo]

/-- A position test branches to the destination alone, so renaming the destination renames the
code. -/
theorem lowerPlace (mode : Mode) (dest : Target) (test : PlaceTest) :
    lowerPlace mode (dest.map g) test = Block.mapLabels g <$> lowerPlace mode dest test := by
  cases test with
  | outside offset =>
    simp only [Assembly.lowerPlace, map_bind]
    refine bind_congr fun disp => ?_
    split <;> simp [Block.mapLabels, h.branchTo]
  | _ => simp [Assembly.lowerPlace, Block.mapLabels, h.branchTo]

theorem lowerRegister (dest : Target) (test : RegisterTest) :
    lowerRegister (dest.map g) test = (lowerRegister dest test).mapLabels g := by
  cases test <;> simp [Assembly.lowerRegister, Block.mapLabels, h.branchTo]

theorem captureFits (backward : Bool) (dest : Target) :
    captureFits backward (dest.map g) =
      (captureFits backward dest).map (Item.mapLabels g) := by
  cases backward <;> simp [Assembly.captureFits, h.branchTo]

/-- A reference to a capture has two local labels, which the renaming leaves alone. -/
theorem backReference (mode : Mode) (reg : Nat) (backward : Bool) (dest : Target) :
    backReference mode next reg backward (dest.map g) =
      (backReference mode next reg backward dest).map (Item.mapLabels g) := by
  have hdone := h.local_eq (Nat.le_refl next)
  have hloop := h.local_eq (Nat.le_add_right next 1)
  cases backward <;>
    simp [Assembly.backReference, captureLength, skipCapture, h.captureFits, h.branchTo, hdone,
      hloop]

/-- Without regard to case there is the call to the host besides, in which no label occurs. -/
theorem backReferenceIgnoreCase (mode : Mode) (reg : Nat) (backward unicode : Bool)
    (dest : Target) :
    backReferenceIgnoreCase mode next reg backward unicode (dest.map g) =
      (backReferenceIgnoreCase mode next reg backward unicode dest).map (Item.mapLabels g) := by
  have hdone := h.local_eq (Nat.le_refl next)
  simp [Assembly.backReferenceIgnoreCase, captureLength, skipCapture, h.captureFits, h.branchTo,
    hdone]

/-- **The block of a renamed opcode is the renamed block.** The renaming is to leave the reserved
labels alone and the ones made while the opcode is lowered. -/
theorem lower {isBound isBound' : Label → Bool} (hbound : ∀ l, isBound' (g l) = isBound l)
    (mode : Mode) (table : UInt64) (op : Opcode) :
    lower mode next table isBound' (op.mapLabels g) =
      Block.mapLabels g <$> lower mode next table isBound op := by
  have hnext := h.local_eq (Nat.le_refl next)
  cases op with
  | onChar test dest => exact congrArg Except.ok (h.lowerTest mode dest test)
  | onPlace test dest => exact h.lowerPlace mode dest test
  | onRegister test dest => exact congrArg Except.ok (h.lowerRegister dest test)
  | checkNotBackReference reg backward dest =>
    simp [Opcode.mapLabels, Assembly.lower, Block.mapLabels, h.backReference]
  | checkNotBackReferenceIgnoreCase reg backward unicode dest =>
    simp [Opcode.mapLabels, Assembly.lower, Block.mapLabels, h.backReferenceIgnoreCase]
  | goTo dest =>
    cases dest with
    | none => simp [Opcode.mapLabels, Assembly.lower, Block.mapLabels, h.reserved]
    | some l =>
      -- A jump polls if its label is bound, so this is where the two tables have to agree.
      cases hl : isBound l <;>
        simp [Opcode.mapLabels, Assembly.lower, Block.mapLabels, hbound, hl, h.poll]
  | load offset dest checked count =>
    simp only [Opcode.mapLabels, Assembly.lower, map_bind]
    refine bind_congr fun disp => ?_
    split <;> simp [Block.mapLabels, Block.ofInstrs]
  | pushRegister reg checked =>
    cases checked <;>
      simp [Opcode.mapLabels, Assembly.lower, Block.mapLabels, h.checkStackLimit]
  | advance _ | writePosition _ _ | advanceRegister _ _ =>
    simp only [Opcode.mapLabels, Assembly.lower]
    split <;> simp [Block.mapLabels, Block.ofInstrs]
  | _ =>
    simp [Opcode.mapLabels, Assembly.lower, Block.mapLabels, Block.ofInstrs, hnext,
      h.checkStackLimit, h.reserved, h.targetLabel]

/-! #### Routines -/

theorem fillRegisters (count : Nat) {k : Nat} (hk : next ≤ k) :
    (fillRegisters k count).map (Item.mapLabels g) = Assembly.fillRegisters k count := by
  unfold Assembly.fillRegisters
  split <;> simp [h.local_eq hk]

theorem entry (mode : Mode) (registers : Nat) :
    (entry mode registers next).map (Item.mapLabels g) = Assembly.entry mode registers next := by
  have hfirst := h.local_eq (Nat.le_add_right next 1)
  have hother := h.local_eq (Nat.le_add_right next 2)
  have hfill := h.fillRegisters registers (Nat.le_add_right next 3)
  simp [Assembly.entry, h.reserved, h.poll, hfirst, hother, hfill]

/-- The step over an empty match branches to the exit, which is reserved, and to local labels. -/
theorem stepOverEmpty (mode : Mode) (globalMode : GlobalMode) :
    (stepOverEmpty mode globalMode next).map (Item.mapLabels g) =
      Assembly.stepOverEmpty mode globalMode next := by
  have hreload := h.local_eq (Nat.le_refl next)
  have hadvance := h.local_eq (Nat.le_add_right next 1)
  unfold Assembly.stepOverEmpty
  split <;> simp [skipPair, h.reserved, hreload, hadvance]

/-- All labels of the success sequence are reserved or local, so it is its own renaming. -/
theorem success (mode : Mode) (globalMode : GlobalMode) (saved : Nat) :
    (success mode globalMode saved next).map (Item.mapLabels g) =
      Assembly.success mode globalMode saved next := by
  have hempty := h.stepOverEmpty mode globalMode
  unfold Assembly.success
  split
  · split <;> simp [h.reserved, hempty]
  · simp [h.reserved]

theorem exit (globalMode : GlobalMode) :
    (exit globalMode).map (Item.mapLabels g) = Assembly.exit globalMode := by
  unfold Assembly.exit
  split <;> simp [h.reserved, Function.comp_def]

theorem backtrack (limit : Option UInt32) (canFallback : Bool) :
    (backtrack limit canFallback next).map (Item.mapLabels g) =
      Assembly.backtrack limit canFallback next := by
  have hcounted := h.local_eq (Nat.le_add_right next 1)
  cases limit <;> simp [Assembly.backtrack, countBacktrack, h.reserved, h.poll, hcounted]

end Keeps

end Assembly

/-- **A renaming does not change the routines.** All of their labels are reserved or made when they
are emitted. -/
theorem Assembler.mapLabels_items {g : Label → Label} {s : Section} (hs : s ∈ sections)
    {a : Assembler} (h : Keeps g a.labels.size) :
    (s.items a).map (Item.mapLabels g) = s.items a := by
  simp only [sections, List.mem_cons, List.not_mem_nil, or_false] at hs
  rcases hs with rfl | rfl | rfl | rfl | rfl | rfl | rfl | rfl | rfl
  · exact h.entry a.mode a.registers
  · exact h.success a.mode a.globalMode a.saved
  · exact h.exit a.globalMode
  · exact h.backtrack a.backtrackLimit a.canFallback
  · simp [failExit, h.reserved]
  · simp [Assembly.checkPreempt, leaveStub, h.reserved]
  · simp [Assembly.growStack, leaveStub, h.reserved]
  · simp [statusExit, h.reserved]
  · simp [statusExit, h.reserved]

end NativeMatcher
