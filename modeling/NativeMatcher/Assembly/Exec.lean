import NativeMatcher.Assembly.Item
import NativeMatcher.X64.Machine

/-!
# Executing assembly

What a list of items does to the processor, before its labels have places. Control is
an index into the list. A branch to a label that the list binds goes to that item; one
to any other label leaves the list, and so do calls and the instructions that go to an
address they compute, since what they do next is not in the list
(`NativeMatcher.Assembly.Exit`).

The list may loop, so an execution is given a number of items to execute.
-/

namespace NativeMatcher.Assembly

open X64

/-- How control leaves a list of items. -/
inductive Exit where
  /-- Past the last item. -/
  | past (m : Machine)
  /-- By a branch to a label that the list does not bind. -/
  | jump (l : Label) (m : Machine)
  /-- By the call of a stub at an index. -/
  | call (l : Label) (index : Nat) (m : Machine)
  /-- At an instruction that goes to an address. -/
  | transfer (i : Instr) (index : Nat) (m : Machine)
  /-- Not yet: the execution stopped before the item at an index. -/
  | running (index : Nat) (m : Machine)

/-- Whether an instruction chooses where execution goes on. -/
def transfers : Instr → Bool
  | .branch .. | .jmpRm _ | .callRm _ | .ret => true
  | _ => false

/-- Whether an item gives a label its place. -/
def Item.binds (l : Label) : Item → Bool
  | .bind k | .stub k => k = l
  | _ => false

/-- The machine after an instruction that does not choose where execution goes on. -/
def after (i : Instr) (m : Machine) : Machine := (i.exec 0 m).1

/-- The machine after a row of such instructions. -/
def afterAll (is : List Instr) (m : Machine) : Machine := is.foldl (fun m i => after i m) m

/-- What an item does when it is not a branch: `offset` gives the code offsets of labels. -/
def Item.effect (offset : Label → UInt32) (m : Machine) : Item → Machine
  | .instr i => after i m
  | .stub _ => after (.aluStore .sub .w64 .rsp 0 codeBase) m
  | .storeTarget l => after (.storeImm .w32 backtrackSp 0 (offset l).toInt32) m
  | .branch .. | .declare | .bind _ => m

/-- Executes up to `fuel` items, from the one at `index` on. -/
def execute (offset : Label → UInt32) (items : List Item) :
    (fuel : Nat) → (index : Nat) → Machine → Exit
  | 0, index, m => .running index m
  | n + 1, index, m =>
    match items[index]? with
    | none => .past m
    | some (.branch .call l) => .call l index m
    | some (.branch b l) =>
      let taken := match b with
        | .jcc c => c.holds m.flags
        | _ => true
      if taken then
        match items.findIdx? (Item.binds l) with
        | some i => execute offset items n i m
        | none => .jump l m
      else execute offset items n (index + 1) m
    | some (.instr i) =>
      if transfers i then .transfer i index m
      else execute offset items n (index + 1) (after i m)
    | some item => execute offset items n (index + 1) (item.effect offset m)

/-! ### Lemmas -/

/-- The item that is executed decides where control goes next. -/
theorem execute_succ (offset : Label → UInt32) (items : List Item) (n index : Nat) (m : Machine) :
    execute offset items (n + 1) index m =
      match items[index]? with
      | none => .past m
      | some (.branch .call l) => .call l index m
      | some (.branch b l) =>
        let taken := match b with
          | .jcc c => c.holds m.flags
          | _ => true
        if taken then
          match items.findIdx? (Item.binds l) with
          | some i => execute offset items n i m
          | none => .jump l m
        else execute offset items n (index + 1) m
      | some (.instr i) =>
        if transfers i then .transfer i index m
        else execute offset items n (index + 1) (after i m)
      | some item => execute offset items n (index + 1) (item.effect offset m) := rfl

@[simp] theorem afterAll_nil (m : Machine) : afterAll [] m = m := rfl

@[simp] theorem afterAll_cons (i : Instr) (is : List Instr) (m : Machine) :
    afterAll (i :: is) m = afterAll is (after i m) := rfl

/-- A row of instructions is executed piece by piece. -/
theorem afterAll_append (is js : List Instr) (m : Machine) :
    afterAll (is ++ js) m = afterAll js (afterAll is m) := by
  simp [afterAll, List.foldl_append]

end NativeMatcher.Assembly
