import NativeMatcher.Assembly.Exec
import NativeMatcher.Assembly.Item

/-!
# Walking through a block

The block of an opcode that neither calls nor loops has a simple shape: instructions and
conditional branches in a row, then perhaps one label of its own. A branch either leaves the
block or goes to that label, which is the end. So the block can be walked through from its
first item to its last, without counting steps and without looking up labels
(`NativeMatcher.Assembly.walk`), and the walk ends where an execution ends
(`NativeMatcher.Assembly.execute_eq_walk`).

What is said of a block is that it *ends* at a label under a condition and past its last item
otherwise (`NativeMatcher.Assembly.Exit.Ends`), with one rule for each kind of item.
-/

namespace NativeMatcher.Assembly

open X64

/-- Whether an item goes on with the next item or, as a conditional branch, elsewhere. -/
def Item.isStep : Item → Bool
  | .instr i => !transfers i
  | .branch (.jcc _) _ | .declare => true
  | _ => false

/-- Walks through the items of a block that ends with the label `done`, if it ends with one. -/
def walk (done : Option Label) : List Item → Machine → Exit
  | [], m => .past m
  | item :: rest, m =>
    match item with
    | .instr i => walk done rest (after i m)
    | .branch (.jcc c) l =>
      if c.holds m.flags then (if done = some l then .past m else .jump l m)
      else walk done rest m
    | _ => walk done rest m

/-- The label at the end of a block. -/
def closing (done : Option Label) : List Item := (done.map Item.bind).toList

/-! ### Executions are walks -/

section Execution

variable {done : Option Label} {body : List Item}

/-- The only label that a block binds is the one at its end. -/
theorem findIdx?_append_closing (h : ∀ i ∈ body, i.isStep = true) (l : Label) :
    (body ++ closing done).findIdx? (Item.binds l) =
      if done = some l then some body.length else none := by
  have hbody : body.findIdx? (Item.binds l) = none := by
    rw [List.findIdx?_eq_none_iff]
    intro i hi
    have hstep := h i hi
    cases i <;> first | rfl | cases hstep
  rw [List.findIdx?_append, hbody, Option.none_or]
  cases done with
  | none => rfl
  | some d =>
    by_cases hd : d = l
    · simp [closing, hd, Item.binds]
    · simp [closing, hd, Item.binds]

theorem execute_past (offset : Label → UInt32) (items : List Item) (n : Nat) (m : Machine) :
    execute offset items (n + 1) items.length m = .past m := by
  rw [execute_succ, List.getElem?_eq_none (Nat.le_refl _)]

/-- The label at the end of a block does nothing. -/
theorem execute_closing (offset : Label → UInt32) (n : Nat) (m : Machine) :
    execute offset (body ++ closing done) (n + 2) body.length m = .past m := by
  cases done with
  | none => simpa [closing] using execute_past offset body (n + 1) m
  | some d =>
    have hget : (body ++ [Item.bind d])[body.length]? = some (.bind d) := by simp
    show execute offset (body ++ [Item.bind d]) (n + 2) body.length m = .past m
    rw [execute_succ, hget]
    simpa [Item.effect] using execute_past offset (body ++ [Item.bind d]) n m

/-- **An execution of a block is a walk through it.** A walk needs no index, so blocks without a
loop are followed by recursion on the list of items. -/
theorem execute_eq_walk (offset : Label → UInt32) (h : ∀ i ∈ body, i.isStep = true)
    (m : Machine) :
    execute offset (body ++ closing done) (body.length + 2) 0 m = walk done body m := by
  -- From any item on, what is left of the block is walked through.
  suffices hfrom : ∀ (pre rest : List Item) (m : Machine), body = pre ++ rest →
      execute offset (body ++ closing done) (rest.length + 2) pre.length m = walk done rest m from
    hfrom [] body m rfl
  intro pre rest
  induction rest generalizing pre with
  | nil =>
    intro m hbody
    obtain rfl : body = pre := by simpa using hbody
    exact execute_closing offset 0 m
  | cons item rest ih =>
    intro m hbody
    have hget : (body ++ closing done)[pre.length]? = some item := by simp [hbody]
    have hstep : item.isStep = true := h item (by simp [hbody])
    have hnext (m' : Machine) : execute offset (body ++ closing done) (rest.length + 2)
        (pre.length + 1) m' = walk done rest m' := by
      simpa using ih (pre ++ [item]) m' (by simpa using hbody)
    rw [List.length_cons, Nat.add_right_comm, execute_succ, hget]
    cases item with
    | instr i =>
      have hi : transfers i = false := by simpa [Item.isStep] using hstep
      simp only [hi, Bool.false_eq_true, if_false]
      exact hnext _
    | branch b l =>
      cases b with
      | jcc c =>
        simp only [walk, findIdx?_append_closing h]
        split
        · -- The branch leaves the block unless it goes to the label at its end.
          by_cases hd : done = some l
          · rw [if_pos hd, if_pos hd]
            exact execute_closing offset rest.length m
          · rw [if_neg hd, if_neg hd]
        · exact hnext m
      | jmp => cases hstep
      | call => cases hstep
    | declare => exact hnext m
    | bind l => cases hstep
    | stub l => cases hstep
    | storeTarget l => cases hstep

/-- Items with the shape of a block are executed as a walk. -/
theorem exists_execute_eq_walk (offset : Label → UInt32) {items : List Item} (m : Machine)
    (hitems : items = body ++ closing done) (hsteps : body.all Item.isStep = true) :
    ∃ fuel, execute offset items fuel 0 m = walk done body m := by
  obtain rfl := hitems
  exact ⟨_, execute_eq_walk offset (List.all_eq_true.mp hsteps) m⟩

end Execution

/-! ### How a block ends -/

/-- Control leaves for `l` if `taken`, and past the last item otherwise; either way the
machine is as described. -/
def Exit.Ends (e : Exit) (taken : Bool) (l : Label) (post : Machine → Prop) : Prop :=
  ∃ m, post m ∧ e = if taken then .jump l m else .past m

section Ends

variable {done : Option Label} {rest : List Item} {m : Machine} {taken p : Bool} {l : Label}
  {post : Machine → Prop} {c : Cond}

/-- An execution ends as the walk does. -/
theorem Exit.Ends.execute {items body : List Item} (h : (walk done body m).Ends taken l post)
    (offset : Label → UInt32) (hitems : items = body ++ closing done)
    (hsteps : body.all Item.isStep = true) :
    ∃ fuel, (execute offset items fuel 0 m).Ends taken l post := by
  obtain ⟨fuel, hexecute⟩ := exists_execute_eq_walk offset m hitems hsteps
  exact ⟨fuel, hexecute ▸ h⟩

theorem walk_instr (i : Instr) : walk done (.instr i :: rest) m = walk done rest (after i m) := rfl

theorem walk_declare : walk done (.declare :: rest) m = walk done rest m := rfl

theorem walk_instrs (is : List Instr) :
    walk done (is.map .instr ++ rest) m = walk done rest (afterAll is m) := by
  induction is generalizing m with
  | nil => rfl
  | cons i is ih => exact ih

theorem ends_past (h : post m) : (Exit.past m).Ends false l post := ⟨m, h, rfl⟩

/-- A branch that is not taken does nothing. -/
theorem walk_branch_of_false (hc : c.holds m.flags = false) :
    walk done (.branch (.jcc c) l :: rest) m = walk done rest m := by
  simp only [walk, hc, Bool.false_eq_true, if_false]

/-- A branch to the end of the block is the end. -/
theorem walk_skip_of_true {d : Label} (hc : c.holds m.flags = true) :
    walk (some d) (.branch (.jcc c) d :: rest) m = .past m := by
  simp only [walk, hc, if_true]

/-- A branch out of the block is taken if its condition holds; if not, the rest decides. -/
theorem ends_branch (hd : done ≠ some l) (hc : c.holds m.flags = p) (hm : post m)
    (hrest : p = false → (walk done rest m).Ends taken l post) :
    (walk done (.branch (.jcc c) l :: rest) m).Ends (p || taken) l post := by
  cases p with
  | true =>
    simp only [walk, hc, if_true, if_neg hd]
    exact ⟨m, hm, rfl⟩
  | false =>
    rw [walk_branch_of_false hc]
    exact hrest rfl

/-- A branch to the end of the block keeps the rest from being taken. -/
theorem ends_skip {d : Label} (hc : c.holds m.flags = p) (hm : post m)
    (hrest : p = false → (walk (some d) rest m).Ends taken l post) :
    (walk (some d) (.branch (.jcc c) d :: rest) m).Ends (!p && taken) l post := by
  cases p with
  | true =>
    rw [walk_skip_of_true hc]
    exact ends_past hm
  | false =>
    rw [walk_branch_of_false hc]
    exact hrest rfl

/-- The last branch of a block decides. -/
theorem ends_last (hd : done ≠ some l) (hc : c.holds m.flags = p) (hm : post m) :
    (walk done [.branch (.jcc c) l] m).Ends p l post := by
  have hnil : (walk done [] m).Ends false l post := ends_past hm
  rw [← Bool.or_false p]
  exact ends_branch hd hc hm fun _ => hnil

end Ends

end NativeMatcher.Assembly
