import NativeMatcher.Assembly.Exec

/-!
# Executions piece by piece

A block that loops, or calls the host, cannot be walked through in one go. Its execution is put
together from pieces: one leads from an item to another one (`NativeMatcher.Assembly.GoesTo`), and
the last one leaves the block (`NativeMatcher.Assembly.Exits`). How many items are executed on the
way is left open, so pieces compose, and a loop is an induction on how often it is still to be gone
through. There is one rule for each kind of item: a row of instructions, a widening load, a label, a
branch that is taken and one that is not.

Characters are taken in by widening loads. Which bytes these may read is part of what is said of a
piece: every load that is executed on the way reads allowed bytes only
(`NativeMatcher.Assembly.TakesIn`).

Past a call the execution goes on with whatever machine the host returns
(`NativeMatcher.Assembly.Leads`).
-/

namespace NativeMatcher.Assembly

open X64

/-- Whether an instruction takes in characters. -/
def isTakeIn : Instr → Bool
  | .movExtend .. => true
  | _ => false

/-- Whether an instruction goes on with the next one and takes in no characters. -/
def isPlain (i : Instr) : Bool := !transfers i && !isTakeIn i

/-- A row of items stands at an index. -/
def Stands (items : List Item) (i : Nat) (row : List Item) : Prop := row <+: items.drop i

/-- If the item at an index is a widening load, it reads allowed bytes. -/
def TakesIn (allowed : UInt64 → Prop) (items : List Item) (i : Nat) (m : Machine) : Prop :=
  ∀ ext dst x, items[i]? = some (.instr (.movExtend ext dst (.mem x))) →
    ∀ b < ext.bytes, allowed (m.address x + UInt64.ofNat b)

/-- An execution that comes to item `i` with machine `m` comes to item `j` with machine `m'`, and
the loads on the way read allowed bytes. -/
def GoesTo (offset : Label → UInt32) (allowed : UInt64 → Prop) (items : List Item) (i : Nat)
    (m : Machine) (j : Nat) (m' : Machine) : Prop :=
  ∃ n, (∀ fuel, execute offset items (fuel + n) i m = execute offset items fuel j m') ∧
    ∀ n' < n, ∀ j' m₁, execute offset items n' i m = .running j' m₁ → TakesIn allowed items j' m₁

/-- An execution from item `i` on leaves the items, and its loads read allowed bytes. -/
def Exits (offset : Label → UInt32) (allowed : UInt64 → Prop) (items : List Item) (i : Nat)
    (m : Machine) (e : Exit) : Prop :=
  (∃ fuel, execute offset items fuel i m = e) ∧
    ∀ n j m', execute offset items n i m = .running j m' → TakesIn allowed items j m'

/-- Every execution from item `i` on ends as described. It may call the host where `calls` allows
it, and goes on with any machine that the host `returns`. -/
inductive Leads (offset : Label → UInt32) (allowed : UInt64 → Prop) (items : List Item)
    (calls : Instr → Machine → Prop) (returns : Machine → Machine → Prop) (post : Exit → Prop) :
    Nat → Machine → Prop
  /-- It leaves the items. -/
  | exit {i : Nat} {m : Machine} {e : Exit} (h : Exits offset allowed items i m e)
      (hpost : post e) : Leads offset allowed items calls returns post i m
  /-- It calls the host. -/
  | call {i j : Nat} {m m₁ : Machine} {x : Instr}
      (h : Exits offset allowed items i m (.transfer x j m₁)) (hcalls : calls x m₁)
      (hnext : ∀ m₂, returns m₁ m₂ →
        Leads offset allowed items calls returns post (j + 1) m₂) :
      Leads offset allowed items calls returns post i m

variable {offset : Label → UInt32} {allowed : UInt64 → Prop} {items : List Item} {i j k : Nat}
  {m m' m'' : Machine}

namespace Stands

variable {row row' : List Item}

theorem self (items : List Item) : Stands items 0 items := List.prefix_refl items

theorem left (h : Stands items i (row ++ row')) : Stands items i row :=
  (List.prefix_append row row').trans h

theorem right (h : Stands items i (row ++ row')) : Stands items (i + row.length) row' := by
  obtain ⟨rest, hrest⟩ := h
  refine ⟨rest, ?_⟩
  rw [← List.drop_drop, ← hrest, List.append_assoc, List.drop_left]

theorem tail {item : Item} (h : Stands items i (item :: row)) : Stands items (i + 1) row := by
  have h : Stands items i ([item] ++ row) := h
  exact h.right

theorem head {item : Item} (h : Stands items i (item :: row)) : items[i]? = some item := by
  obtain ⟨rest, hrest⟩ := h
  have hget := congrArg (·[0]?) hrest
  simpa using hget.symm

end Stands

theorem takesIn_of_ne (h : ∀ ext dst x, items[i]? ≠ some (.instr (.movExtend ext dst (.mem x)))) :
    TakesIn allowed items i m :=
  fun ext dst x hget => absurd hget (h ext dst x)

namespace GoesTo

theorem refl (i : Nat) (m : Machine) : GoesTo offset allowed items i m i m :=
  ⟨0, fun _ => rfl, fun n' hn' => absurd hn' (Nat.not_lt_zero n')⟩

/-- Pieces of an execution follow one another. How many steps each takes is left open, so that fuel
is taken from the front. -/
theorem trans (h : GoesTo offset allowed items i m j m')
    (h' : GoesTo offset allowed items j m' k m'') : GoesTo offset allowed items i m k m'' := by
  obtain ⟨n, hn, htakes⟩ := h
  obtain ⟨n', hn', htakes'⟩ := h'
  refine ⟨n' + n, fun fuel => ?_, fun l hl => ?_⟩
  · rw [← Nat.add_assoc, hn, hn']
  · rcases Nat.lt_or_ge l n with hlt | hge
    · exact htakes l hlt
    · obtain ⟨q, rfl⟩ := Nat.exists_eq_add_of_le' hge
      rw [hn]
      exact htakes' q (by omega)

/-- A piece that ends at an item followed by one that leaves, leaves. -/
theorem exits {e : Exit} (h : GoesTo offset allowed items i m j m')
    (h' : Exits offset allowed items j m' e) : Exits offset allowed items i m e := by
  obtain ⟨n, hn, htakes⟩ := h
  obtain ⟨⟨fuel, hfuel⟩, htakes'⟩ := h'
  refine ⟨⟨fuel + n, (hn fuel).trans hfuel⟩, fun l => ?_⟩
  rcases Nat.lt_or_ge l n with hlt | hge
  · exact htakes l hlt
  · obtain ⟨q, rfl⟩ := Nat.exists_eq_add_of_le' hge
    rw [hn]
    exact htakes' q

/-- A piece in front of an execution that calls the host leads to the same calls and the same
end. -/
theorem leads {calls : Instr → Machine → Prop} {returns : Machine → Machine → Prop}
    {post : Exit → Prop} (h : GoesTo offset allowed items i m j m')
    (h' : Leads offset allowed items calls returns post j m') :
    Leads offset allowed items calls returns post i m := by
  cases h' with
  | exit hexit hpost => exact .exit (h.exits hexit) hpost
  | call hexit hcalls hnext => exact .call (h.exits hexit) hcalls hnext

/-- One item. -/
theorem item (hstep : ∀ fuel, execute offset items (fuel + 1) i m = execute offset items fuel j m')
    (htakes : TakesIn allowed items i m) : GoesTo offset allowed items i m j m' := by
  refine ⟨1, hstep, fun n' hn' j' m₁ hrun => ?_⟩
  obtain rfl := Nat.lt_one_iff.mp hn'
  obtain ⟨rfl, rfl⟩ := Exit.running.inj hrun
  exact htakes

/-- An instruction that goes on with the next one. -/
theorem instr {x : Instr} (hget : items[i]? = some (.instr x)) (hx : transfers x = false)
    (htakes : TakesIn allowed items i m) : GoesTo offset allowed items i m (i + 1) (after x m) := by
  refine item (fun fuel => ?_) htakes
  rw [execute_succ, hget]
  simp only [hx, Bool.false_eq_true, if_false]

theorem plain {x : Instr} (hget : items[i]? = some (.instr x)) (hx : isPlain x = true) :
    GoesTo offset allowed items i m (i + 1) (after x m) := by
  obtain ⟨hgoes, htakes⟩ := Bool.and_eq_true_iff.mp hx
  refine instr hget (by simpa using hgoes) (takesIn_of_ne fun ext dst src hcon => ?_)
  obtain rfl := Item.instr.inj (Option.some.inj (hget.symm.trans hcon))
  cases htakes

/-- A row of instructions is executed to its end. -/
theorem instrs {is : List Instr} (hrow : Stands items i (is.map .instr))
    (his : is.all isPlain = true) :
    GoesTo offset allowed items i m (i + is.length) (afterAll is m) := by
  induction is generalizing i m with
  | nil => exact refl i m
  | cons x is ih =>
    rw [List.all_cons, Bool.and_eq_true] at his
    have h := ih (m := after x m) hrow.tail his.2
    rw [Nat.add_right_comm, Nat.add_assoc] at h
    exact (plain hrow.head his.1).trans h

/-- A widening load of allowed bytes. -/
theorem takeIn {ext : Extend} {dst : Reg} {x : Mem}
    (hget : items[i]? = some (.instr (.movExtend ext dst (.mem x))))
    (hallowed : ∀ b < ext.bytes, allowed (m.address x + UInt64.ofNat b)) :
    GoesTo offset allowed items i m (i + 1) (after (.movExtend ext dst (.mem x)) m) := by
  refine instr hget rfl fun ext' dst' x' hget' => ?_
  cases hget.symm.trans hget'
  exact hallowed

/-- A declaration does nothing. -/
theorem declare (hget : items[i]? = some .declare) :
    GoesTo offset allowed items i m (i + 1) m := by
  refine item (fun fuel => ?_) (takesIn_of_ne (by simp [hget]))
  rw [execute_succ, hget]
  rfl

/-- Neither does a label. -/
theorem bind {l : Label} (hget : items[i]? = some (.bind l)) :
    GoesTo offset allowed items i m (i + 1) m := by
  refine item (fun fuel => ?_) (takesIn_of_ne (by simp [hget]))
  rw [execute_succ, hget]
  rfl

section Branch

variable {c : Cond} {l : Label} (hget : items[i]? = some (.branch (.jcc c) l))

include hget

/-- A branch that is not taken. -/
theorem skip (hc : c.holds m.flags = false) : GoesTo offset allowed items i m (i + 1) m := by
  refine item (fun fuel => ?_) (takesIn_of_ne (by simp [hget]))
  rw [execute_succ, hget]
  simp only [hc, Bool.false_eq_true, if_false]

/-- A branch that is taken to a label of the block. -/
theorem jump (hc : c.holds m.flags = true) (hl : items.findIdx? (Item.binds l) = some j) :
    GoesTo offset allowed items i m j m := by
  refine item (fun fuel => ?_) (takesIn_of_ne (by simp [hget]))
  rw [execute_succ, hget]
  simp only [hc, if_true, hl]

end Branch

end GoesTo

namespace Exits

/-- One item that leaves the block. -/
theorem item {e : Exit} (hstep : ∀ fuel, execute offset items (fuel + 1) i m = e)
    (he : ∀ j m', e ≠ .running j m') (htakes : TakesIn allowed items i m) :
    Exits offset allowed items i m e := by
  refine ⟨⟨1, hstep 0⟩, fun n j m' hrun => ?_⟩
  cases n with
  | zero =>
    obtain ⟨rfl, rfl⟩ := Exit.running.inj hrun
    exact htakes
  | succ n => exact absurd ((hstep n).symm.trans hrun) (he j m')

/-- Past the last item. -/
theorem past (hget : items[i]? = none) : Exits offset allowed items i m (.past m) := by
  refine item (fun fuel => ?_) (by simp) (takesIn_of_ne (by simp [hget]))
  rw [execute_succ, hget]

/-- By a branch that is taken to a label outside. -/
theorem jump {c : Cond} {l : Label} (hget : items[i]? = some (.branch (.jcc c) l))
    (hc : c.holds m.flags = true) (hl : items.findIdx? (Item.binds l) = none) :
    Exits offset allowed items i m (.jump l m) := by
  refine item (fun fuel => ?_) (by simp) (takesIn_of_ne (by simp [hget]))
  rw [execute_succ, hget]
  simp only [hc, if_true, hl]

/-- At an instruction that goes to an address. -/
theorem transfer {x : Instr} (hget : items[i]? = some (.instr x)) (hx : transfers x = true) :
    Exits offset allowed items i m (.transfer x i m) := by
  refine item (fun fuel => ?_) (by simp) (takesIn_of_ne fun ext dst src hcon => ?_)
  · rw [execute_succ, hget]
    simp only [hx, if_true]
  · obtain rfl := Item.instr.inj (Option.some.inj (hget.symm.trans hcon))
    cases hx

end Exits

end NativeMatcher.Assembly
