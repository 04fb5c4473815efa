import NativeMatcher.Proofs.Growth

/-!
# The discipline of the backtrack stack

A program is trusted with its stack pointer: it may pop what it did not push, set the pointer
to any word, and push without looking at the limit. What keeps it inside its memory is a
*discipline* (`NativeMatcher.Task.Orderly`), stated of the threads that a run passes. It pops
live entries only, it sets the pointer back only to discard entries, and between two limit
checks it makes no more pushes without one than the check keeps free.

Under the discipline every thread that a run passes is *tidy*
(`NativeMatcher.Thread.Tidy`): its pointer is at a whole number of entries, and what is left
of the memory is enough for the pushes that need not look. So no push and no pop goes astray,
and the one thing a stack can do to a run is to be full
(`NativeMatcher.Thread.push_of_tidy`). That depends on the number of live entries and on the
largest size the memory can have, not on its size at the time: a stack that can still grow is
never too small, since doubling it more than makes room.
-/

namespace NativeMatcher

open Backtrack

/-! ### What is asked of a run -/

/-- Whether an opcode is trusted to keep the discipline. -/
def Opcode.isTrusted : Opcode → Bool
  | .popPosition | .popRegister _ | .readStackPointer _ | .pushRegister _ false => true
  | _ => false

namespace Task

/-- What is asked of a thread at the opcode it stands at, after `unchecked` pushes since the
last limit check: it pops a live entry, discards entries, or has a push left. -/
def Orderly (k : Task) (unchecked : Nat) (t : Thread) : Prop :=
  match k.opcode? t with
  | some .popPosition | some (.popRegister _) => 4 ≤ t.depth
  | some (.readStackPointer reg) =>
    ∃ live : Nat, -(t.reg reg).toInt = 4 * (live : Int) ∧ 4 * (live : Int) ≤ t.depth
  | some (.pushRegister _ false) => unchecked < Assembler.stackLimitSlack
  | _ => True

/-- A program without such opcodes keeps the discipline on its own. -/
theorem orderly_of_no_trust {k : Task} {unchecked : Nat} {t : Thread}
    (h : ∀ op ∈ k.matcher.program.opcodes, op.isTrusted = false) : k.Orderly unchecked t := by
  unfold Orderly
  cases hop : k.opcode? t with
  | none => trivial
  | some op =>
    have hnot := h op (Array.mem_of_getElem? hop)
    cases op with
    | popPosition | popRegister | readStackPointer => cases hnot
    | pushRegister reg checked =>
      cases checked with
      | false => cases hnot
      | true => trivial
    | _ => trivial

end Task

namespace Thread

/-- The live entries of a thread's stack. -/
def entries (t : Thread) : Nat := t.depth.toNat / 4

/-- A thread with the discipline kept so far, after `unchecked` pushes since the last limit
check. The memory can still be doubled up to `cap` bytes, and no further. -/
structure Tidy (cap : Nat) (t : Thread) (unchecked : Nat) : Prop where
  /-- The limit check keeps some entries free. -/
  slack : t.stack.slack = Assembler.stackLimitSlack
  /-- The memory is larger than that. -/
  large : 4 * Assembler.stackLimitSlack < t.stack.size
  /-- Some number of doublings leads to the largest size. -/
  reaches : ∃ n, t.stack.size * 2 ^ n = cap
  /-- That is within the maximum. -/
  cap_le : cap ≤ t.stack.maxBytes
  /-- One more doubling is not. -/
  lt_cap : t.stack.maxBytes < cap * 2
  /-- Sizes are machine words. -/
  word : t.stack.maxBytes < 18446744073709551616
  /-- The pointer is at a whole number of entries. -/
  depth : t.depth = 4 * (t.entries : Int)
  /-- No more pushes went without a check than the check keeps free. -/
  few : unchecked ≤ Assembler.stackLimitSlack
  /-- What is left is enough for those that may still. -/
  room : 4 * t.entries + 4 * Assembler.stackLimitSlack < t.stack.size + 4 * unchecked

namespace Tidy

variable {cap unchecked : Nat} {t : Thread}

theorem size_le_cap (h : t.Tidy cap unchecked) : t.stack.size ≤ cap := by
  obtain ⟨n, hn⟩ := h.reaches
  rw [← hn]
  exact Nat.le_mul_of_pos_right _ (Nat.two_pow_pos n)

/-- A memory below its largest size can be doubled. -/
theorem double_le_cap (h : t.Tidy cap unchecked) (hlt : t.stack.size < cap) :
    t.stack.size * 2 ≤ cap ∧ ∃ n, t.stack.size * 2 * 2 ^ n = cap := by
  obtain ⟨n, hn⟩ := h.reaches
  cases n with
  | zero =>
    rw [Nat.pow_zero, Nat.mul_one] at hn
    omega
  | succ n =>
    have hsplit : t.stack.size * 2 * 2 ^ n = cap := by
      rw [← hn, Nat.pow_succ, Nat.mul_assoc, Nat.mul_comm 2]
    refine ⟨?_, n, hsplit⟩
    rw [← hsplit]
    exact Nat.le_mul_of_pos_right _ (Nat.two_pow_pos n)

/-- Tidiness is a matter of the memory and the pointer. -/
theorem of_stack_eq {u : Thread} {unchecked' : Nat} (h : t.Tidy cap unchecked)
    (hstack : u.stack = t.stack) (hdepth : u.depth = 4 * (u.entries : Int))
    (hfew : unchecked' ≤ Assembler.stackLimitSlack)
    (hroom : 4 * u.entries + 4 * Assembler.stackLimitSlack < t.stack.size + 4 * unchecked') :
    u.Tidy cap unchecked' := by
  refine ⟨?_, ?_, ?_, ?_, ?_, ?_, hdepth, hfew, ?_⟩
  · rw [hstack]
    exact h.slack
  · rw [hstack]
    exact h.large
  · rw [hstack]
    exact h.reaches
  · rw [hstack]
    exact h.cap_le
  · rw [hstack]
    exact h.lt_cap
  · rw [hstack]
    exact h.word
  · rw [hstack]
    exact hroom

/-- Discarding entries keeps a thread tidy. -/
theorem of_entries_le {u : Thread} (h : t.Tidy cap unchecked) (live : Nat)
    (hstack : u.stack = t.stack) (hdepth : u.depth = 4 * (live : Int)) (hle : live ≤ t.entries) :
    u.Tidy cap unchecked := by
  have hlive : u.entries = live := by
    simp only [entries, hdepth]
    omega
  have := h.room
  refine h.of_stack_eq hstack ?_ h.few ?_
  · rw [hlive]
    exact hdepth
  · rw [hlive]
    omega

end Tidy

/-! ### Pushing -/

/-- A thread after a push: an entry more, in a memory that may have doubled. -/
structure Pushed (t : Thread) (e : UInt32) (checked : Bool) (t' : Thread) : Prop where
  /-- Nothing else changed. -/
  eq : t' = { t with
    pc := t.pc + 1, depth := t.depth + 4, stack := t'.stack, growths := t'.growths }
  /-- The live entries, with the new one. -/
  cell : ∀ i ≤ t.entries, t'.stack.cell i = if i = t.entries then e else t.stack.cell i
  /-- The entries kept free. -/
  slack : t'.stack.slack = t.stack.slack
  /-- The maximum. -/
  maxBytes : t'.stack.maxBytes = t.stack.maxBytes
  /-- A checked push that leaves too little doubles the memory. -/
  size : t'.stack.size =
    if checked = true ∧ t.stack.size ≤ 4 * (t.entries + 1) + 4 * Assembler.stackLimitSlack then
      t.stack.size * 2
    else t.stack.size

variable {cap unchecked : Nat} {t : Thread}

/-- There is room for one more entry. -/
theorem Tidy.write_eq (h : t.Tidy cap unchecked) (e : UInt32) :
    ∃ stack, t.stack.write (t.depth + 4) e = some stack ∧
      ∀ i, stack.cell i = if i = t.entries then e else t.stack.cell i := by
  have hdepth : t.depth + 4 = ((4 * (t.entries + 1) : Nat) : Int) := by
    have := h.depth
    omega
  have hsize : t.stack.size = t.stack.capacity * 4 := rfl
  have hinside : t.stack.inside ((4 * (t.entries + 1) : Nat) : Int) = true := by
    have hroom := h.room
    have hfew := h.few
    simp only [Stack.inside, Bool.and_eq_true, decide_eq_true_eq]
    omega
  rw [hdepth]
  refine ⟨_, Stack.write_aligned t.stack e hinside, fun i => ?_⟩
  exact Stack.cell_write_aligned (Stack.write_aligned t.stack e hinside)

section Written

variable {e : UInt32} {stack : Stack} (hwrite : t.stack.write (t.depth + 4) e = some stack)

include hwrite

/-- The limit check that follows the write, in live entries. -/
theorem Tidy.needsGrowth_iff (h : t.Tidy cap unchecked) :
    stack.needsGrowth (t.depth + 4) = true ↔
      t.stack.size ≤ 4 * (t.entries + 1) + 4 * Assembler.stackLimitSlack := by
  have hdepth := h.depth
  simp only [Stack.needsGrowth, Stack.limit, decide_eq_true_eq, Stack.size_write hwrite,
    (Stack.shape_write hwrite).2.2, h.slack]
  omega

/-- A memory below its largest size grows, and the entry stays. -/
theorem Tidy.grow_of_lt (h : t.Tidy cap unchecked) (hlt : t.stack.size < cap) :
    stack.grow (t.depth + 4) = some ({ stack with
      capacity := stack.capacity * 2
      cells := stack.cells.extract 0 (t.entries + 1) }, t.depth + 4) := by
  obtain ⟨hdouble, -⟩ := h.double_le_cap hlt
  have hcap := h.cap_le
  have hword := h.word
  have hdepth := h.depth
  have hroom := h.room
  have hfew := h.few
  have hfour : t.stack.size = t.stack.capacity * 4 := rfl
  have hlive : (t.depth + 4).toNat / 4 = t.entries + 1 := by omega
  have hback : (((t.entries + 1) * 4 : Nat) : Int) = t.depth + 4 := by omega
  simp only [Stack.grow, hlive, hback]
  rw [if_pos (by rw [Stack.size_write hwrite, (Stack.shape_write hwrite).2.1]; omega)]

/-- A memory of its largest size does not grow. -/
theorem Tidy.grow_of_le (h : t.Tidy cap unchecked) (hle : cap ≤ t.stack.size) :
    stack.grow (t.depth + 4) = none := by
  have hmax := h.lt_cap
  simp only [Stack.grow]
  rw [if_neg (by rw [Stack.size_write hwrite, (Stack.shape_write hwrite).2.1]; omega)]

end Written

/-- A push that finds room enough is made in the memory there is. -/
theorem Tidy.pushed_of_room (h : t.Tidy cap unchecked) (e : UInt32) {checked : Bool}
    (hroom : ¬(checked = true ∧
      t.stack.size ≤ 4 * (t.entries + 1) + 4 * Assembler.stackLimitSlack)) :
    ∃ t', t.push e checked = .next t' ∧ t.Pushed e checked t' := by
  obtain ⟨stack, hwrite, hcells⟩ := h.write_eq e
  obtain ⟨-, hmax, hslack⟩ := Stack.shape_write hwrite
  have hcheck : (checked && stack.needsGrowth (t.depth + 4)) = false := by
    rw [Bool.eq_false_iff, ne_eq, Bool.and_eq_true, h.needsGrowth_iff hwrite]
    exact hroom
  refine ⟨{ t with stack := stack, depth := t.depth + 4, pc := t.pc + 1 }, ?_, rfl,
    fun i _ => hcells i, hslack, hmax, ?_⟩
  · simp only [push, hwrite, hcheck, Bool.false_eq_true, if_false]
  · rw [if_neg hroom]
    exact Stack.size_write hwrite

/-- A checked push that finds too little doubles a memory that may grow. -/
theorem Tidy.pushed_of_grow (h : t.Tidy cap unchecked) (e : UInt32)
    (hfull : t.stack.size ≤ 4 * (t.entries + 1) + 4 * Assembler.stackLimitSlack)
    (hlt : t.stack.size < cap) : ∃ t', t.push e true = .next t' ∧ t.Pushed e true t' := by
  obtain ⟨stack, hwrite, hcells⟩ := h.write_eq e
  obtain ⟨-, hmax, hslack⟩ := Stack.shape_write hwrite
  have hgrow := h.grow_of_lt hwrite hlt
  have hdepth := h.depth
  refine ⟨{ t with
    stack := { stack with
      capacity := stack.capacity * 2
      cells := stack.cells.extract 0 (t.entries + 1) }
    depth := t.depth + 4, growths := t.growths + 1, pc := t.pc + 1 }, ?_, rfl, ?_, hslack,
    hmax, ?_⟩
  · simp only [push, hwrite, (h.needsGrowth_iff hwrite).mpr hfull, Bool.and_self, if_true, hgrow]
  · intro i hi
    rw [← hcells i]
    exact Stack.cell_grow hgrow (by omega)
  · rw [if_pos ⟨rfl, hfull⟩, Stack.size_grow hgrow, Stack.size_write hwrite]

/-- **What a push of a tidy thread does.** A checked push ends the run if the entry comes too
near to the largest size of the memory; every other push is made. -/
theorem push_of_tidy (h : t.Tidy cap unchecked) (e : UInt32) (checked : Bool) :
    if checked = true ∧ cap ≤ 4 * (t.entries + 1) + 4 * Assembler.stackLimitSlack then
      t.stack.size = cap ∧
        ∃ stack, t.push e checked = .done .exception { t with
          stack := stack, depth := t.depth + 4 } ∧ stack.size = t.stack.size
    else ∃ t', t.push e checked = .next t' ∧ t.Pushed e checked t' := by
  have hthirty : Assembler.stackLimitSlack = 32 := rfl
  have hfour : t.stack.size = t.stack.capacity * 4 := rfl
  have hroom := h.room
  have hfew := h.few
  have hlarge := h.large
  have hle := h.size_le_cap
  by_cases hfull : checked = true ∧
      t.stack.size ≤ 4 * (t.entries + 1) + 4 * Assembler.stackLimitSlack
  · obtain ⟨rfl, hfull⟩ := hfull
    rcases Nat.lt_or_ge t.stack.size cap with hlt | hge
    · -- The memory can be doubled, and the entry is then far from its end.
      obtain ⟨hdouble, -⟩ := h.double_le_cap hlt
      rw [if_neg (by omega)]
      exact h.pushed_of_grow e hfull hlt
    · -- It has its largest size already, and growing fails.
      obtain ⟨stack, hwrite, -⟩ := h.write_eq e
      rw [if_pos ⟨rfl, by omega⟩]
      refine ⟨Nat.le_antisymm hle hge, stack, ?_, Stack.size_write hwrite⟩
      simp only [push, hwrite, (h.needsGrowth_iff hwrite).mpr hfull, Bool.and_self, if_true,
        h.grow_of_le hwrite hge]
  · rw [if_neg fun hcap => hfull ⟨hcap.1, by omega⟩]
    exact h.pushed_of_room e hfull

/-- A push that is made leaves the thread tidy. With a limit check the stack has room for the
entries to come, by growing if need be; without one there is one entry less to spare. -/
theorem Pushed.tidy {t' : Thread} {e : UInt32} {checked : Bool} (hp : t.Pushed e checked t')
    (h : t.Tidy cap unchecked) (hu : checked = false → unchecked < Assembler.stackLimitSlack)
    (hcap : ¬(checked = true ∧ cap ≤ 4 * (t.entries + 1) + 4 * Assembler.stackLimitSlack)) :
    t'.Tidy cap (if checked = true then 0 else unchecked + 1) := by
  have hthirty : Assembler.stackLimitSlack = 32 := rfl
  have hdepth := h.depth
  have hdepth' : t'.depth = t.depth + 4 := by rw [hp.eq]
  have hlive : t'.entries = t.entries + 1 := by
    simp only [entries, hdepth'] at *
    omega
  have hroom := h.room
  have hfew := h.few
  have hlarge := h.large
  have hfour : t.stack.size = t.stack.capacity * 4 := rfl
  have hsize := hp.size
  refine ⟨hp.slack.trans h.slack, ?_, ?_, ?_, ?_, ?_, ?_, ?_, ?_⟩
  · split at hsize <;> omega
  · by_cases hgrow : checked = true ∧
        t.stack.size ≤ 4 * (t.entries + 1) + 4 * Assembler.stackLimitSlack
    · -- Had it the largest size, the push would not have been made.
      have hlt : t.stack.size < cap := by
        have hnot : ¬cap ≤ 4 * (t.entries + 1) + 4 * Assembler.stackLimitSlack :=
          fun hc => hcap ⟨hgrow.1, hc⟩
        omega
      rw [hsize, if_pos hgrow]
      exact (h.double_le_cap hlt).2
    · rw [hsize, if_neg hgrow]
      exact h.reaches
  · rw [hp.maxBytes]
    exact h.cap_le
  · rw [hp.maxBytes]
    exact h.lt_cap
  · rw [hp.maxBytes]
    exact h.word
  · omega
  · split
    · exact Nat.zero_le _
    · next hc => exact hu (Bool.not_eq_true _ ▸ hc)
  · cases checked with
    | false =>
      simp only [Bool.false_eq_true, false_and, if_false] at hsize ⊢
      omega
    | true =>
      simp only [true_and, if_true] at hsize ⊢
      split at hsize <;> omega

end Thread

/-! ### What opcodes do to the pointer -/

/-- Whether an opcode looks at the backtrack stack or moves its pointer. -/
def Opcode.usesStack : Opcode → Bool
  | .popPosition | .popRegister _ | .readStackPointer _ | .checkGreedyLoop _ | .pushBacktrack _
  | .pushPosition | .pushRegister _ _ => true
  | _ => false

/-- A move that leaves the pointer where it is. -/
def Move.KeepsDepth (m : Move) (t : Thread) : Prop :=
  match m with
  | .go c => c.depth = t.depth
  | .backtrack depth => depth = t.depth
  | .push _ _ => False
  | _ => True

/-- A move that keeps the discipline, after `unchecked` pushes since the last limit check. -/
def Move.Orderly (m : Move) (unchecked : Nat) (t : Thread) : Prop :=
  match m with
  | .go c => ∃ live ≤ t.entries, c.depth = 4 * (live : Int)
  | .backtrack depth => ∃ live ≤ t.entries, depth = 4 * (live : Int)
  | .push _ checked => checked = false → unchecked < Assembler.stackLimitSlack
  | _ => True

namespace Task

variable {k : Task} {t : Thread} {cap unchecked : Nat}

/-- A branch leaves the pointer alone; to no label it backtracks, from the depth that it found. -/
theorem keepsDepth_branchMove (dest : Target) : (k.branchMove dest t).KeepsDepth t := by
  cases dest with
  | none => rfl
  | some l =>
    simp only [branchMove]
    cases k.place? l with
    | none => trivial
    | some i => rfl

theorem keepsDepth_branchMoveIf (c : Bool) (dest : Target) :
    (k.branchMoveIf c dest t).KeepsDepth t := by
  cases c with
  | false => rfl
  | true => exact keepsDepth_branchMove dest

/-- So does a comparison, whichever way it goes. -/
theorem keepsDepth_comparisonMove (same : Option Bool) (dest : Target) (pos : Int64) :
    (k.comparisonMove same dest pos t).KeepsDepth t := by
  cases same with
  | none => trivial
  | some same =>
    cases same with
    | false => exact keepsDepth_branchMove dest
    | true => rfl

/-- Most opcodes have nothing to do with the pointer. They are dealt with here in one go, so that
later case analyses only name those that push, pop, or set the pointer. -/
theorem keepsDepth_opcodeMove {op : Opcode} (p : Peek) (h : op.usesStack = false) :
    (k.opcodeMove p op t).KeepsDepth t := by
  cases op with
  | onChar test dest => exact keepsDepth_branchMoveIf _ dest
  | onPlace test dest => exact keepsDepth_branchMoveIf _ dest
  | onRegister test dest => exact keepsDepth_branchMoveIf _ dest
  | checkNotBackReference reg backward dest =>
    simp only [opcodeMove, backReferenceMove]
    split
    · rfl
    · split
      · exact keepsDepth_branchMove dest
      · exact keepsDepth_comparisonMove _ dest _
  | checkNotBackReferenceIgnoreCase reg backward unicode dest =>
    simp only [opcodeMove, backReferenceIgnoreCaseMove]
    split
    · rfl
    · split
      · exact keepsDepth_branchMove dest
      · split
        · trivial
        · exact keepsDepth_comparisonMove _ dest _
  | goTo dest =>
    cases dest with
    | none => rfl
    | some l =>
      simp only [opcodeMove, goToMove]
      split
      · split
        · trivial
        · rfl
      · trivial
  | load offset dest checked count =>
    simp only [opcodeMove]
    split
    · exact keepsDepth_branchMove dest
    · unfold loadMove
      split
      · rfl
      · trivial
  | setPositionFromEnd count =>
    simp only [opcodeMove, positionFromEndMove]
    split
    · rfl
    · split
      · rfl
      · trivial
  | clearRegisters first last =>
    simp only [opcodeMove, foldl_setReg]
    rfl
  | bind | advance | advanceRegister | backtrack | readPosition | setRegister | writePosition
  | writeStackPointer => rfl
  | fail | succeed => trivial
  | popPosition | popRegister | readStackPointer | checkGreedyLoop | pushBacktrack
  | pushPosition | pushRegister => cases h

/-- A move that leaves the pointer where some of the entries are left is orderly. -/
theorem orderly_of_keepsDepth {m : Move} {u : Thread} {live : Nat} (hm : m.KeepsDepth u)
    (hdepth : u.depth = 4 * (live : Int)) (hle : live ≤ t.entries) : m.Orderly unchecked t := by
  cases m with
  | go c => exact ⟨live, hle, Eq.trans hm hdepth⟩
  | backtrack depth => exact ⟨live, hle, Eq.trans hm hdepth⟩
  | push e checked => exact hm.elim
  | poll pc => trivial
  | exit => trivial
  | succeed => trivial
  | stray => trivial

/-- A thread that sees an entry has one. -/
theorem entries_of_peek (h : t.Tidy cap unchecked) {e : UInt32} (hp : t.peek = .entry e) :
    1 ≤ t.entries := by
  have hpos := Thread.pos_of_peek hp
  have hdepth := h.depth
  omega

/-- A pop from a live entry gives back the entry and no more. -/
theorem orderly_popMove (h : t.Tidy cap unchecked) (f : Int64 → Thread → Thread)
    (hf : ∀ v u, (f v u).depth = u.depth) : (popMove t.peek t f).Orderly unchecked t := by
  cases hp : t.peek with
  | entry e =>
    have hlive := entries_of_peek h hp
    have hdepth := h.depth
    refine ⟨t.entries - 1, Nat.sub_le _ _, (hf _ _).trans ?_⟩
    change t.depth - 4 = _
    omega
  | empty => trivial
  | outside => trivial

/-- The test of a loop that made no progress drops the entry it compared with, and on an empty stack
it compares nothing. -/
theorem orderly_greedyMove (h : t.Tidy cap unchecked) (dest : Target) :
    (k.greedyMove t.peek dest t).Orderly unchecked t := by
  have hdepth := h.depth
  cases hp : t.peek with
  | entry e =>
    have hlive := entries_of_peek h hp
    have hless : t.depth - 4 = 4 * ((t.entries - 1 : Nat) : Int) := by omega
    simp only [greedyMove]
    split
    · exact orderly_of_keepsDepth (keepsDepth_branchMove dest) hless (Nat.sub_le _ _)
    · exact ⟨t.entries, Nat.le_refl _, hdepth⟩
  | empty => exact ⟨t.entries, Nat.le_refl _, hdepth⟩
  | outside => trivial

/-- **Under the discipline every move is orderly.** One case for each opcode that has to do with the
pointer; the others keep the depth. -/
theorem orderly_move (h : t.Tidy cap unchecked) (ho : k.Orderly unchecked t) :
    (k.move t).Orderly unchecked t := by
  unfold move
  cases hop : k.opcode? t with
  | none => trivial
  | some op =>
    have hdepth := h.depth
    simp only [Orderly, hop] at ho
    cases op with
    | popPosition => exact orderly_popMove h (fun v u => { u with pos := v }) fun _ _ => rfl
    | popRegister reg => exact orderly_popMove h (fun v u => u.setReg reg v) fun _ _ => rfl
    | readStackPointer reg =>
      obtain ⟨live, hlive, hle⟩ := ho
      exact ⟨live, by omega, hlive⟩
    | checkGreedyLoop dest => exact orderly_greedyMove h dest
    | pushBacktrack l =>
      simp only [opcodeMove, pushMove]
      split
      · trivial
      · split
        · trivial
        · exact fun hcon => by cases hcon
    | pushPosition => exact fun hcon => by cases hcon
    | pushRegister reg checked =>
      rintro rfl
      exact ho
    | _ => exact orderly_of_keepsDepth (keepsDepth_opcodeMove t.peek rfl) hdepth (Nat.le_refl _)

end Task

/-! ### What steps do to the memory -/

/-- An outcome that leaves the memory alone and does not report a full stack. -/
def Outcome.KeepsStack (o : Outcome) (t : Thread) : Prop :=
  o.Satisfies (fun u => u.stack = t.stack) fun s u => s ≠ .exception ∧ u.stack = t.stack

theorem Outcome.KeepsStack.andThen {o : Outcome} {f : Thread → Outcome} {t : Thread}
    (h : o.KeepsStack t) (hf : ∀ u, (f u).KeepsStack u) : (o.andThen f).KeepsStack t := by
  refine Satisfies.andThen h fun u hu => ?_
  refine (hf u).imp (fun v hv => hv.trans hu) fun s v hv => ?_
  exact ⟨hv.1, hv.2.trans hu⟩

theorem Outcome.KeepsStack.of_eq {o : Outcome} {t u : Thread} (h : o.KeepsStack u)
    (htu : u.stack = t.stack) : o.KeepsStack t :=
  h.imp (fun _ hv => hv.trans htu) fun _ _ hv => ⟨hv.1, hv.2.trans htu⟩

theorem Status.ofCount_ne_exception (n : Nat) : Status.ofCount n ≠ .exception := by
  unfold Status.ofCount
  split <;> exact fun h => by cases h

namespace Task

variable {k : Task} {t : Thread} {cap unchecked : Nat}

theorem keepsStack_exit (t : Thread) : (k.exit t).KeepsStack t := by
  unfold exit
  split
  · exact ⟨Status.ofCount_ne_exception _, rfl⟩
  · exact ⟨by decide, rfl⟩

/-- Counting a backtrack ends the run or lets it go on; the stack is the same. -/
theorem keepsStack_countBacktrack (t : Thread) : (k.countBacktrack t).KeepsStack t := by
  unfold countBacktrack
  split
  · exact rfl
  · simp only
    split
    · exact rfl
    · split
      · exact ⟨by decide, rfl⟩
      · exact (keepsStack_exit _).of_eq rfl

/-- Resuming reads the entry that was popped, and writes nothing. -/
theorem keepsStack_resume (t : Thread) : (k.resume t).KeepsStack t := by
  unfold resume
  split
  · exact keepsStack_exit t
  · split
    · trivial
    · split
      · trivial
      · exact rfl

theorem keepsStack_restart (t : Thread) : (k.restart t).KeepsStack t := by
  rcases k.restart_cases t with h | ⟨c, h⟩
  · rw [h]
    trivial
  · rw [h]
    exact rfl

/-- Reporting a match empties the stack by its pointer and leaves the memory. -/
theorem keepsStack_succeed (t : Thread) : (k.succeed t).KeepsStack t := by
  unfold succeed
  simp only
  split
  · split
    · exact (keepsStack_exit _).of_eq rfl
    · unfold startOver
      split
      · split
        · exact (keepsStack_exit _).of_eq rfl
        · split
          · trivial
          · exact (keepsStack_restart _).of_eq rfl
      · exact (keepsStack_restart _).of_eq rfl
  · refine ⟨?_, rfl⟩
    intro hcon
    cases hcon

/-- Nothing but a push touches the memory of a settled thread. -/
theorem keepsStack_act (hset : k.Settled t) {m : Move} (hm : ∀ e checked, m ≠ .push e checked) :
    (k.act m t).KeepsStack t := by
  cases m with
  | go c => exact rfl
  | poll pc =>
    simp only [act, poll_of_settled hset]
    exact rfl
  | backtrack depth =>
    have hd : k.Settled { t with depth := depth } := ⟨hset.limit, hset.room, hset.calm⟩
    simp only [act, backtrack, poll_of_settled hd]
    exact Outcome.KeepsStack.andThen ((keepsStack_countBacktrack _).of_eq rfl) keepsStack_resume
  | push e checked => exact absurd rfl (hm e checked)
  | exit => exact keepsStack_exit t
  | succeed => exact keepsStack_succeed t
  | stray => trivial

/-- **What a step of a tidy thread does to the memory.** A checked push too near to its largest
size ends the run; any other push is made; and no other step touches it. -/
theorem step_cases (h : t.Tidy cap unchecked) (hset : k.Settled t) :
    (∃ e t', k.move t = .push e true ∧
      cap ≤ 4 * (t.entries + 1) + 4 * Assembler.stackLimitSlack ∧
      k.step t = .done .exception t' ∧ t'.stack.size = cap) ∨
    (∃ e checked t', k.move t = .push e checked ∧
      ¬(checked = true ∧ cap ≤ 4 * (t.entries + 1) + 4 * Assembler.stackLimitSlack) ∧
      k.step t = .next t' ∧ t.Pushed e checked t') ∨
    (∀ e checked, k.move t ≠ .push e checked) ∧ (k.step t).KeepsStack t := by
  rw [step_eq_act]
  by_cases hpush : ∃ e checked, k.move t = .push e checked
  · obtain ⟨e, checked, hm⟩ := hpush
    have hp := Thread.push_of_tidy h e checked
    rw [hm]
    split at hp
    · next hfull =>
      obtain ⟨hcap, stack, hdone, hsize⟩ := hp
      obtain ⟨rfl, hnear⟩ := hfull
      exact Or.inl ⟨e, _, rfl, hnear, hdone, hsize.trans hcap⟩
    · next hroom =>
      obtain ⟨t', hnext, hpushed⟩ := hp
      exact Or.inr (Or.inl ⟨e, checked, t', rfl, hroom, hnext, hpushed⟩)
  · have hnot : ∀ e checked, k.move t ≠ .push e checked :=
      fun e checked hm => hpush ⟨e, checked, hm⟩
    exact Or.inr (Or.inr ⟨hnot, keepsStack_act hset hnot⟩)

/-- A report that goes on starts over with an empty stack. -/
theorem depth_of_succeed {t' : Thread} (h : k.succeed t = .next t') : t'.depth = 0 := by
  have hrestart : ∀ u : Thread, k.restart u = .next t' → t'.depth = u.depth := by
    intro u hu
    rcases k.restart_cases u with h | ⟨c, h⟩
    · rw [h] at hu
      cases hu
    · rw [h] at hu
      obtain rfl := Outcome.next.inj hu
      rfl
  unfold succeed at h
  simp only at h
  split at h
  · split at h
    · exact absurd h (exit_ne_next _ _)
    · unfold startOver at h
      split at h
      · split at h
        · exact absurd h (exit_ne_next _ _)
        · split at h
          · cases h
          · exact hrestart _ h
      · exact hrestart _ h
  · cases h

/-- **The discipline keeps threads tidy.** This is the step of the invariant. A push counts as one
more without a check or starts the count again, a backtrack and a pop leave fewer entries, and a
report leaves none. -/
theorem tidy_step (h : t.Tidy cap unchecked) (hset : k.Settled t) (ho : k.Orderly unchecked t)
    {t' : Thread} (hs : k.step t = .next t') : t'.Tidy cap (k.uncheckedAfter unchecked t) := by
  have hm := orderly_move h ho
  have hkeeps := keepsStack_act hset (m := k.move t)
  rw [step_eq_act] at hs
  unfold uncheckedAfter
  cases hmove : k.move t with
  | push e checked =>
    rw [hmove] at hm hs
    have hpush := Thread.push_of_tidy h e checked
    rw [show t.push e checked = .next t' from hs] at hpush
    split at hpush
    · obtain ⟨-, stack, hcon, -⟩ := hpush
      cases hcon
    · next hcap =>
      obtain ⟨t'', heq, hp⟩ := hpush
      obtain rfl := Outcome.next.inj heq
      have htidy := hp.tidy h hm hcap
      cases checked <;> exact htidy
  | go c =>
    rw [hmove] at hm hs
    obtain ⟨live, hle, hdepth⟩ := hm
    obtain rfl := Outcome.next.inj hs
    exact h.of_entries_le live rfl hdepth hle
  | poll pc =>
    rw [hmove] at hs
    simp only [act, poll_of_settled hset] at hs
    obtain rfl := Outcome.next.inj hs
    exact h.of_entries_le t.entries rfl h.depth (Nat.le_refl _)
  | backtrack depth =>
    -- The move may drop entries, and backtracking pops one more.
    rw [hmove] at hm hs hkeeps
    obtain ⟨live, hle, hdepth⟩ := hm
    have hstack := hkeeps (fun e c hcon => by cases hcon)
    rw [hs] at hstack
    obtain ⟨hpos, hpop⟩ := backtrack_eq_next hs
    simp only [hdepth] at hpos
    refine h.of_entries_le (live - 1) hstack ?_ (by omega)
    rw [hpop]
    simp only [hdepth]
    omega
  | succeed =>
    rw [hmove] at hs hkeeps
    have hstack := hkeeps (fun e c hcon => by cases hcon)
    rw [hs] at hstack
    exact h.of_entries_le 0 hstack (depth_of_succeed hs) (Nat.zero_le _)
  | exit =>
    rw [hmove] at hs
    exact absurd hs (exit_ne_next _ _)
  | stray =>
    rw [hmove] at hs
    cases hs

/-- **Wherever a run with the discipline gets, its thread is tidy**, and settled still. By induction
on the run, which carries the number of pushes since the last limit check along. -/
theorem tidy_of_passes {t₀ : Thread} (h₀ : t₀.Tidy cap 0) (hset₀ : k.Settled t₀)
    (ho : ∀ t unchecked, k.Passes t₀ t unchecked → k.Orderly unchecked t)
    (hp : k.Passes t₀ t unchecked) : t.Tidy cap unchecked ∧ k.Settled t := by
  induction hp with
  | start => exact ⟨h₀, hset₀⟩
  | @step t t' unchecked hp hs ih =>
    obtain ⟨htidy, hset⟩ := ih
    exact ⟨tidy_step htidy hset (ho t unchecked hp) hs, hset.step hs⟩

end Task

end NativeMatcher
