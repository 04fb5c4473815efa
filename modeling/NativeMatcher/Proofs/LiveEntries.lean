import NativeMatcher.Proofs.Recorded
import NativeMatcher.Proofs.StackBounds

/-!
# Entries that stay

A push writes where nothing is live, and a growth copies what is live. So as long as the pointer
does not go back past an entry, that entry stays: after a step
(`NativeMatcher.Task.sameUpTo_of_step`), and along a run (`NativeMatcher.Task.Trail.sameUpTo`).
Nothing is asked of the run. It need not keep the discipline of the stack, nor need its pointer be
at a whole number of entries, although an entry then shares a cell with the next one
(`NativeMatcher.Backtrack.Stack.read_write`).

The other half is the pointer. A register holds it as an offset from the top, in a word, and a
register that is not written keeps its value (`NativeMatcher.Task.Trail.reg_eq`). Wherever a run
gets, its pointer fits a word (`NativeMatcher.Thread.PointerFits`), so that what is read back is the
pointer as it was (`NativeMatcher.Task.Trail.depth_eq`).

Together: a program that writes the pointer to a register, goes on without giving up what is live,
and reads the pointer back has the entries that were live before
(`NativeMatcher.Engine.entries_restored`).
-/

namespace NativeMatcher

open Backtrack

/-! ### What is read after a write or a growth -/

namespace Backtrack.Stack

variable {s t : Stack} {depth depth' e : Int} {v : UInt32}

/-- An entry is read from the cells that it reaches into. -/
theorem read_congr (hs : e ≤ s.size) (ht : e ≤ t.size)
    (hcell : ∀ i : Nat, 4 * (i : Int) < e → t.cell i = s.cell i) : t.read e = s.read e := by
  have hinside : t.inside e = s.inside e := by simp only [inside, hs, ht]
  rw [read, read, hinside]
  split
  · next hin =>
    have hfour : 4 ≤ e := by
      simp only [inside, Bool.and_eq_true, decide_eq_true_eq] at hin
      exact hin.1
    have habove : t.cell (e.toNat / 4 - 1) = s.cell (e.toNat / 4 - 1) := hcell _ (by omega)
    simp only
    split
    · rw [habove]
    · next hr =>
      have hrest : e.toNat % 4 ≠ 0 := hr
      rw [habove, hcell (e.toNat / 4) (by omega)]
  · simp only [hs, ht, and_true]
    split
    · next hpos => rw [hcell 0 (by omega)]
    · rfl

/-- Of a cell that two entries share each has its own part: what is written to the lower part of it
does not change the entry that starts in the upper one. -/
theorem across_setAbove (v cell above : UInt32) {low high : UInt32}
    (hlow : low = 8 ∨ low = 16 ∨ low = 24) (hhigh : high = 8 ∨ high = 16 ∨ high = 24)
    (hle : low ≤ high) : across high (setAbove low cell v) above = across high cell above := by
  unfold across setAbove
  rcases hlow with rfl | rfl | rfl <;> rcases hhigh with rfl | rfl | rfl
  case inr.inl.inl | inr.inr.inl | inr.inr.inr.inl => exact absurd hle (by decide)
  all_goals
    apply UInt32.eq_of_toBitVec_eq
    ext i hi
    simp
    grind

/-- An entry that starts further up in its cell has fewer bits there. -/
theorem bits_le_bits {m n : Nat} (h : n % 4 ≤ m % 4) :
    8 * UInt32.ofNat (4 - m % 4) ≤ 8 * UInt32.ofNat (4 - n % 4) := by
  rw [UInt32.le_iff_toNat_le]
  simp only [UInt32.toNat_mul, UInt32.toNat_ofNat', UInt32.reduceToNat]
  omega

/-- An entry that is not aligned lies across two cells, unless it reaches past the top. -/
theorem read_unaligned {n : Nat} (hn : n % 4 ≠ 0) (hs : n ≤ s.size) :
    s.read n = some (across (8 * UInt32.ofNat (4 - n % 4)) (s.cell (n / 4))
      (if n < 4 then 0 else s.cell (n / 4 - 1))) := by
  by_cases hfour : 4 ≤ n
  · have hin : s.inside n = true := by
      simp only [inside, Bool.and_eq_true, decide_eq_true_eq]
      omega
    rw [read, if_pos hin, if_neg (Nat.not_lt.mpr hfour)]
    simp only [Int.toNat_natCast]
  · have hin : ¬s.inside n = true := by
      simp only [inside, Bool.and_eq_true, decide_eq_true_eq]
      omega
    have hmod : n % 4 = n := Nat.mod_eq_of_lt (Nat.not_le.mp hfour)
    have hdiv : n / 4 = 0 := by omega
    rw [read, if_neg hin, if_pos (by omega), if_pos (Nat.not_le.mp hfour), Int.toNat_natCast, hmod,
      hdiv]

/-- Only a whole entry is written. -/
theorem inside_of_write (h : s.write depth v = some t) : s.inside depth = true := by
  by_contra hout
  rw [write, if_neg hout] at h
  cases h

/-- The cells that an entry does not reach into stay as they are. -/
theorem cell_write (h : s.write depth v = some t) {i : Nat} (hi : i + 1 < depth.toNat / 4) :
    t.cell i = s.cell i := by
  rw [write, if_pos (inside_of_write h)] at h
  simp only at h
  split at h
  · obtain rfl := Option.some.inj h
    rw [cell, getD_setCell, if_neg (by omega), cell]
  · obtain rfl := Option.some.inj h
    rw [cell, getD_setCell, if_neg (by omega), getD_setCell, if_neg (by omega), cell]

/-- An entry that is not aligned replaces the lower part of the cell in which it ends. -/
theorem cell_write_above (h : s.write depth v = some t) (hdepth : depth.toNat % 4 ≠ 0) :
    t.cell (depth.toNat / 4 - 1) = setAbove (8 * UInt32.ofNat (4 - depth.toNat % 4))
      (s.cell (depth.toNat / 4 - 1)) v := by
  have hin := inside_of_write h
  rw [write, if_pos hin] at h
  simp only [inside, Bool.and_eq_true, decide_eq_true_eq] at hin
  simp only at h
  obtain rfl := Option.some.inj h
  rw [cell, getD_setCell, if_neg (by omega), getD_setCell, if_pos rfl]

/-- **A write leaves the entries before it alone**, also one that shares a cell with it. An entry
has four bytes and a depth that need not be a multiple of four, so two entries may lie in the same
two cells. -/
theorem read_write (h : s.write depth v = some t) (he : e + 4 ≤ depth) : t.read e = s.read e := by
  have hin := inside_of_write h
  simp only [inside, Bool.and_eq_true, decide_eq_true_eq] at hin
  have hsize := size_write h
  by_cases hshare : 4 * ((depth.toNat / 4 - 1 : Nat) : Int) < e
  · -- The entry starts in the cell in which the one that is written ends.
    obtain ⟨n, rfl⟩ := Int.eq_ofNat_of_zero_le (show 0 ≤ e by omega)
    have hn : n % 4 ≠ 0 := by omega
    have hdepth : depth.toNat % 4 ≠ 0 := by omega
    have hdiv : n / 4 = depth.toNat / 4 - 1 := by omega
    have habove : ∀ i, i + 1 = n / 4 → t.cell i = s.cell i := fun i hi =>
      cell_write h (by omega)
    rw [read_unaligned hn (by omega), read_unaligned hn (by omega), hdiv, cell_write_above h hdepth,
      across_setAbove v _ _ (bits_cases hdepth) (bits_cases hn) (bits_le_bits (by omega))]
    split
    · rfl
    · rw [habove _ (by omega)]
  · exact read_congr (by omega) (by omega) fun i hi => cell_write h (by omega)

/-- A growth takes a pointer inside the memory, and leaves it at a whole number of entries. -/
theorem depth_grow (h : s.grow depth = some (t, depth')) :
    0 ≤ depth ∧ depth ≤ s.size ∧ depth' = 4 * ((depth.toNat / 4 : Nat) : Int) := by
  unfold grow at h
  simp only at h
  split at h
  · next hc =>
    obtain ⟨-, rfl⟩ := Prod.mk.inj (Option.some.inj h)
    exact ⟨hc.2.2.1, hc.2.2.2, by omega⟩
  · cases h

/-- **A growth leaves the entries before the last one alone.** -/
theorem read_grow (h : s.grow depth = some (t, depth')) (he : e + 4 ≤ depth) :
    t.read e = s.read e := by
  have hsize := size_grow h
  obtain ⟨-, hle, -⟩ := depth_grow h
  exact read_congr (by omega) (by omega) fun i hi => cell_grow h (by omega)

end Backtrack.Stack

/-! ### What a step leaves alone -/

namespace Thread

variable {t u v : Thread} {depth : Int} {e : UInt32} {checked : Bool}

/-- The entries up to a depth are the same. -/
def SameUpTo (depth : Int) (t u : Thread) : Prop :=
  ∀ d ≤ depth, u.stack.read d = t.stack.read d

theorem SameUpTo.of_stack_eq (h : u.stack = t.stack) : SameUpTo depth t u :=
  fun d _ => by rw [h]

theorem SameUpTo.trans (h : SameUpTo depth t u) (h' : SameUpTo depth u v) :
    SameUpTo depth t v :=
  fun d hd => (h' d hd).trans (h d hd)

/-- **A push leaves the entries before it alone**, also if the stack grows. -/
theorem sameUpTo_of_push (h : t.push e checked = .next u) (hd : depth ≤ t.depth) :
    SameUpTo depth t u := by
  intro d hle
  obtain ⟨written, hw, ⟨-, rfl⟩ | ⟨-, grown, depth', hg, rfl⟩⟩ := push_eq_next h
  · exact Stack.read_write hw (by omega)
  · exact (Stack.read_grow hg (by omega)).trans (Stack.read_write hw (by omega))

end Thread

namespace Task

variable {k : Task} {t u t₀ : Thread} {past : List Thread} {depth : Int}

/-- **Nothing but a push touches the memory.** Pops and backtracks move the pointer only, so what
was popped can still be read if the pointer is set forward again. -/
theorem stack_of_step (hm : ∀ e checked, k.move t ≠ .push e checked) (hs : k.step t = .next u) :
    u.stack = t.stack := by
  rw [step_eq_act] at hs
  cases hmove : k.move t with
  | go c =>
    rw [hmove] at hs
    obtain rfl := Outcome.next.inj hs
    rfl
  | poll pc =>
    rw [hmove] at hs
    obtain ⟨v, hv, hnext⟩ := Outcome.andThen_eq_next.mp hs
    obtain rfl := Outcome.next.inj hnext
    rw [eq_of_poll hv]
  | backtrack d =>
    rw [hmove] at hs
    rw [(backtrack_eq_next hs).2]
  | push e checked => exact absurd hmove (hm e checked)
  | exit =>
    rw [hmove] at hs
    exact absurd hs (exit_ne_next t u)
  | succeed =>
    rw [hmove] at hs
    have hkeeps := keepsStack_succeed (k := k) t
    rw [show k.succeed t = .next u from hs] at hkeeps
    exact hkeeps
  | stray =>
    rw [hmove] at hs
    cases hs

/-- **A step leaves the entries up to the pointer alone.** -/
theorem sameUpTo_of_step (hs : k.step t = .next u) (hd : depth ≤ t.depth) :
    Thread.SameUpTo depth t u := by
  by_cases hpush : ∃ e checked, k.move t = .push e checked
  · obtain ⟨e, checked, hmove⟩ := hpush
    rw [step_eq_act, hmove] at hs
    exact Thread.sameUpTo_of_push hs hd
  · exact .of_stack_eq (stack_of_step (fun e checked hm => hpush ⟨e, checked, hm⟩) hs)

/-- **A run that does not go back past a depth leaves the entries up to it alone.** -/
theorem Trail.sameUpTo (h : k.Trail t₀ past t) (hd : ∀ v ∈ past, depth ≤ v.depth) :
    Thread.SameUpTo depth t₀ t := by
  induction h with
  | start => exact .of_stack_eq rfl
  | step _ hs ih =>
    have hlast := sameUpTo_of_step hs (hd _ List.mem_cons_self)
    exact (ih fun v hv => hd v (List.mem_cons_of_mem _ hv)).trans hlast

end Task

/-! ### Registers that are not written -/

/-- Whether an opcode writes a register. The report of a match does: a run that goes on after it
starts over. -/
def Opcode.Writes (op : Opcode) (reg : Nat) : Prop :=
  match op with
  | .writePosition r _ => r = reg
  | .clearRegisters first last => first ≤ reg ∧ reg ≤ last
  | .succeed => True
  | op => op.sets? = some reg

namespace Task

/-- A thread is about to write a register. -/
def Writes (k : Task) (reg : Nat) (t : Thread) : Prop :=
  ∃ op, k.opcode? t = some op ∧ op.Writes reg

variable {k : Task} {t u t₀ : Thread} {past : List Thread} {reg : Nat}

/-- There are always as many registers as the code has. -/
theorem size_regs_of_step (h : t.regs.size = k.matcher.object.registers)
    (hs : k.step t = .next u) : u.regs.size = k.matcher.object.registers := by
  obtain ⟨op, hop⟩ := exists_opcode hs
  by_cases hne : op = .succeed
  · rw [hne] at hop
    rw [step_of_move_succeed (move_eq_succeed_iff.mpr hop)] at hs
    obtain ⟨-, -, -, hregs⟩ := (k.succeed_cases t).1 u hs
    rw [hregs, Array.size_replicate]
  · exact (regs_of_step hop hne hs).1.trans h

/-- An opcode that does not write a register leaves it alone. -/
theorem registerAfter_of_not_writes {op : Opcode} (h : ¬op.Writes reg) :
    op.sets? ≠ some reg ∧ k.registerAfter op t reg = t.reg reg := by
  cases op with
  | writePosition r offset => exact ⟨nofun, if_neg h⟩
  | clearRegisters first last => exact ⟨nofun, if_neg h⟩
  | succeed => exact absurd trivial h
  | _ => exact ⟨h, rfl⟩

/-- **A register that a step does not write keeps its value.** A report unsets all registers when it
starts over, and counts as a write. -/
theorem reg_of_step (hs : k.step t = .next u) (hw : ¬k.Writes reg t) (hreg : reg < t.regs.size) :
    u.reg reg = t.reg reg := by
  obtain ⟨op, hop⟩ := exists_opcode hs
  have hwrites : ¬op.Writes reg := fun hcon => hw ⟨op, hop, hcon⟩
  have hne : op ≠ .succeed := by
    rintro rfl
    exact hwrites trivial
  obtain ⟨hset, hafter⟩ := registerAfter_of_not_writes (k := k) (t := t) hwrites
  rw [(regs_of_step hop hne hs).2 reg hreg hset, hafter]

theorem Trail.size_regs (h : k.Trail t₀ past t) (h₀ : t₀.regs.size = k.matcher.object.registers) :
    t.regs.size = k.matcher.object.registers := by
  induction h with
  | start => exact h₀
  | step _ hs ih => exact size_regs_of_step ih hs

/-- **A register that a run does not write keeps its value.** By induction on the past of the
thread. -/
theorem Trail.reg_eq (h : k.Trail t₀ past t) (h₀ : t₀.regs.size = k.matcher.object.registers)
    (hw : ∀ v ∈ past, ¬k.Writes reg v) (hreg : reg < k.matcher.object.registers) :
    t.reg reg = t₀.reg reg := by
  induction h with
  | start => rfl
  | step hp hs ih =>
    have hsize := hp.size_regs h₀
    rw [reg_of_step hs (hw _ List.mem_cons_self) (by omega),
      ih fun v hv => hw v (List.mem_cons_of_mem _ hv)]

end Task

/-! ### The pointer as a word -/

/-- The pointer fits a word: as an offset from the top it is one of the words of a register. Only
a register can set it to a place outside the memory. -/
structure Thread.PointerFits (t : Thread) : Prop where
  /-- It is not as far above the top as a word can say. -/
  above : -2 ^ 63 < t.depth
  /-- Below the top it is as near as a word can say, or inside the memory. -/
  below : t.depth ≤ 2 ^ 63 ∨ t.depth ≤ t.stack.size

/-- A move that leaves the pointer at a place that fits, in the memory of a thread. -/
def Move.PointerFits (m : Move) (t : Thread) : Prop :=
  match m with
  | .go c => -2 ^ 63 < c.depth ∧ (c.depth ≤ 2 ^ 63 ∨ c.depth ≤ t.stack.size)
  | .backtrack depth => depth ≤ 2 ^ 63 ∨ depth ≤ t.stack.size
  | _ => True

namespace Thread

variable {t : Thread}

/-- What is written to a register for the pointer is read back as the pointer. -/
theorem PointerFits.toInt_ofInt (h : t.PointerFits) (hsize : t.stack.size ≤ Memory.maxBlock) :
    -(Int64.ofInt (-t.depth)).toInt = t.depth := by
  have habove := h.above
  have hbelow := h.below
  have hmax : Memory.maxBlock = 9223372036854775807 := rfl
  rw [Int64.toInt_ofInt_of_le (by omega) (by omega)]
  omega

end Thread

namespace Task

variable {k : Task} {t u t₀ : Thread}

/-- A move that leaves the pointer alone keeps it within a word. -/
theorem pointerFits_of_keepsDepth {m : Move} {v : Thread} (hm : m.KeepsDepth v)
    (hdepth : -2 ^ 63 < v.depth ∧ (v.depth ≤ 2 ^ 63 ∨ v.depth ≤ t.stack.size)) :
    m.PointerFits t := by
  cases m with
  | go c =>
    rw [Move.PointerFits, show c.depth = v.depth from hm]
    exact hdepth
  | backtrack depth =>
    rw [Move.PointerFits, show depth = v.depth from hm]
    exact hdepth.2
  | push | poll | exit | succeed | stray => trivial

/-- So does a pop, which stops at an empty stack. -/
theorem pointerFits_popMove (h : t.PointerFits) (f : Int64 → Thread → Thread)
    (hf : ∀ v u, (f v u).depth = u.depth) : (popMove t.peek t f).PointerFits t := by
  have hbelow := h.below
  cases hp : t.peek with
  | entry e =>
    have hpos := Thread.pos_of_peek hp
    rw [popMove, Move.PointerFits, show (Thread.cursor _).depth = _ from hf _ _]
    simp only
    omega
  | empty => trivial
  | outside => trivial

/-- **Every move leaves the pointer at a place that fits.** The pointer is the one thing that a
program can load from a register, so the opcode that does so is the case with something to prove. -/
theorem pointerFits_move (h : t.PointerFits) : (k.move t).PointerFits t := by
  have hhere : -2 ^ 63 < t.depth ∧ (t.depth ≤ 2 ^ 63 ∨ t.depth ≤ t.stack.size) :=
    ⟨h.above, h.below⟩
  unfold move
  cases hop : k.opcode? t with
  | none => trivial
  | some op =>
    cases op with
    | popPosition => exact pointerFits_popMove h (fun v u => { u with pos := v }) fun _ _ => rfl
    | popRegister reg => exact pointerFits_popMove h (fun v u => u.setReg reg v) fun _ _ => rfl
    | readStackPointer reg =>
      have hlow := (t.reg reg).le_toInt
      have hhigh := (t.reg reg).toInt_lt
      change -2 ^ 63 < -(t.reg reg).toInt ∧ (-(t.reg reg).toInt ≤ 2 ^ 63 ∨ _)
      omega
    | checkGreedyLoop dest =>
      simp only [opcodeMove, greedyMove]
      split
      · exact hhere
      · trivial
      · next e hp =>
        have hpos := Thread.pos_of_peek hp
        split
        · exact pointerFits_of_keepsDepth (keepsDepth_branchMove dest) (by simp only; omega)
        · exact hhere
    | pushBacktrack l =>
      simp only [opcodeMove, pushMove]
      split
      · trivial
      · split <;> trivial
    | pushPosition => trivial
    | pushRegister reg checked => trivial
    | _ => exact pointerFits_of_keepsDepth (keepsDepth_opcodeMove t.peek rfl) hhere

/-- Where a push leaves the pointer. -/
theorem pointerFits_of_push {e : UInt32} {checked : Bool} (hs : t.push e checked = .next u) :
    u.PointerFits := by
  obtain ⟨written, hw, hu⟩ := Thread.push_eq_next hs
  have hin := Stack.inside_of_write hw
  have hsize := Stack.size_write hw
  simp only [Stack.inside, Bool.and_eq_true, decide_eq_true_eq] at hin
  rcases hu with ⟨-, rfl⟩ | ⟨-, grown, d, hg, rfl⟩
  · exact ⟨by simp only; omega, Or.inr (by simp only; omega)⟩
  · obtain ⟨-, hle, rfl⟩ := Stack.depth_grow hg
    have hgrown := Stack.size_grow hg
    exact ⟨by simp only; omega, Or.inr (by simp only; omega)⟩

/-- **A step keeps the pointer at a place that fits.** What the move leaves is what backtracking,
pushing and growing start from. -/
theorem pointerFits_of_step (h : t.PointerFits) (hs : k.step t = .next u) : u.PointerFits := by
  have hm := pointerFits_move (k := k) h
  rw [step_eq_act] at hs
  cases hmove : k.move t with
  | go c =>
    rw [hmove] at hs hm
    obtain rfl := Outcome.next.inj hs
    exact ⟨hm.1, hm.2⟩
  | poll pc =>
    rw [hmove] at hs
    obtain ⟨v, hv, hnext⟩ := Outcome.andThen_eq_next.mp hs
    obtain rfl := Outcome.next.inj hnext
    rw [eq_of_poll hv]
    exact ⟨h.above, h.below⟩
  | backtrack d =>
    rw [hmove] at hs hm
    obtain ⟨hpos, hu⟩ := backtrack_eq_next hs
    have hbelow : d ≤ 2 ^ 63 ∨ d ≤ t.stack.size := hm
    rw [hu]
    simp only at hpos
    exact ⟨by simp only; omega, by simp only; omega⟩
  | push e checked =>
    rw [hmove] at hs
    exact pointerFits_of_push hs
  | exit =>
    rw [hmove] at hs
    exact absurd hs (exit_ne_next t u)
  | succeed =>
    rw [hmove] at hs
    have hzero : u.depth = 0 := depth_of_succeed hs
    exact ⟨by omega, Or.inl (by omega)⟩
  | stray =>
    rw [hmove] at hs
    cases hs

end Task

/-! ### Live entries -/

namespace Thread

variable {t u : Thread}

/-- The live entries of a thread's stack, from the bottom. -/
def live (t : Thread) : List (Option UInt32) :=
  (List.range t.entries).map fun i => t.stack.read (4 * (i + 1 : Nat))

/-- Threads with the same pointer and the same memory up to it have the same live entries. -/
theorem live_eq_of_sameUpTo (hd : u.depth = t.depth)
    (h : 0 < t.entries → SameUpTo (4 * t.entries) t u) : u.live = t.live := by
  have hentries : u.entries = t.entries := by rw [entries, entries, hd]
  rw [live, live, hentries]
  refine List.map_congr_left fun i hi => ?_
  rw [List.mem_range] at hi
  exact h (by omega) _ (by omega)

/-- A thread that has as many live entries has its pointer at or beyond them. -/
theorem le_depth_of_entries_le {n : Nat} (hn : 0 < n) (h : n ≤ t.entries) :
    4 * (n : Int) ≤ t.depth := by
  rw [entries] at h
  omega

end Thread

/-- A register that an opcode touches is in the register file. -/
theorem Program.lt_registerCount {p : Program} {op : Opcode} {reg : Nat} (hop : op ∈ p.opcodes)
    (hreg : reg ∈ op.touched) : reg < p.registerCount := by
  have hfold (regs : List Nat) (n : Nat) (h : reg < n ∨ reg ∈ regs) :
      reg < regs.foldl (fun n reg => max n (reg + 1)) n := by
    induction regs generalizing n with
    | nil => simpa using h
    | cons r regs ih =>
      refine ih _ ?_
      rcases h with h | h
      · exact Or.inl (Nat.lt_of_lt_of_le h (Nat.le_max_left _ _))
      · rcases List.mem_cons.mp h with rfl | h
        · exact Or.inl (Nat.le_max_right _ _)
        · exact Or.inr h
  exact hfold _ _ (Or.inr (List.mem_flatMap.mpr ⟨op, Array.mem_toList_iff.mpr hop, hreg⟩))

namespace Task

variable {k : Task} {t u t₀ t₁ : Thread} {past : List Thread} {reg : Nat} {op : Opcode}

theorem Trail.pointerFits (h : k.Trail t₀ past t) (h₀ : t₀.PointerFits) : t.PointerFits := by
  induction h with
  | start => exact h₀
  | step _ hs ih => exact pointerFits_of_step ih hs

/-- **A register that a run does not write keeps the pointer**: what is read back is where the
pointer was. -/
theorem Trail.depth_eq (hsize : t.regs.size = k.matcher.object.registers)
    (hreg : reg < k.matcher.object.registers) (hfits : t.PointerFits)
    (hmax : t.stack.size ≤ Memory.maxBlock)
    (h : k.Trail (t.setReg reg (Int64.ofInt (-t.depth))).advance past u)
    (hw : ∀ v ∈ past, ¬k.Writes reg v) : -(u.reg reg).toInt = t.depth := by
  have hkept := h.reg_eq ((t.size_regs_setReg reg _).trans hsize) hw hreg
  have hsaved : u.reg reg = Int64.ofInt (-t.depth) := by
    rw [hkept]
    exact t.reg_setReg_self _ (by omega)
  rw [hsaved, hfits.toInt_ofInt hmax]

end Task

/-- An attempt begins with the memory and the pointer of its entry. -/
theorem Attempt.memory_of_begin {a : Attempt} {t₀ : Thread} (hb : a.begin = .next t₀) :
    t₀.stack = a.entry.stack ∧ t₀.depth = a.entry.depth := by
  obtain ⟨u, c, hp, rfl⟩ := begin_eq_next hb
  rw [Task.eq_of_poll hp]
  exact ⟨rfl, rfl⟩

namespace Engine

variable {c : Config} {e : Engine} {h : Handle} {m : Matcher} {subject : Subject} {start : Nat}
  {output : Array Int32} {a : Attempt} {past : List Thread} {t : Thread}

/-- Wherever an attempt gets, there are the registers of the program, and the pointer fits a
word. -/
theorem fits_of_trail (ha : a ∈ e.tries h m subject start output) (ht : a.Trail past t) :
    t.regs.size = a.task.matcher.object.registers ∧ t.PointerFits := by
  obtain ⟨t₀, hb, hp⟩ := ht
  obtain ⟨-, -, -, hregs⟩ := Attempt.begin_cases hb
  have hdepth : t₀.depth = 0 := by
    rw [(Attempt.memory_of_begin hb).2]
    obtain ⟨e', origin, output', -, rfl⟩ := exists_kept_of_mem_history ha
    rfl
  refine ⟨hp.size_regs ?_, hp.pointerFits ⟨by omega, Or.inl (by omega)⟩⟩
  rw [hregs, Array.size_replicate]

/-- A register that an opcode of the program touches is in the register file. -/
theorem lt_registers (he : e.Reachable c) (hcheck : e.check h subject start output.size = .ok m)
    (ha : a ∈ e.tries h m subject start output) {op : Opcode} {reg : Nat}
    (hop : a.task.opcode? t = some op) (hreg : reg ∈ op.touched) :
    reg < a.task.matcher.object.registers := by
  obtain ⟨hget, -⟩ := Engine.of_check hcheck
  rw [Task.opcode?, matcher_of_mem_tries ha] at hop
  rw [matcher_of_mem_tries ha, (he.sane.compiled h m hget).registers_eq]
  exact Program.lt_registerCount (Array.mem_of_getElem? hop) hreg

/-- **Setting the pointer back restores the stack.** Wherever an attempt of a match writes its
stack pointer to a register, and whatever it does from there on until it reads the pointer back from
that register: if it has not written the register, and has never had fewer live entries, then its
pointer is where it was, and its live entries are those it had, one by one from the bottom. It may
have pushed and popped in between, the stack may have grown and the code may have moved, any number
of times. Had the pointer never gone back past where it was, then everything up to there is as it
was, whether or not that is a whole number of entries.

The memory has at most the size of the largest block, as all memory has. -/
theorem entries_restored (he : e.Reachable c) :
    ∀ h m subject start output, e.check h subject start output.size = .ok m →
      ∀ a ∈ e.tries h m subject start output, ∀ before t reg, a.Trail before t →
        a.task.opcode? t = some (.writeStackPointer reg) → t.stack.size ≤ Memory.maxBlock →
        ∃ t₁, a.task.step t = .next t₁ ∧ ∀ past u, a.task.Trail t₁ past u →
          a.task.opcode? u = some (.readStackPointer reg) →
          (∀ v ∈ past, ¬a.task.Writes reg v) → (∀ v ∈ past, t.entries ≤ v.entries) →
            ∃ u', a.task.step u = .next u' ∧ u'.depth = t.depth ∧ u'.live = t.live ∧
              ((∀ v ∈ past, t.depth ≤ v.depth) → Thread.SameUpTo t.depth t u') := by
  intro h m subject start output hcheck a ha before t reg ht hop hmax
  obtain ⟨hsize, hfits⟩ := fits_of_trail ha ht
  have hreg : reg < a.task.matcher.object.registers :=
    lt_registers he hcheck ha hop List.mem_cons_self
  refine ⟨_, Task.step_of_opcode hop, fun past u hu hread hw hentries => ?_⟩
  have hdepth : -(u.reg reg).toInt = t.depth := hu.depth_eq hsize hreg hfits hmax hw
  refine ⟨_, Task.step_of_opcode hread, hdepth, ?_, fun hback => hu.sameUpTo hback⟩
  refine Thread.live_eq_of_sameUpTo hdepth fun hpos => ?_
  exact hu.sameUpTo fun v hv => Thread.le_depth_of_entries_le hpos (hentries v hv)

end Engine

/-! ### A stack that grows in between -/

namespace Sample

/-- Sets the pointer to where the stack is nearly full, pushes its position, keeps the pointer in a
register, pushes once more, sets the pointer back, and pops. -/
def climber : Program where
  opcodes := #[.setRegister 2 (-3960), .readStackPointer 2, .pushPosition, .writeStackPointer 3,
    .pushPosition, .readStackPointer 3, .popPosition, .writePosition 0 0, .writePosition 1 0,
    .succeed]
  labels := 0
  saved := 2

/-- A thread on a new stack is tidy where there is room to push. -/
theorem tidy_freshStack {t : Thread} {n : Nat} (hstack : t.stack = freshStack)
    (hdepth : t.depth = 4 * (n : Int)) (hn : n < 992) : t.Tidy 67108864 0 := by
  have hentries : t.entries = n := by
    rw [Thread.entries]
    omega
  have hsize : freshStack.size = 4096 := rfl
  have hslack : Assembler.stackLimitSlack = 32 := rfl
  refine ⟨?_, ?_, ?_, ?_, ?_, ?_, ?_, Nat.zero_le _, ?_⟩
  · rw [hstack]
    rfl
  · rw [hstack]
    decide
  · rw [hstack]
    exact ⟨14, rfl⟩
  · rw [hstack]
    exact Nat.le_refl _
  · rw [hstack]
    decide
  · rw [hstack]
    decide
  · rw [hentries, hdepth]
  · rw [hentries, hstack]
    omega

/-- Far from the largest size every checked push is made. -/
theorem exists_pushed {t : Thread} {n : Nat} (h : t.Tidy 67108864 0) (hlive : t.entries = n)
    (hn : n < 1000000) (e : UInt32) :
    ∃ u, t.push e true = .next u ∧ t.Pushed e true u ∧ u.Tidy 67108864 0 := by
  have hslack : Assembler.stackLimitSlack = 32 := rfl
  have hnot : ¬(true = true ∧ 67108864 ≤ 4 * (t.entries + 1) + 4 * Assembler.stackLimitSlack) := by
    omega
  have hpush := Thread.push_of_tidy h e true
  rw [if_neg hnot] at hpush
  obtain ⟨u, hu, hpushed⟩ := hpush
  exact ⟨u, hu, hpushed, hpushed.tidy h nofun hnot⟩

/-- A program may begin with setting its pointer to a place of its choice. -/
theorem exists_trail_pointer {p : Program} {k : Task} {t : Thread} (v : Int32)
    (hp : k.matcher.program = p) (h₀ : p.opcodes[0]? = some (.setRegister 2 v))
    (h₁ : p.opcodes[1]? = some (.readStackPointer 2)) (hpc : t.pc = 0) (hregs : 2 < t.regs.size) :
    ∃ past, k.Trail t past { t.setReg 2 v.toInt64 with depth := -v.toInt, pc := 2 } := by
  let u := (t.setReg 2 v.toInt64).advance
  have hpcu : u.pc = 1 := congrArg (· + 1) hpc
  have hset : k.step t = .next u :=
    Task.step_of_opcode (by rw [Task.opcode?, hp, hpc, h₀])
  have hread : k.step u = k.perform (.readStackPointer 2) u :=
    Task.step_of_opcode (by rw [Task.opcode?, hp, hpcu, h₁])
  have hreg : u.reg 2 = v.toInt64 := t.reg_setReg_self _ hregs
  rw [Task.perform, hreg, Int32.toInt_toInt64, hpcu] at hread
  exact ⟨[u, t], (Task.Trail.start.step hset).step hread⟩

/-- A new engine begins at the first opcode of whatever can be compiled, on a new stack. -/
theorem exists_begins {p : Program} {n : Nat} (hbody : p.bodySize? .latin1 = some n)
    (hn : n < 2 ^ 30) (hrange : ∀ op ∈ p.opcodes, op.InRange)
    (hreports : (p.reports { mode := .latin1 }).head? = none) (hsaved : p.saved ≤ 2)
    (hroom : nativeLimit 16 ({} : Config).nativeBudget < nativePointer p.registerCount) :
    ∃ e m a t₀, FirstTry p { mode := .latin1 } (.latin1 #[97]) 0 #[7, 7] e m a ∧
      a.begin = .next t₀ ∧ t₀.pc = 0 ∧ t₀.regs.size = p.registerCount ∧
      t₀.stack = freshStack ∧ t₀.depth = 0 := by
  obtain ⟨m, hm, -⟩ := Program.exists_compile (o := { mode := .latin1 }) hbody hn hrange hreports
    "" Sample.heap
  obtain ⟨e, a, guard, h, hentry⟩ := exists_firstTry_freshStack hm (.latin1 #[97]) 0 #[7, 7] rfl
    (Nat.zero_le _) (by decide) hsaved hroom
  refine ⟨e, m, a, _, h, h.begins, rfl, ?_, ?_, ?_⟩
  · rw [← h.registers, ← h.matcher]
    exact Array.size_replicate
  · rw [Task.afresh, hentry]
    rfl
  · rw [Task.afresh, hentry]
    rfl

/-- At the second push the stack is full enough to grow. -/
theorem run_climber {k : Task} {t₀ : Thread} (hp : k.matcher.program = climber)
    (hpc : t₀.pc = 0) (hregs : t₀.regs.size = 4) (hstack : t₀.stack = freshStack) :
    ∃ past t t₁ u, k.Trail t₀ past t ∧ t.pc = 3 ∧ t.depth = 3964 ∧ t.stack.size = 4096 ∧
      t.stack.cell 990 = lowWord t₀.pos ∧ k.step t = .next t₁ ∧ t₁.pc = 4 ∧ t₁.depth = 3964 ∧
      k.step t₁ = .next u ∧ u.pc = 5 ∧ u.stack.size = 8192 := by
  have hop (t : Thread) {pc : Nat} {op : Opcode} (ht : t.pc = pc)
      (h : climber.opcodes[pc]? = some op) : k.step t = k.perform op t :=
    Task.step_of_opcode (by rw [Task.opcode?, hp, ht, h])
  let b : Thread := { t₀.setReg 2 (-3960 : Int32).toInt64 with depth := 3960, pc := 2 }
  obtain ⟨past, hb⟩ : ∃ past, k.Trail t₀ past b :=
    exists_trail_pointer (-3960) hp rfl rfl hpc (by omega)
  have hentriesb : b.entries = 990 := by
    change (3960 : Int).toNat / 4 = 990
    rfl
  obtain ⟨t, ht, hpushed, htidy⟩ := exists_pushed
    (tidy_freshStack (t := b) (n := 990) hstack rfl (by decide)) hentriesb (by decide)
    (lowWord b.pos)
  have hdepth : t.depth = 3964 := by
    rw [hpushed.eq]
    rfl
  have hpct : t.pc = 3 := by
    rw [hpushed.eq]
  have hsize : t.stack.size = 4096 := by
    rw [hpushed.size, show b.stack = freshStack from hstack, hentriesb]
    decide
  let c := (t.setReg 3 (Int64.ofInt (-t.depth))).advance
  have hc : k.step t = .next c := hop t hpct rfl
  have hentries : c.entries = 991 := by
    change t.depth.toNat / 4 = 991
    rw [hdepth]
    rfl
  obtain ⟨u, hu, hpushed', -⟩ := exists_pushed (t := c) (n := 991)
    (htidy.of_entries_le 991 rfl hdepth (Nat.le_of_eq hentries.symm)) hentries (by decide)
    (lowWord c.pos)
  have hpcc : c.pc = 4 := congrArg (· + 1) hpct
  refine ⟨_, t, c, u, hb.step ((hop b rfl rfl).trans ht), hpct, hdepth, hsize, ?_, hc, hpcc, hdepth,
    (hop c hpcc rfl).trans hu, ?_, ?_⟩
  · rw [hpushed.cell 990 (Nat.le_of_eq hentriesb.symm), if_pos hentriesb.symm]
    rfl
  · rw [hpushed'.eq]
    exact congrArg (· + 1) hpcc
  · have hslack : Assembler.stackLimitSlack = 32 := rfl
    have hsizec : c.stack.size = 4096 := hsize
    rw [hpushed'.size, if_pos ⟨rfl, by omega⟩, hsizec]

end Sample

/-- The pointer is set back over a growth of the stack. -/
theorem Engine.entries_restored_climber :
    ∃ (e : Engine) (m : Matcher) (a : Attempt) (before past : List Thread) (t t₁ u u' : Thread),
      e.Reachable {} ∧ e.check ⟨0⟩ (.latin1 #[97]) 0 2 = .ok m ∧
      a ∈ e.tries ⟨0⟩ m (.latin1 #[97]) 0 #[7, 7] ∧ a.Trail before t ∧
      a.task.opcode? t = some (.writeStackPointer 3) ∧ t.stack.size ≤ Memory.maxBlock ∧
      a.task.step t = .next t₁ ∧ a.task.Trail t₁ past u ∧
      a.task.opcode? u = some (.readStackPointer 3) ∧ (∀ v ∈ past, ¬a.task.Writes 3 v) ∧
      (∀ v ∈ past, t.entries ≤ v.entries) ∧ t.entries = 991 ∧
      u.stack.size = 2 * t.stack.size ∧ a.task.step u = .next u' ∧ u'.live = t.live := by
  obtain ⟨e, m, a, t₀, h, hbegin, hpc₀, hregs, hstack, -⟩ :=
    Sample.exists_begins (p := Sample.climber) (n := 139) (by decide +kernel) (by decide)
      (by simp [Sample.climber, Opcode.InRange, InReach]) (by decide) (by decide) (by decide)
  obtain ⟨before, t, t₁, u, htrail, hpc, hdepth, hsize, -, hs, hpc₁, hdepth₁, hs₁, hpcu, hsizeu⟩ :=
    Sample.run_climber h.program_eq hpc₀ hregs hstack
  have hop (v : Thread) : a.task.opcode? v = Sample.climber.opcodes[v.pc]? := by
    rw [Task.opcode?, h.program_eq]
  have ht : a.Trail before t := ⟨_, hbegin, htrail⟩
  have hwrite : a.task.opcode? t = some (.writeStackPointer 3) := by
    rw [hop, hpc]
    rfl
  have hread : a.task.opcode? u = some (.readStackPointer 3) := by
    rw [hop, hpcu]
    rfl
  have hmax : t.stack.size ≤ Memory.maxBlock := by
    rw [hsize]
    decide
  have hpast : ∀ v ∈ [t₁], ¬a.task.Writes 3 v := by
    rintro v hv ⟨op, hvop, hw⟩
    rw [List.mem_singleton.mp hv, hop, hpc₁] at hvop
    obtain rfl := Option.some.inj hvop
    cases hw
  have hlive : ∀ v ∈ [t₁], t.entries ≤ v.entries := by
    intro v hv
    rw [List.mem_singleton.mp hv, Thread.entries, Thread.entries, hdepth, hdepth₁]
  have hseg : a.task.Trail t₁ [t₁] u := .step .start hs₁
  obtain ⟨t₁', hs', hrest⟩ := entries_restored h.reachable _ _ _ _ _ h.check a h.mem before t 3 ht
    hwrite hmax
  obtain rfl := Outcome.next.inj (hs.symm.trans hs')
  obtain ⟨u', hu', -, hrestored, -⟩ := hrest _ _ hseg hread hpast hlive
  exact ⟨e, m, a, before, [t₁], t, t₁, u, u', h.reachable, h.check, h.mem, ht, hwrite, hmax, hs,
    hseg, hread, hpast, hlive, by rw [Thread.entries, hdepth]; rfl, by rw [hsizeu, hsize], hu',
    hrestored⟩

end NativeMatcher
