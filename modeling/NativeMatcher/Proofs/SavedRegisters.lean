import NativeMatcher.Proofs.LiveEntries
import NativeMatcher.Proofs.Widening

/-!
# Registers saved on the stack

A register is a word of 64 bits and an entry of the stack has 32, so a push keeps the lower half of
the register and a pop extends its sign. A program that pushes a register, pushes and pops in
balance, and pops it again therefore has the register modulo `2 ^ 32`, which is as it was exactly if
32 bits are enough for it, sign included (`NativeMatcher.Engine.register_saved`). Places in a
subject and what an opcode sets a register to are that small; sums need not be.

Growths in between do not matter, and neither does one at the push itself if the pointer is at a
whole number of entries. If it is not, the growth copies whole entries from the top on and cuts the
last one, which is the one that was pushed. Both ways to lose a register are shown
(`NativeMatcher.Engine.register_not_saved`).
-/

namespace NativeMatcher

open Backtrack

/-- A word comes back from the stack as it was if 32 bits are enough for it, sign included. -/
theorem signWord_lowWord_eq_iff {x : Int64} :
    signWord (lowWord x) = x ↔ -2 ^ 31 ≤ x.toInt ∧ x.toInt < 2 ^ 31 := by
  rw [← Int64.toInt_inj, toInt_signWord_lowWord, Int.bmod_def]
  split <;> omega

/-! ### A push and the pop that belongs to it -/

namespace Thread

variable {t u : Thread} {e : UInt32} {checked : Bool}

/-- A push into a memory that may still double goes on. -/
theorem exists_push (hin : t.stack.inside (t.depth + 4) = true)
    (hdouble : t.stack.size * 2 ≤ t.stack.maxBytes) (hword : t.stack.size * 2 < 2 ^ 64)
    (e : UInt32) (checked : Bool) : ∃ u, t.push e checked = .next u := by
  have hroom : 4 ≤ t.depth + 4 ∧ t.depth + 4 ≤ t.stack.size := by
    simpa only [Stack.inside, Bool.and_eq_true, decide_eq_true_eq] using hin
  obtain ⟨written, hw⟩ : ∃ written, t.stack.write (t.depth + 4) e = some written := by
    rw [Stack.write, if_pos hin]
    simp only
    split <;> exact ⟨_, rfl⟩
  obtain ⟨-, hmax, -⟩ := Stack.shape_write hw
  have hsize := Stack.size_write hw
  simp only [push, hw]
  split
  · rw [Stack.grow, if_pos (by rw [hsize, hmax]; omega)]
    exact ⟨_, rfl⟩
  · exact ⟨_, rfl⟩

/-- **A push leaves its entry on top of the stack**, also if the stack grows, as long as the pointer
is at a whole number of entries then. -/
theorem read_of_push (h : t.push e checked = .next u)
    (hwhole : 4 ∣ t.depth ∨ u.growths = t.growths) :
    u.depth = t.depth + 4 ∧ u.stack.read u.depth = some e := by
  obtain ⟨written, hw, ⟨-, rfl⟩ | ⟨-, grown, depth, hg, rfl⟩⟩ := push_eq_next h
  · exact ⟨rfl, Stack.read_write_self hw⟩
  · have hfour : 4 ∣ t.depth := hwhole.resolve_right (Nat.succ_ne_self _)
    obtain ⟨hpos, hle, hdepth⟩ := Stack.depth_grow hg
    have hsize := Stack.size_grow hg
    have hsame : depth = t.depth + 4 := by omega
    refine ⟨hsame, ?_⟩
    simp only [hsame]
    -- The growth keeps the cells of all entries, the last one included.
    rw [Stack.read_congr hle (by omega) fun i hi => Stack.cell_grow hg (by omega)]
    exact Stack.read_write_self hw

end Thread

/-- A pop into a register goes on, and the register has the entry at the pointer. -/
theorem Task.step_popRegister {k : Task} {t : Thread} {reg : Nat} {e : UInt32}
    (hop : k.opcode? t = some (.popRegister reg)) (hread : t.stack.read t.depth = some e)
    (hreg : reg < t.regs.size) :
    ∃ u, k.step t = .next u ∧ u.depth = t.depth - 4 ∧ u.reg reg = signWord e := by
  refine ⟨_, ?_, ?_, Thread.reg_setReg_self { t with depth := t.depth - 4, pc := t.pc + 1 } _ hreg⟩
  · rw [step_of_opcode hop, perform, Thread.pop, hread]
  · rfl

namespace Engine

variable {c : Config} {e : Engine}

/-- **A register is saved on the stack modulo `2 ^ 32`.** Wherever an attempt of a match pushes a
register, with or without a limit check, and goes on: if the pointer was at a whole number of
entries or the stack did not grow, then after pushes and pops that balance, at a pop of the same
register, the run goes on with the pointer where it was before the push, and with the lower half of
what the register held then, its sign extended. That is what the register held exactly if it was at
least `-2 ^ 31` and less than `2 ^ 31`. -/
theorem register_saved (he : e.Reachable c) :
    ∀ h m subject start output, e.check h subject start output.size = .ok m →
      ∀ a ∈ e.tries h m subject start output, ∀ before t reg checked, a.Trail before t →
        a.task.opcode? t = some (.pushRegister reg checked) → ∀ t₁, a.task.step t = .next t₁ →
        4 ∣ t.depth ∨ t₁.growths = t.growths →
        ∀ past u, a.task.Trail t₁ past u → a.task.opcode? u = some (.popRegister reg) →
          (∀ v ∈ past, t₁.depth ≤ v.depth) → u.depth = t₁.depth →
            ∃ u', a.task.step u = .next u' ∧ u'.depth = t.depth ∧
              u'.reg reg = signWord (lowWord (t.reg reg)) ∧
              (u'.reg reg = t.reg reg ↔
                -2 ^ 31 ≤ (t.reg reg).toInt ∧ (t.reg reg).toInt < 2 ^ 31) := by
  intro h m subject start output hcheck a ha before t reg checked ht hop t₁ hs hwhole past u hu hpop
    hback hdepth
  have hreg : reg < a.task.matcher.object.registers :=
    lt_registers he hcheck ha hop List.mem_cons_self
  have hsize : u.regs.size = a.task.matcher.object.registers :=
    hu.size_regs (Task.size_regs_of_step (fits_of_trail ha ht).1 hs)
  rw [Task.step_of_opcode hop] at hs
  obtain ⟨hpushed, hentry⟩ := Thread.read_of_push hs hwhole
  -- What is pushed and popped in between leaves the entry alone.
  have hread : u.stack.read u.depth = some (lowWord (t.reg reg)) := by
    rw [hdepth, hu.sameUpTo hback _ (Int.le_refl _), hentry]
  obtain ⟨u', hs', hdepth', hvalue⟩ := Task.step_popRegister hpop hread (by omega)
  refine ⟨u', hs', by omega, hvalue, ?_⟩
  rw [hvalue, signWord_lowWord_eq_iff]

end Engine

/-! ### Registers that come back, and registers that do not -/

namespace Sample

/-- Sets the pointer to where the stack is nearly full, and saves a negative number around a push
and a pop. -/
def keeper : Program where
  opcodes := #[.setRegister 2 (-3964), .readStackPointer 2, .setRegister 3 (-5),
    .pushRegister 3 true, .pushPosition, .popPosition, .popRegister 3, .succeed]
  labels := 0
  saved := 2

/-- Saves a number that is one too large for an entry, and matches if it comes back. -/
def overflower : Program where
  opcodes := #[.setRegister 2 2147483647, .advanceRegister 2 1, .pushRegister 2 true,
    .popRegister 2, .onRegister (.lt 2 0) (some ⟨0⟩), .writePosition 0 0, .writePosition 1 0,
    .succeed, .bind ⟨0⟩, .fail]
  labels := 1
  saved := 2

/-- Sets the pointer inside an entry, where the stack is nearly full, saves a number, and matches if
it comes back. -/
def straddler : Program where
  opcodes := #[.setRegister 2 (-3966), .readStackPointer 2, .setRegister 3 5, .pushRegister 3 true,
    .popRegister 3, .onRegister (.lt 3 5) (some ⟨0⟩), .writePosition 0 0, .writePosition 1 0,
    .succeed, .bind ⟨0⟩, .fail]
  labels := 1
  saved := 2

section Run

variable {k : Task} {t₀ : Thread} (hpc : t₀.pc = 0) (hstack : t₀.stack = freshStack)

include hpc hstack

/-- The push makes the stack grow, and another push and a pop come before the pop. All that is asked
of the task is its program, so that the run serves for any engine that has compiled it. -/
theorem run_keeper (hp : k.matcher.program = keeper) (hregs : t₀.regs.size = 4) :
    ∃ before t t₁ t₂ u, k.Trail t₀ before t ∧ k.opcode? t = some (.pushRegister 3 true) ∧
      t.reg 3 = -5 ∧ t.depth = 3964 ∧ k.step t = .next t₁ ∧ t₁.stack.size = 8192 ∧
      t₁.depth = 3968 ∧ k.Trail t₁ [t₂, t₁] u ∧ t₂.depth = 3972 ∧ u.depth = 3968 ∧
      k.opcode? u = some (.popRegister 3) := by
  have hop (t : Thread) {pc : Nat} (ht : t.pc = pc) : k.opcode? t = keeper.opcodes[pc]? := by
    rw [Task.opcode?, hp, ht]
  let b : Thread := { t₀.setReg 2 (-3964 : Int32).toInt64 with depth := 3964, pc := 2 }
  obtain ⟨past, hb⟩ : ∃ past, k.Trail t₀ past b :=
    exists_trail_pointer (-3964) hp rfl rfl hpc (by omega)
  let t := (b.setReg 3 (-5)).advance
  have ht : k.step b = .next t := Task.step_of_opcode (hop b rfl)
  have hentries : t.entries = 991 := by
    change (3964 : Int).toNat / 4 = 991
    rfl
  obtain ⟨t₁, hpush₁, hpushed₁, htidy₁⟩ := exists_pushed
    (tidy_freshStack (t := t) (n := 991) hstack rfl (by decide)) hentries (by decide)
    (lowWord (t.reg 3))
  have hdepth₁ : t₁.depth = 3968 := by
    rw [hpushed₁.eq]
    rfl
  have hpc₁ : t₁.pc = 4 := by
    rw [hpushed₁.eq]
    rfl
  obtain ⟨t₂, hpush₂, hpushed₂, -⟩ := exists_pushed (n := 992) htidy₁
    (by rw [Thread.entries, hdepth₁]; rfl) (by decide) (lowWord t₁.pos)
  have hs₂ : k.step t₁ = .next t₂ := (Task.step_of_opcode (hop t₁ hpc₁)).trans hpush₂
  have hdepth₂ : t₂.depth = 3972 := by
    rw [hpushed₂.eq, hdepth₁]
    rfl
  have hpc₂ : t₂.pc = 5 := by
    rw [hpushed₂.eq, hpc₁]
  obtain ⟨-, hread⟩ := Thread.read_of_push hpush₂ (Or.inl (by rw [hdepth₁]; decide))
  let u : Thread := { t₂ with
    pos := signWord (lowWord t₁.pos), depth := t₂.depth - 4, pc := t₂.pc + 1 }
  have hop₂ : k.opcode? t₂ = some .popPosition := hop t₂ hpc₂
  have hpop : k.step t₂ = .next u := by
    rw [Task.step_of_opcode hop₂, Task.perform, Thread.pop, hread]
  have hpcu : u.pc = 6 := congrArg (· + 1) hpc₂
  have hseg : k.Trail t₁ [t₂, t₁] u := (Task.Trail.start.step hs₂).step hpop
  refine ⟨_, t, t₁, t₂, u, hb.step ht, hop t rfl, ?_, rfl,
    (Task.step_of_opcode (hop t rfl)).trans hpush₁, ?_, hdepth₁, hseg, hdepth₂,
    congrArg (· - 4) hdepth₂, hop u hpcu⟩
  · exact b.reg_setReg_self _ (by change 3 < (t₀.setReg 2 _).regs.size; simp [hregs])
  · rw [hpushed₁.size, show t.stack = freshStack from hstack, hentries]
    decide

/-- The sum of the largest number and one becomes the least number. -/
theorem run_overflower (hp : k.matcher.program = overflower) (hregs : t₀.regs.size = 3)
    (hdepth : t₀.depth = 0) :
    ∃ past t t₁ u, k.Trail t₀ past t ∧ k.opcode? t = some (.pushRegister 2 true) ∧
      t.reg 2 = 2147483648 ∧ k.step t = .next t₁ ∧ k.opcode? t₁ = some (.popRegister 2) ∧
      k.step t₁ = .next u ∧ u.reg 2 = -2147483648 := by
  have hop (t : Thread) {pc : Nat} (ht : t.pc = pc) : k.opcode? t = overflower.opcodes[pc]? := by
    rw [Task.opcode?, hp, ht]
  let a := (t₀.setReg 2 2147483647).advance
  have ha : k.step t₀ = .next a := Task.step_of_opcode (hop t₀ hpc)
  have hpca : a.pc = 1 := congrArg (· + 1) hpc
  have hrega : a.reg 2 = 2147483647 := t₀.reg_setReg_self _ (by omega)
  have hsizea : a.regs.size = 3 := (t₀.size_regs_setReg 2 _).trans hregs
  let t := (a.setReg 2 (a.reg 2 + 1)).advance
  have ht : k.step a = .next t := Task.step_of_opcode (hop a hpca)
  have hpct : t.pc = 2 := congrArg (· + 1) hpca
  have hregt : t.reg 2 = 2147483648 := by
    refine (a.reg_setReg_self _ (by omega)).trans ?_
    rw [hrega]
    rfl
  obtain ⟨t₁, hpush, hpushed, -⟩ := exists_pushed
    (tidy_freshStack (t := t) (n := 0) hstack hdepth (by decide))
    (by rw [Thread.entries, show t.depth = 0 from hdepth]) (by decide) (lowWord (t.reg 2))
  have hpc₁ : t₁.pc = 3 := by
    rw [hpushed.eq, hpct]
  have hsize₁ : t₁.regs.size = 3 := by
    rw [Thread.regs_of_push hpush]
    exact (a.size_regs_setReg 2 _).trans hsizea
  obtain ⟨-, hread⟩ := Thread.read_of_push hpush
    (Or.inl (by rw [show t.depth = 0 from hdepth]; decide))
  obtain ⟨u, hu, -, hvalue⟩ := Task.step_popRegister (hop t₁ hpc₁) hread (by omega)
  refine ⟨_, t, t₁, u, (Task.Trail.start.step ha).step ht, hop t hpct, hregt,
    (Task.step_of_opcode (hop t hpct)).trans hpush, hop t₁ hpc₁, hu, ?_⟩
  rw [hvalue, hregt]
  decide

/-- The growth cuts off the lower half of the entry. The pointer is not at a multiple of four here,
so the entry lies across the boundary of what is copied. -/
theorem run_straddler (hp : k.matcher.program = straddler) (hregs : t₀.regs.size = 4) :
    ∃ past t t₁ u, k.Trail t₀ past t ∧ k.opcode? t = some (.pushRegister 3 true) ∧
      t.reg 3 = 5 ∧ k.step t = .next t₁ ∧ k.opcode? t₁ = some (.popRegister 3) ∧
      k.step t₁ = .next u ∧ u.reg 3 = 0 := by
  have hop (t : Thread) {pc : Nat} (ht : t.pc = pc) : k.opcode? t = straddler.opcodes[pc]? := by
    rw [Task.opcode?, hp, ht]
  let b : Thread := { t₀.setReg 2 (-3966 : Int32).toInt64 with depth := 3966, pc := 2 }
  obtain ⟨past, hb⟩ : ∃ past, k.Trail t₀ past b :=
    exists_trail_pointer (-3966) hp rfl rfl hpc (by omega)
  have hsizeb : b.regs.size = 4 := (t₀.size_regs_setReg 2 _).trans hregs
  let t := (b.setReg 3 5).advance
  have ht : k.step b = .next t := Task.step_of_opcode (hop b rfl)
  have hregt : t.reg 3 = 5 := b.reg_setReg_self _ (by omega)
  have hstackt : t.stack = freshStack := hstack
  have hdeptht : t.depth = 3966 := rfl
  obtain ⟨t₁, hpush⟩ := Thread.exists_push (t := t) (by rw [hdeptht, hstackt]; decide)
    (by rw [hstackt]; decide) (by rw [hstackt]; decide) (lowWord (t.reg 3)) true
  have hsize₁ : t₁.regs.size = 4 := by
    rw [Thread.regs_of_push hpush]
    exact (b.size_regs_setReg 3 _).trans hsizeb
  have hs : k.step t = .next t₁ := (Task.step_of_opcode (hop t rfl)).trans hpush
  obtain ⟨written, hw, hcases⟩ := Thread.push_eq_next hpush
  rw [hdeptht, hstackt] at hw
  rw [hdeptht] at hcases
  obtain ⟨-, -, hslack⟩ := Stack.shape_write hw
  have hfull : written.needsGrowth (3966 + 4) = true := by
    rw [Stack.needsGrowth, Stack.limit, Stack.size_write hw, hslack]
    decide
  obtain ⟨hroom, -⟩ | ⟨-, grown, depth, hg, ht₁⟩ := hcases
  · rw [hfull] at hroom
    cases hroom
  obtain ⟨-, -, hdepth⟩ := Stack.depth_grow hg
  -- The last cell that is kept has the upper half of the entry.
  have hcell : grown.cell 991 = 0 := by
    have hkept : grown.cell 991 = written.cell 991 := Stack.cell_grow hg (by decide)
    have habove := Stack.cell_write_above hw (by decide)
    rw [hkept]
    refine habove.trans ?_
    rw [hregt]
    decide
  have hread : t₁.stack.read t₁.depth = some 0 := by
    have hd : depth = ((4 * (991 + 1) : Nat) : Int) := hdepth
    rw [ht₁, hd, Stack.read_aligned, hcell]
    rw [Stack.inside, Stack.size_grow hg, Stack.size_write hw]
    decide
  have hop₁ : k.opcode? t₁ = some (.popRegister 3) := hop t₁ (by rw [ht₁])
  obtain ⟨u, hu, -, hvalue⟩ := Task.step_popRegister hop₁ hread (by omega)
  refine ⟨_, t, t₁, u, hb.step ht, hop t rfl, hregt, hs, hop₁, hu, ?_⟩
  rw [hvalue]
  decide

end Run

/-- A match of a program comes to push a register with one value, and pops it right after with
another. -/
def Returns (p : Program) (reg : Nat) (pushed popped : Int64) : Prop :=
  ∃ (e : Engine) (m : Matcher) (a : Attempt) (past : List Thread) (t t₁ u : Thread),
    e.Reachable {} ∧ e.check ⟨0⟩ (.latin1 #[97]) 0 2 = .ok m ∧ m.program = p ∧
    a ∈ e.tries ⟨0⟩ m (.latin1 #[97]) 0 #[7, 7] ∧ a.Trail past t ∧
    a.task.opcode? t = some (.pushRegister reg true) ∧ a.task.step t = .next t₁ ∧
    a.task.opcode? t₁ = some (.popRegister reg) ∧ a.task.step t₁ = .next u ∧
    t.reg reg = pushed ∧ u.reg reg = popped

end Sample

/-- A negative number comes back over a growth of the stack at its push. -/
theorem Engine.register_saved_keeper :
    ∃ (e : Engine) (m : Matcher) (a : Attempt) (before past : List Thread) (t t₁ u u' : Thread),
      e.Reachable {} ∧ e.check ⟨0⟩ (.latin1 #[97]) 0 2 = .ok m ∧
      a ∈ e.tries ⟨0⟩ m (.latin1 #[97]) 0 #[7, 7] ∧ a.Trail before t ∧
      a.task.opcode? t = some (.pushRegister 3 true) ∧ a.task.step t = .next t₁ ∧
      4 ∣ t.depth ∧ t₁.stack.size = 8192 ∧ a.task.Trail t₁ past u ∧ past.length = 2 ∧
      a.task.opcode? u = some (.popRegister 3) ∧ (∀ v ∈ past, t₁.depth ≤ v.depth) ∧
      u.depth = t₁.depth ∧ t.reg 3 = -5 ∧ a.task.step u = .next u' ∧ u'.reg 3 = t.reg 3 := by
  obtain ⟨e, m, a, t₀, h, hbegin, hpc, hregs, hstack, -⟩ :=
    Sample.exists_begins (p := Sample.keeper) (n := 126) (by decide +kernel) (by decide)
      (by simp [Sample.keeper, Opcode.InRange, InReach]) (by decide) (by decide) (by decide)
  obtain ⟨before, t, t₁, t₂, u, htrail, hpush, hreg, hdepth, hs, hsize, hdepth₁, hseg, hdepth₂,
    hdepthu, hpop⟩ := Sample.run_keeper hpc hstack h.program_eq hregs
  have ht : a.Trail before t := ⟨_, hbegin, htrail⟩
  have hwhole : 4 ∣ t.depth := by
    rw [hdepth]
    decide
  have hback : ∀ v ∈ [t₂, t₁], t₁.depth ≤ v.depth := by
    intro v hv
    rcases List.mem_cons.mp hv with rfl | hv
    · omega
    · rw [List.mem_singleton.mp hv]
  have hsame : u.depth = t₁.depth := hdepthu.trans hdepth₁.symm
  obtain ⟨u', hu', -, -, hiff⟩ := register_saved h.reachable _ _ _ _ _ h.check a h.mem before t 3
    true ht hpush t₁ hs (Or.inl hwhole) _ u hseg hpop hback hsame
  exact ⟨e, m, a, before, _, t, t₁, u, u', h.reachable, h.check, h.mem, ht, hpush, hs, hwhole,
    hsize, hseg, rfl, hpop, hback, hsame, hreg, hu', hiff.mpr (by rw [hreg]; decide)⟩

/-- **A register need not come back as it was**: a number that is one too large for an entry comes
back as the least one, and one of which the growth cuts off the lower half comes back as zero. -/
theorem Engine.register_not_saved :
    Sample.Returns Sample.overflower 2 2147483648 (-2147483648) ∧
      Sample.Returns Sample.straddler 3 5 0 := by
  constructor
  · obtain ⟨e, m, a, t₀, h, hbegin, hpc, hregs, hstack, hdepth⟩ :=
      Sample.exists_begins (p := Sample.overflower) (n := 105) (by decide +kernel) (by decide)
        (by simp [Sample.overflower, Opcode.InRange, InReach]) (by decide) (by decide) (by decide)
    obtain ⟨past, t, t₁, u, ht, hpush, hreg, hs, hpop, hu, hvalue⟩ :=
      Sample.run_overflower hpc hstack h.program_eq hregs hdepth
    exact ⟨e, m, a, past, t, t₁, u, h.reachable, h.check, h.program, h.mem, ⟨_, hbegin, ht⟩, hpush,
      hs, hpop, hu, hreg, hvalue⟩
  · obtain ⟨e, m, a, t₀, h, hbegin, hpc, hregs, hstack, -⟩ :=
      Sample.exists_begins (p := Sample.straddler) (n := 123) (by decide +kernel) (by decide)
        (by simp [Sample.straddler, Opcode.InRange, InReach]) (by decide) (by decide) (by decide)
    obtain ⟨past, t, t₁, u, ht, hpush, hreg, hs, hpop, hu, hvalue⟩ :=
      Sample.run_straddler hpc hstack h.program_eq hregs
    exact ⟨e, m, a, past, t, t₁, u, h.reachable, h.check, h.program, h.mem, ⟨_, hbegin, ht⟩, hpush,
      hs, hpop, hu, hreg, hvalue⟩

end NativeMatcher
