import NativeMatcher.Proofs.CodeOffsets
import NativeMatcher.Proofs.Reporting

/-!
# What the reported registers mean

A register that a match reports holds the place of a character as a distance in bytes from the end
of the subject, or, if it is unset, the place before the subject. What is reported is an index. A
program that sets its reported registers with two opcodes only – one that stores the place some
characters from the position, one that resets registers – reports for each of them the index it
stored last, and `-1` if it stored none since the start, or since the last start over, or reset the
register afterwards (`NativeMatcher.Engine.captures_recorded`).

To say so a run is told with its past: the threads it has passed before, the latest in front
(`NativeMatcher.Task.Trail`). What is recorded for a register is read off the past
(`NativeMatcher.Task.recorded`), and so is the number of matches reported before
(`NativeMatcher.Task.successes`).
-/

namespace NativeMatcher

/-! ### Programs and their past -/

/-- The register an opcode sets to something that need not be a place in the subject. -/
def Opcode.sets? : Opcode → Option Nat
  | .advanceRegister reg _ | .popRegister reg | .setRegister reg _ | .writeStackPointer reg =>
    some reg
  | _ => none

/-- Whether an opcode changes registers in any way. -/
def Opcode.changesRegisters : Opcode → Bool
  | .writePosition _ _ | .clearRegisters _ _ | .succeed => true
  | op => op.sets?.isSome

/-- The registers that a match reports are only ever set to places, or reset. -/
def Program.RecordsPlaces (p : Program) : Prop :=
  ∀ op ∈ p.opcodes, ∀ reg ∈ op.sets?, p.saved ≤ reg

namespace Task

/-- A run from `t₀` comes to a thread; the threads it has passed before are listed, the latest in
front. -/
inductive Trail (k : Task) (t₀ : Thread) : List Thread → Thread → Prop
  /-- It starts there. -/
  | start : Trail k t₀ [] t₀
  /-- It gets there by a step. -/
  | step {past : List Thread} {t u : Thread} : Trail k t₀ past t → k.step t = .next u →
      Trail k t₀ (t :: past) u

/-- The index of the character at a position. -/
def indexAt (k : Task) (pos : Int64) : Int :=
  (pos.toInt + k.subject.byteSize) / k.mode.charSize

/-- The index recorded last for a register, unless it was reset afterwards or the run has started
over. -/
def recorded (k : Task) (i : Nat) : List Thread → Option Int
  | [] => none
  | t :: past =>
    match k.opcode? t with
    | some .succeed => none
    | some (.writePosition reg offset) =>
      if reg = i then some (k.indexAt t.pos + offset.toInt) else recorded k i past
    | some (.clearRegisters first last) =>
      if first ≤ i ∧ i ≤ last then none else recorded k i past
    | _ => recorded k i past

/-- How many matches were reported. -/
def successes (k : Task) (past : List Thread) : Nat :=
  past.countP fun t => k.opcode? t = some .succeed

/-- If the thread is about to store a place into a register that is reported, it is that of a
character or the end of the subject. -/
def WritesInside (k : Task) (t : Thread) : Prop :=
  ∀ reg offset, k.opcode? t = some (.writePosition reg offset) →
    reg < k.matcher.program.saved →
      0 ≤ k.indexAt t.pos + offset.toInt ∧ k.indexAt t.pos + offset.toInt ≤ k.subject.size

end Task

namespace Attempt

variable (a : Attempt)

/-- The attempt comes to a thread, with a past. -/
def Trail (past : List Thread) (t : Thread) : Prop :=
  ∃ t₀, a.begin = .next t₀ ∧ a.task.Trail t₀ past t

/-- Whatever place the attempt stores into a register that is reported is inside the subject. -/
def WritesInside : Prop := ∀ past t, a.Trail past t → a.task.WritesInside t

end Attempt

/-! ### Indices -/

namespace Task

variable {k : Task} {t u : Thread} {i : Nat}

/-- An unset register is reported as `-1`. -/
theorem captureIndex_before : k.captureIndex k.before = -1 := by
  have hbyte : k.before + k.length = -k.unit := by
    rw [before, Int64.sub_eq_add_neg, Int64.add_assoc, Int64.add_comm, Int64.add_assoc,
      Int64.add_right_neg, Int64.add_zero]
  simp only [captureIndex, hbyte, unit]
  cases k.mode <;> decide

section Within

variable (hmode : k.subject.mode = k.mode) (hsize : k.subject.size < 2 ^ 30)

include hmode hsize

/-- The length of the subject is a small number of bytes. -/
theorem toInt_length : k.length.toInt = k.subject.size * k.mode.charSize := by
  have hle : k.subject.size * k.mode.charSize ≤ k.subject.size * 2 :=
    Nat.mul_le_mul_left _ k.mode.charSize_le
  rw [length, Subject.byteSize, hmode, Int64.toInt_ofNat_of_lt (by omega)]
  exact Int.natCast_mul _ _

omit hsize in
theorem indexAt_eq (pos : Int64) :
    k.indexAt pos = (pos.toInt + k.subject.size * k.mode.charSize) / k.mode.charSize := by
  rw [indexAt, Subject.byteSize, hmode, Int.natCast_mul]

omit hsize in
/-- At the position of an index there is that index. -/
theorem indexAt_position (hbytes : k.subject.byteSize ≤ Memory.maxBlock)
    (hi : i ≤ k.subject.size) : k.indexAt (k.position i) = i := by
  have hpos := k.mode.charSize_pos
  rw [indexAt, toInt_position hmode hbytes hi, Int.sub_add_cancel, Int.natCast_mul,
    Int.mul_ediv_cancel _ (by omega)]

/-- A place is reported as the index of the character it is at. -/
theorem toInt_captureIndex {v : Int64} (h0 : 0 ≤ k.indexAt v) (hle : k.indexAt v ≤ k.subject.size) :
    (k.captureIndex v).toInt = k.indexAt v := by
  have hlength := toInt_length hmode hsize
  rw [indexAt_eq hmode] at h0 hle ⊢
  -- Inside the subject neither the sum nor the half of a word that is kept wraps around.
  have hbyte : (v + k.length).toInt = v.toInt + k.subject.size * k.mode.charSize := by
    rw [Int64.toInt_add, hlength]
    cases hm : k.mode <;> simp only [hm, Mode.charSize] at h0 hle ⊢ <;>
      rw [Int.bmod_eq_of_le (by omega) (by omega)]
  cases hm : k.mode with
  | latin1 =>
    simp only [hm, Mode.charSize] at h0 hle hbyte ⊢
    simp only [captureIndex, hm]
    rw [Int64.toInt_toInt32, hbyte, Int.bmod_eq_of_le (by omega) (by omega)]
    omega
  | uc16 =>
    simp only [hm, Mode.charSize] at h0 hle hbyte ⊢
    simp only [captureIndex, hm]
    rw [Int64.toInt_toInt32, toInt_shiftRight_one, hbyte,
      Int.bmod_eq_of_le (by omega) (by omega)]
    rfl

/-- Storing the place some characters from the position stores their index. -/
theorem indexAt_add_bytes {pos : Int64} {offset : Int32}
    (h0 : 0 ≤ k.indexAt pos + offset.toInt) (hle : k.indexAt pos + offset.toInt ≤ k.subject.size) :
    k.indexAt (pos + k.bytes offset) = k.indexAt pos + offset.toInt := by
  have hlow := offset.le_toInt
  have hhigh := offset.toInt_lt
  rw [indexAt_eq hmode] at h0 hle ⊢
  rw [indexAt_eq hmode]
  have hsum : (pos + k.bytes offset).toInt = pos.toInt + offset.toInt * k.mode.charSize := by
    rw [Int64.toInt_add, toInt_bytes]
    cases hm : k.mode <;> simp only [hm, Mode.charSize] at h0 hle ⊢ <;>
      rw [Int.bmod_eq_of_le (by omega) (by omega)]
  rw [hsum]
  cases hm : k.mode <;> simp only [Mode.charSize] <;> omega

end Within

end Task

/-! ### What moves do to registers -/

/-- A move that does not report a match, and leaves registers with a property. -/
def Move.Leaves (m : Move) (t : Thread) (P : Array Int64 → Prop) : Prop :=
  match m with
  | .go c => P c.regs
  | .succeed => False
  | _ => P t.regs

/-- Setting registers one after the other to the same value. -/
theorem Thread.reg_foldl_setReg {i : Nat} (v : Int64) (rs : List Nat) (t : Thread)
    (hi : i < t.regs.size) :
    (rs.foldl (fun t r => t.setReg r v) t).reg i = if i ∈ rs then v else t.reg i := by
  induction rs generalizing t with
  | nil => simp
  | cons r rs ih =>
    rw [List.foldl_cons, ih (t.setReg r v) (by rwa [size_regs_setReg])]
    by_cases hr : i = r
    · subst hr
      simp [t.reg_setReg_self v hi]
    · simp [hr, t.reg_setReg_of_ne v hr]

theorem Thread.size_regs_foldl_setReg (v : Int64) (rs : List Nat) (t : Thread) :
    (rs.foldl (fun t r => t.setReg r v) t).regs.size = t.regs.size := by
  induction rs generalizing t with
  | nil => rfl
  | cons r rs ih => rw [List.foldl_cons, ih, size_regs_setReg]

theorem Thread.regs_of_push {t u : Thread} {e : UInt32} {checked : Bool}
    (h : t.push e checked = .next u) : u.regs = t.regs := by
  obtain ⟨written, -, ⟨-, rfl⟩ | ⟨-, grown, depth, -, rfl⟩⟩ := push_eq_next h
  · rfl
  · rfl

namespace Task

variable {k : Task} {t u : Thread} {P : Array Int64 → Prop}

/-- What an opcode leaves in a register that it does not set to something else. -/
def registerAfter (k : Task) (op : Opcode) (t : Thread) (i : Nat) : Int64 :=
  match op with
  | .writePosition reg offset => if reg = i then t.pos + k.bytes offset else t.reg i
  | .clearRegisters first last => if first ≤ i ∧ i ≤ last then k.before else t.reg i
  | _ => t.reg i

/-- A branch leaves the registers as they are. -/
theorem leaves_branchMove (dest : Target) (hu : u.regs = t.regs) (h : P t.regs) :
    (k.branchMove dest u).Leaves t P := by
  cases dest with
  | none => exact h
  | some l =>
    simp only [branchMove]
    cases k.place? l with
    | none => exact h
    | some i =>
      change P u.regs
      rwa [hu]

theorem leaves_branchMoveIf (c : Bool) (dest : Target) (h : P t.regs) :
    (k.branchMoveIf c dest t).Leaves t P := by
  cases c with
  | false => exact h
  | true => exact leaves_branchMove dest rfl h

/-- So does a comparison, whichever way it goes. -/
theorem leaves_comparisonMove (same : Option Bool) (dest : Target) (pos : Int64) (h : P t.regs) :
    (k.comparisonMove same dest pos t).Leaves t P := by
  cases same with
  | none => exact h
  | some same =>
    cases same with
    | false => exact leaves_branchMove dest rfl h
    | true => exact h

/-- Most opcodes have nothing to do with the registers. As for the stack pointer, they are dealt
with in one go, and the others one by one. -/
theorem leaves_opcodeMove_of_spares (p : Peek) {op : Opcode} (hop : op.changesRegisters = false)
    (h : P t.regs) : (k.opcodeMove p op t).Leaves t P := by
  cases op with
  | onChar test dest => exact leaves_branchMoveIf _ dest h
  | onPlace test dest => exact leaves_branchMoveIf _ dest h
  | onRegister test dest => exact leaves_branchMoveIf _ dest h
  | checkGreedyLoop dest =>
    simp only [opcodeMove, greedyMove]
    split
    · exact h
    · exact h
    · split
      · exact leaves_branchMove dest rfl h
      · exact h
  | checkNotBackReference reg backward dest =>
    simp only [opcodeMove, backReferenceMove]
    split
    · exact h
    · split
      · exact leaves_branchMove dest rfl h
      · exact leaves_comparisonMove _ dest _ h
  | checkNotBackReferenceIgnoreCase reg backward unicode dest =>
    simp only [opcodeMove, backReferenceIgnoreCaseMove]
    split
    · exact h
    · split
      · exact leaves_branchMove dest rfl h
      · split
        · exact h
        · exact leaves_comparisonMove _ dest _ h
  | goTo dest =>
    cases dest with
    | none => exact h
    | some l =>
      simp only [opcodeMove, goToMove]
      split
      · split <;> exact h
      · exact h
  | load offset dest checked count =>
    simp only [opcodeMove]
    split
    · exact leaves_branchMove dest rfl h
    · unfold loadMove
      split <;> exact h
  | popPosition =>
    simp only [opcodeMove, popMove]
    split <;> exact h
  | pushBacktrack l =>
    simp only [opcodeMove, pushMove]
    split
    · exact h
    · split <;> exact h
  | setPositionFromEnd count =>
    simp only [opcodeMove, positionFromEndMove]
    split
    · exact h
    · split <;> exact h
  | bind | advance | backtrack | fail | pushPosition | pushRegister | readPosition
  | readStackPointer => exact h
  | advanceRegister | popRegister | setRegister | succeed | writePosition | clearRegisters
  | writeStackPointer => cases hop

/-- **What an opcode does to the registers**, the report of a match apart. Their number stays, and a
register that is not set to something else holds the position it is written with, the unset value it
is cleared to, or what it held before. -/
theorem leaves_opcodeMove (p : Peek) {op : Opcode} (hne : op ≠ .succeed) :
    (k.opcodeMove p op t).Leaves t fun regs => regs.size = t.regs.size ∧
      ∀ i < t.regs.size, op.sets? ≠ some i → regs.getD i 0 = k.registerAfter op t i := by
  have hset (reg : Nat) (v : Int64) : (t.setReg reg v).regs.size = t.regs.size ∧
      ∀ i < t.regs.size, some reg ≠ some i → (t.setReg reg v).reg i = t.reg i :=
    ⟨t.size_regs_setReg reg v, fun i _ hi => t.reg_setReg_of_ne v fun h => hi (h ▸ rfl)⟩
  cases op with
  | succeed => exact absurd rfl hne
  | advanceRegister reg delta => exact hset reg _
  | setRegister reg value => exact hset reg _
  | writeStackPointer reg => exact hset reg _
  | popRegister reg =>
    simp only [opcodeMove, popMove]
    split
    · exact hset reg _
    · exact ⟨rfl, fun _ _ _ => rfl⟩
  | writePosition reg offset =>
    refine ⟨t.size_regs_setReg _ _, fun i hi _ => ?_⟩
    simp only [registerAfter]
    split
    · next h =>
      subst h
      exact t.reg_setReg_self _ hi
    · next h => exact t.reg_setReg_of_ne _ fun hcon => h hcon.symm
  | clearRegisters first last =>
    refine ⟨t.size_regs_foldl_setReg _ _, fun i hi _ => ?_⟩
    have hmem : i ∈ List.range' first (last + 1 - first) ↔ first ≤ i ∧ i ≤ last := by
      rw [List.mem_range'_1]
      omega
    refine (t.reg_foldl_setReg k.before _ hi).trans ?_
    simp only [hmem, registerAfter]
  | _ => exact leaves_opcodeMove_of_spares p rfl ⟨rfl, fun _ _ _ => rfl⟩

/-- Only a move that goes on with another cursor changes registers. Pushes, backtracks and branches
act on the rest of the thread. -/
theorem regs_of_leaves (hm : (k.move t).Leaves t P) (hs : k.step t = .next u) : P u.regs := by
  rw [step_eq_act] at hs
  cases hmove : k.move t with
  | go c =>
    rw [hmove] at hs hm
    obtain rfl := Outcome.next.inj hs
    exact hm
  | poll pc =>
    rw [hmove] at hs hm
    obtain ⟨v, hv, hnext⟩ := Outcome.andThen_eq_next.mp hs
    obtain rfl := Outcome.next.inj hnext
    rw [eq_of_poll hv]
    exact hm
  | backtrack depth =>
    rw [hmove] at hs hm
    rw [(backtrack_eq_next hs).2]
    exact hm
  | push e checked =>
    rw [hmove] at hs hm
    rw [Thread.regs_of_push hs]
    exact hm
  | exit =>
    rw [hmove] at hs
    exact absurd hs (exit_ne_next t u)
  | succeed =>
    rw [hmove] at hm
    exact hm.elim
  | stray =>
    rw [hmove] at hs
    cases hs

/-- What an opcode leaves in the registers, the report of a match apart. -/
theorem regs_of_step {op : Opcode} (hop : k.opcode? t = some op) (hne : op ≠ .succeed)
    (hs : k.step t = .next u) : u.regs.size = t.regs.size ∧
      ∀ i < t.regs.size, op.sets? ≠ some i → u.reg i = k.registerAfter op t i := by
  have hmove : k.move t = k.opcodeMove t.peek op t := by rw [move, hop]
  have hleaves := leaves_opcodeMove (k := k) (t := t) t.peek hne
  rw [← hmove] at hleaves
  exact regs_of_leaves hleaves hs

/-- The report of a match is an opcode of its own. -/
theorem move_eq_succeed_iff : k.move t = .succeed ↔ k.opcode? t = some .succeed := by
  unfold move
  cases hop : k.opcode? t with
  | none => simp
  | some op =>
    simp only [Option.some.injEq]
    refine ⟨fun hmove => ?_, fun h => by rw [h]; rfl⟩
    by_contra hne
    have hleaves := leaves_opcodeMove (k := k) (t := t) t.peek hne
    rw [hmove] at hleaves
    exact hleaves

/-! ### What registers show -/

/-- A register shows what was recorded for it. -/
def Shows (k : Task) (v : Int64) : Option Int → Prop
  | none => v = k.before
  | some x => (k.captureIndex v).toInt = x ∧ 0 ≤ x ∧ x ≤ k.subject.size

/-- What is reported for a register is what it shows, and `-1` if that is nothing. -/
theorem Shows.reported {v : Int64} {x? : Option Int} (h : k.Shows v x?) :
    (k.captureIndex v = -1 ↔ x? = none) ∧ (∀ x, x? = some x → (k.captureIndex v).toInt = x) ∧
      (k.captureIndex v = -1 ∨
        0 ≤ (k.captureIndex v).toInt ∧ (k.captureIndex v).toInt ≤ k.subject.size) := by
  cases x? with
  | none =>
    have hv : v = k.before := h
    rw [hv, captureIndex_before]
    exact ⟨by simp, fun x hx => (by cases hx), Or.inl rfl⟩
  | some x =>
    obtain ⟨hx, h0, hle⟩ := h
    refine ⟨⟨fun hone => ?_, fun hcon => (by cases hcon)⟩, fun y hy => ?_, Or.inr ?_⟩
    · rw [hone] at hx
      have hneg : (-1 : Int32).toInt = -1 := rfl
      omega
    · rw [hx, Option.some.inj hy]
    · rw [hx]
      exact ⟨h0, hle⟩

/-- The registers of a thread with a past: those that are reported show what was recorded. -/
structure Logged (k : Task) (past : List Thread) (t : Thread) : Prop where
  /-- There are as many registers as the code has. -/
  size : t.regs.size = k.matcher.object.registers
  /-- They show what was recorded. -/
  shows : ∀ i < k.matcher.program.saved, k.Shows (t.reg i) (k.recorded i past)

/-- With all registers unset nothing is recorded. -/
theorem Logged.of_unset {past : List Thread}
    (hsaved : k.matcher.program.saved ≤ k.matcher.object.registers)
    (hregs : t.regs = Array.replicate k.matcher.object.registers k.before)
    (hnone : ∀ i, k.recorded i past = none) : k.Logged past t := by
  refine ⟨by rw [hregs, Array.size_replicate], fun i hi => ?_⟩
  rw [hnone i, Shows, Thread.reg, hregs]
  simp [Nat.lt_of_lt_of_le hi hsaved]

section Logged

variable (hmode : k.subject.mode = k.mode) (hsize : k.subject.size < 2 ^ 30)

include hmode hsize

/-- What an opcode leaves in a register shows what is then recorded for it. This is the heart of the
invariant: the recursion on the past and the effect of the opcode have the same cases. -/
theorem shows_registerAfter {past : List Thread} {op : Opcode} {i : Nat}
    (hop : k.opcode? t = some op) (hne : op ≠ .succeed) (hi : i < k.matcher.program.saved)
    (hin : k.WritesInside t) (h : k.Shows (t.reg i) (k.recorded i past)) :
    k.Shows (k.registerAfter op t i) (k.recorded i (t :: past)) := by
  cases op with
  | succeed => exact absurd rfl hne
  | writePosition reg offset =>
    simp only [recorded, hop, registerAfter]
    split
    · next hreg =>
      obtain ⟨h0, hle⟩ := hin reg offset hop (hreg ▸ hi)
      have hindex := indexAt_add_bytes hmode hsize h0 hle
      refine ⟨?_, h0, hle⟩
      rw [← hindex] at h0 hle ⊢
      exact toInt_captureIndex hmode hsize h0 hle
    · exact h
  | clearRegisters first last =>
    simp only [recorded, hop, registerAfter]
    split
    · rfl
    · exact h
  | _ =>
    simp only [recorded, hop, registerAfter]
    exact h

/-- **A step keeps what registers show.** The past of the thread determines the registers that
are reported. A step that writes one of them records what it writes, and a restart forgets
everything. -/
theorem Logged.step {past : List Thread} (h : k.Logged past t)
    (hsaved : k.matcher.program.saved ≤ k.matcher.object.registers)
    (hplaces : k.matcher.program.RecordsPlaces) (hin : k.WritesInside t)
    (hs : k.step t = .next u) : k.Logged (t :: past) u := by
  cases hop : k.opcode? t with
  | none =>
    simp only [opcode?] at hop
    simp only [Task.step, hop] at hs
    cases hs
  | some op =>
    by_cases hne : op = .succeed
    · -- A success that goes on starts over.
      subst hne
      rw [step_of_move_succeed (move_eq_succeed_iff.mpr hop)] at hs
      obtain ⟨-, -, -, hregs⟩ := (k.succeed_cases t).1 u hs
      exact .of_unset hsaved hregs fun i => by simp [recorded, hop]
    · obtain ⟨hcount, hregs⟩ := regs_of_step hop hne hs
      refine ⟨hcount.trans h.size, fun i hi => ?_⟩
      have hset : op.sets? ≠ some i := fun hcon =>
        absurd (hplaces op (Array.mem_of_getElem? hop) i hcon) (Nat.not_le_of_lt hi)
      rw [hregs i (by rw [h.size]; omega) hset]
      exact shows_registerAfter hmode hsize hop hne hi hin (h.shows i hi)

end Logged

/-! ### What is in the output -/

theorem successes_cons (k : Task) (t : Thread) (past : List Thread) :
    k.successes (t :: past) =
      if k.opcode? t = some .succeed then k.successes past + 1 else k.successes past := by
  by_cases hop : k.opcode? t = some .succeed <;> simp [successes, hop]

/-- What a thread with a past has reported. -/
structure Tallied (k : Task) (past : List Thread) (t : Thread) : Prop where
  /-- The capture sets. -/
  captures : t.captures = k.successes past
  /-- The place of the next one is after all of them. -/
  outBase : t.outBase = k.successes past * k.matcher.program.saved
  /-- What is left of the output. -/
  remaining : t.outBase + t.remaining = t.output.size
  /-- There is room for one more. -/
  room : k.matcher.program.saved ≤ t.remaining
  /-- Only a run in a global mode reports one and goes on. -/
  once : k.matcher.options.globalMode.isGlobal = false → k.successes past = 0

namespace Tallied

variable {past : List Thread}

theorem countSoFar_eq (h : k.Tallied past t) : k.countSoFar t = k.successes past := by
  rw [countSoFar]
  split
  · exact h.captures
  · next hg => exact (h.once (Bool.eq_false_iff.mpr hg)).symm

/-- One more step keeps the count of what was reported. A report moves on by one capture set, and
the rest of the opcodes report nothing. -/
theorem step (h : k.Tallied past t) (hs : k.step t = .next u) : k.Tallied (t :: past) u := by
  by_cases hop : k.opcode? t = some .succeed
  · have hsuccesses : k.successes (t :: past) = k.successes past + 1 := by
      rw [successes_cons, if_pos hop]
    rw [step_of_move_succeed (move_eq_succeed_iff.mpr hop)] at hs
    obtain ⟨hg, hroom, hsame, -⟩ := (k.succeed_cases t).1 u hs
    have hcaptures : u.captures = t.captures + 1 := hsame.captures
    have houtBase : u.outBase = t.outBase + k.matcher.program.saved := hsame.outBase
    have hremaining : u.remaining = t.remaining - k.matcher.program.saved := hsame.remaining
    have houtput : u.output.size = t.output.size := by
      rw [hsame.output]
      exact k.size_storeCaptures _ _ _ _
    have hleft := h.remaining
    refine ⟨?_, ?_, by omega, by omega, fun hcon => ?_⟩
    · rw [hcaptures, hsuccesses, h.captures]
    · rw [houtBase, hsuccesses, h.outBase, Nat.succ_mul]
    · rw [hg] at hcon
      cases hcon
  · have hsuccesses : k.successes (t :: past) = k.successes past := by
      rw [successes_cons, if_neg hop]
    have hsame := silent_step (k := k) (t := t) fun hmove => hop (move_eq_succeed_iff.mp hmove)
    rw [hs] at hsame
    have hsame : t.SameReport u := hsame
    refine ⟨?_, ?_, ?_, ?_, ?_⟩
    · rw [hsame.captures, hsuccesses, h.captures]
    · rw [hsame.outBase, hsuccesses, h.outBase]
    · rw [hsame.outBase, hsame.remaining, hsame.output, h.remaining]
    · rw [hsame.remaining]
      exact h.room
    · rw [hsuccesses]
      exact h.once

/-- **A success reports the registers**, and they stay in the output until the run ends. Later
reports go behind it, so what is read at the end of the run is what was stored here. -/
theorem getElem?_output (h : k.Tallied past t) (hop : k.opcode? t = some .succeed) {s : Status}
    {v : Thread} (hrun : k.run t = some (.done s v)) {i : Nat}
    (hi : i < k.matcher.program.saved) :
    v.output[k.successes past * k.matcher.program.saved + i]? =
      some (k.captureIndex (t.reg i)) := by
  have hleft := h.remaining
  have hroom := h.room
  have hreport : (k.report t).output[t.outBase + i]? = some (k.captureIndex (t.reg i)) :=
    k.getElem?_storeCaptures _ (by omega) hi
  -- What is stored at the success is before the place of anything stored later.
  rw [← h.outBase, ← hreport]
  rw [run_eq, step_of_move_succeed (move_eq_succeed_iff.mpr hop)] at hrun
  obtain ⟨hnext, hdone⟩ := k.succeed_cases t
  cases hs : k.succeed t with
  | next u =>
    rw [hs] at hrun
    obtain ⟨-, -, hsame, -⟩ := hnext u hs
    have houtput : u.output = (k.report t).output := hsame.output
    have houtBase : u.outBase = t.outBase + k.matcher.program.saved := hsame.outBase
    rw [output_of_run hrun (by omega), houtput]
  | done s' u =>
    rw [hs] at hrun
    obtain ⟨rfl, rfl⟩ := Ending.done.inj (Option.some.inj hrun)
    rw [(hdone _ _ hs).1]
  | stray =>
    rw [hs] at hrun
    cases hrun

end Tallied

/-! ### Along a run -/

variable {t₀ : Thread} {past : List Thread}

/-- A run goes on from every thread it comes to. -/
theorem Trail.run_eq (h : k.Trail t₀ past t) : k.run t₀ = k.run t := by
  induction h with
  | start => rfl
  | step _ hs ih =>
    rw [ih, Task.run_eq, hs]
    rfl

theorem exists_trail_of_steps {n : Nat} (h : k.steps n t₀ = .next t) :
    ∃ past, k.Trail t₀ past t :=
  steps_induct (P := fun t => ∃ past, k.Trail t₀ past t)
    (fun _ _ ⟨_, hp⟩ hs => ⟨_, hp.step hs⟩) ⟨[], .start⟩ h

theorem Trail.tallied (h : k.Trail t₀ past t) (h₀ : k.Tallied [] t₀) : k.Tallied past t := by
  induction h with
  | start => exact h₀
  | step _ hs ih => exact ih.step hs

/-- Along a run the reported registers show what was recorded for them last, restarts included, by
induction on the past. -/
theorem Trail.logged (h : k.Trail t₀ past t) (hmode : k.subject.mode = k.mode)
    (hsize : k.subject.size < 2 ^ 30)
    (hsaved : k.matcher.program.saved ≤ k.matcher.object.registers)
    (hplaces : k.matcher.program.RecordsPlaces)
    (hin : ∀ past t, k.Trail t₀ past t → k.WritesInside t) (h₀ : k.Logged [] t₀) :
    k.Logged past t := by
  induction h with
  | start => exact h₀
  | step hp hs ih => exact ih.step hmode hsize hsaved hplaces (hin _ _ hp) hs

/-- A run has come to each of the successes it has counted. -/
theorem Trail.exists_success (h : k.Trail t₀ past t) {j : Nat} (hj : j < k.successes past) :
    ∃ past' t', k.Trail t₀ past' t' ∧ k.opcode? t' = some .succeed ∧ k.successes past' = j := by
  induction h with
  | start => cases hj
  | @step past t u hp hs ih =>
    rw [successes_cons] at hj
    split at hj
    · next hop =>
      rcases Nat.lt_or_eq_of_le (Nat.le_of_lt_succ hj) with hlt | heq
      · exact ih hlt
      · exact ⟨past, t, hp, hop, heq.symm⟩
    · exact ih hj

/-- **A run comes to every match it counts.** The count goes up by one with each success and with
nothing else, so there is a point in the past for each number below it. -/
theorem exists_success_of_run {s : Status} {v : Thread} (h₀ : k.Tallied [] t₀)
    (hrun : k.run t₀ = some (.done s v)) {n j : Nat} (hn : Engine.countOf s = .ok n)
    (hj : j < n) :
    ∃ past t, k.Trail t₀ past t ∧ k.opcode? t = some .succeed ∧ k.successes past = j := by
  obtain ⟨count, w, hw, hlast⟩ := exists_last_step hrun
  obtain ⟨past, hp⟩ := exists_trail_of_steps hw
  have htally := hp.tallied h₀
  have hstep : k.step w = .done s v := hlast
  by_cases hop : k.opcode? w = some .succeed
  · rw [step_of_move_succeed (move_eq_succeed_iff.mpr hop)] at hstep
    have hcount := ((k.succeed_cases w).2 s v hstep).2 n hn
    rw [htally.countSoFar_eq] at hcount
    rcases Nat.lt_or_eq_of_le (Nat.le_of_lt_succ (hcount ▸ hj)) with hlt | heq
    · exact hp.exists_success hlt
    · exact ⟨past, w, hp, hop, heq.symm⟩
  · have hsilent := silent_step (k := k) (t := w) fun hmove => hop (move_eq_succeed_iff.mp hmove)
    rw [hstep] at hsilent
    have hcount := hsilent.2 n hn
    rw [htally.countSoFar_eq] at hcount
    exact hp.exists_success (hcount ▸ hj)

end Task

/-! ### Along a match -/

namespace Attempt

variable {a : Attempt} {t₀ : Thread}

/-- An attempt begins at the first opcode, with nothing reported and all registers unset. -/
theorem begin_cases (hb : a.begin = .next t₀) :
    a.entry.SameReport t₀ ∧ t₀.pos = a.entry.pos ∧ t₀.pc = 0 ∧
      t₀.regs = Array.replicate a.task.matcher.object.registers a.task.before := by
  have hsilent : a.task.Silent a.entry a.begin := Task.silent_begin a.entry
  rw [hb] at hsilent
  obtain ⟨u, c, hp, rfl⟩ := begin_eq_next hb
  exact ⟨hsilent, congrArg Cursor.pos (Task.cursor_of_poll hp), rfl, rfl⟩

end Attempt

namespace Engine

variable {c : Config} {e : Engine} {h : Handle} {m : Matcher} {subject : Subject} {start : Nat}
  {output : Array Int32}

/-- What the check tells of the task of an attempt: the subject is in its encoding, and there are
registers and room for what it reports. -/
theorem Sane.of_check {n : Nat} (hs : e.Sane c) (hcheck : e.check h subject start n = .ok m) :
    subject.mode = m.options.mode ∧ m.program.saved ≤ n ∧
      m.program.saved ≤ m.object.registers := by
  obtain ⟨hget, hmode, hsaved⟩ := Engine.of_check hcheck
  have hm := hs.compiled h m hget
  obtain ⟨comp, hshape⟩ := hm.shape
  refine ⟨hmode.trans hshape.mode, hshape.saved ▸ hsaved, ?_⟩
  rw [hm.registers_eq]
  exact Compiled.saved_le_registerCount _

section Match

variable (he : e.Reachable c) (hcheck : e.check h subject start output.size = .ok m) {a : Attempt}
  (ha : a ∈ e.tries h m subject start output) {t₀ : Thread} (hb : a.begin = .next t₀)

include he hcheck ha hb

/-- An attempt begins with nothing reported. -/
theorem tallied_of_begin : a.task.Tallied [] t₀ := by
  obtain ⟨-, hroom, -⟩ := he.sane.of_check hcheck
  have hsize := size_output_of_mem_history ha
  obtain ⟨e', origin, output', -, rfl⟩ := exists_kept_of_mem_history ha
  obtain ⟨hsame, -⟩ := Attempt.begin_cases hb
  refine ⟨hsame.captures, ?_, ?_, ?_, fun _ => rfl⟩
  · rw [hsame.outBase, Task.successes, List.countP_nil, Nat.zero_mul]
    rfl
  · rw [hsame.outBase, hsame.remaining, hsame.output]
    exact Nat.zero_add _
  · rw [hsame.remaining]
    exact Nat.le_trans hroom (Nat.le_of_eq hsize.symm)

/-- It begins with nothing recorded. -/
theorem logged_of_begin : a.task.Logged [] t₀ := by
  obtain ⟨-, -, hsaved⟩ := he.sane.of_check hcheck
  rw [← matcher_of_mem_tries ha] at hsaved
  exact .of_unset hsaved (Attempt.begin_cases hb).2.2.2 fun i => rfl

omit he in
/-- If it is an attempt of a match that answers, it ends with the output of the match. -/
theorem exists_run_of_begin {r : Result Nat} (hr : e.exec h subject start output = some r)
    (hstray : r.answer ≠ .error .stray) :
    ∃ s v, a.task.run t₀ = some (.done s v) ∧ r.output = v.output := by
  have hretry (t : Thread) : a.ending ≠ some (.done .retry t) := by
    obtain ⟨e', origin, output', -, rfl⟩ := exists_kept_of_mem_history ha
    exact Attempt.ne_retry_of_begin hb rfl t
  rcases exec_cases hcheck hr hstray with ⟨-, hall⟩ | ⟨b, -, s, v, hend, houtput, -, hbefore⟩
  · obtain ⟨t, ht⟩ := hall a ha
    exact absurd ht (hretry t)
  · rcases hbefore a ha with rfl | ⟨t, ht⟩
    · exact ⟨s, v, (Attempt.ending_of_begin hb).symm.trans hend, houtput⟩
    · exact absurd ht (hretry t)

end Match

/-- **What is reported of a register is what was recorded for it last.** If all places that are
stored into reported registers are inside the subject, and nothing else is stored there, then each
capture set that a match reports has `-1` for the registers that were not set, or were reset, and
otherwise the index that was stored last; and a match reports as many as it counts. A match whose
program goes astray reports nothing, so it is left out. -/
theorem captures_recorded (he : e.Reachable c)
    (hcheck : e.check h subject start output.size = .ok m) (hsize : subject.size < 2 ^ 30)
    (hplaces : m.program.RecordsPlaces)
    (hinside : ∀ a ∈ e.tries h m subject start output, a.WritesInside) :
    (∀ a ∈ e.tries h m subject start output, ∀ past t, a.Trail past t →
      a.task.opcode? t = some .succeed →
      ∀ r, e.exec h subject start output = some r → r.answer ≠ .error .stray →
      ∀ i < m.program.saved,
        ∃ v, r.output[a.task.successes past * m.program.saved + i]? = some v ∧
          (v = -1 ↔ a.task.recorded i past = none) ∧
          (∀ x, a.task.recorded i past = some x → v.toInt = x) ∧
          (v = -1 ∨ 0 ≤ v.toInt ∧ v.toInt ≤ subject.size)) ∧
    (∀ r n, e.exec h subject start output = some r → r.answer = .ok n → ∀ j < n,
      ∃ a ∈ e.tries h m subject start output, ∃ past t, a.Trail past t ∧
        a.task.opcode? t = some .succeed ∧ a.task.successes past = j) := by
  constructor
  · rintro a ha past t ⟨t₀, hb, hp⟩ hop r hr hstray i hi
    obtain ⟨hmode, -, hsaved⟩ := he.sane.of_check hcheck
    -- The attempt got past its first poll, so it is the one that answers.
    obtain ⟨s, v, hrun, houtput⟩ := exists_run_of_begin hcheck ha hb hr hstray
    have htally := hp.tallied (tallied_of_begin he hcheck ha hb)
    have hin : ∀ past t, a.task.Trail t₀ past t → a.task.WritesInside t :=
      fun past t htrail => hinside a ha past t ⟨t₀, hb, htrail⟩
    have hfirst := logged_of_begin he hcheck ha hb
    rw [hp.run_eq] at hrun
    obtain ⟨e', origin, output', -, rfl⟩ := exists_kept_of_mem_history ha
    have hlog := hp.logged hmode hsize hsaved hplaces hin hfirst
    refine ⟨_, ?_, (hlog.shows i hi).reported⟩
    rw [houtput]
    exact htally.getElem?_output hop hrun hi
  · intro r n hr hanswer j hj
    have hstray : r.answer ≠ .error .stray := by
      rw [hanswer]
      exact fun hcon => (by cases hcon)
    rcases exec_cases hcheck hr hstray with ⟨haborted, -⟩ | ⟨a, ha, s, v, hend, -, hcount, -⟩
    · rw [hanswer] at haborted
      cases haborted
    · rw [hanswer] at hcount
      have hcount := countOf_of_answerOf hcount.symm
      cases hb : a.begin with
      | next t₀ =>
        rw [Attempt.ending_of_begin hb] at hend
        obtain ⟨past, t, hp, hop, hj'⟩ := Task.exists_success_of_run
          (tallied_of_begin he hcheck ha hb) hend hcount hj
        exact ⟨a, ha, past, t, ⟨t₀, hb, hp⟩, hop, hj'⟩
      | done s' u =>
        -- The first poll ended the attempt, and nothing was counted before it.
        have hsilent : a.task.Silent a.entry a.begin := Task.silent_begin a.entry
        change a.begin.ending a.task.run = _ at hend
        rw [hb] at hsilent hend
        obtain ⟨rfl, rfl⟩ := Ending.done.inj (Option.some.inj hend)
        have hzero := hsilent.2 n hcount
        obtain ⟨e', origin, output', -, rfl⟩ := exists_kept_of_mem_history ha
        rw [Task.countSoFar] at hzero
        split at hzero
        · exact absurd hj (hzero ▸ Nat.not_lt_zero j)
        · exact absurd hj (hzero ▸ Nat.not_lt_zero j)
      | stray =>
        rw [Attempt.ending_of_stray hb] at hend
        cases hend

end Engine

/-! ### A character and an unset register -/

namespace Sample

/-- Reports a character, and a register that it resets before. -/
def bracket : Program where
  opcodes := #[.writePosition 0 0, .writePosition 1 1, .writePosition 2 0, .clearRegisters 2 2,
    .succeed]
  labels := 0
  saved := 3

theorem exists_compile_bracket :
    ∃ m, bracket.compile { mode := .uc16 } "" Sample.heap = .ok m ∧ m.object.registers = 3 := by
  obtain ⟨m, hm, hregs, -⟩ := Program.exists_compile (p := bracket) (o := { mode := .uc16 })
    (n := 44) (by decide +kernel) (by decide) (by simp [bracket, Opcode.InRange, InReach])
    (by decide) "" Sample.heap
  exact ⟨m, hm, hregs⟩

theorem recordsPlaces_bracket : bracket.RecordsPlaces := by
  simp [Program.RecordsPlaces, bracket, Opcode.sets?]

section Run

variable {k : Task} (hprogram : k.matcher.program = bracket) {t₀ t u : Thread}
  {past : List Thread}

include hprogram

theorem opcode?_bracket (t : Thread) : k.opcode? t = bracket.opcodes[t.pc]? := by
  rw [Task.opcode?, hprogram]

/-- All opcodes but the last go on to the next one and leave the position alone. -/
theorem step_bracket (hpc : t.pc < 4) :
    ∃ u, k.step t = .next u ∧ u.pos = t.pos ∧ u.pc = t.pc + 1 := by
  have hstep (op : Opcode) (hop : bracket.opcodes[t.pc]? = some op) :
      k.step t = k.perform op t := by
    simp only [Task.step, hprogram, hop]
  obtain hpc | hpc | hpc | hpc : t.pc = 0 ∨ t.pc = 1 ∨ t.pc = 2 ∨ t.pc = 3 := by omega
  · exact ⟨_, hstep (.writePosition 0 0) (by rw [hpc]; rfl), rfl, rfl⟩
  · exact ⟨_, hstep (.writePosition 1 1) (by rw [hpc]; rfl), rfl, rfl⟩
  · exact ⟨_, hstep (.writePosition 2 0) (by rw [hpc]; rfl), rfl, rfl⟩
  · exact ⟨_, hstep (.clearRegisters 2 2) (by rw [hpc]; rfl), rfl, rfl⟩

variable (hglobal : k.matcher.options.globalMode = .notGlobal)

include hglobal

/-- The last one ends the run with one match. -/
theorem exists_step_bracket (hpc : t.pc = 4) : ∃ v, k.step t = .done (.success 1) v := by
  simp only [Task.step, hprogram, hpc]
  exact ⟨_, by simp only [bracket, Task.perform, Task.succeed, hglobal]; rfl⟩

/-- The position stays. -/
theorem trail_bracket (h : k.Trail t₀ past t) (hpc : t₀.pc = 0) : t.pos = t₀.pos ∧ t.pc < 5 := by
  induction h with
  | start => exact ⟨rfl, by omega⟩
  | @step past t u _ hs ih =>
    obtain ⟨hpos, hlt⟩ := ih
    by_cases hlast : t.pc < 4
    · obtain ⟨u', hu', hpos', hpc'⟩ := step_bracket hprogram hlast
      obtain rfl := Outcome.next.inj (hs.symm.trans hu')
      exact ⟨hpos'.trans hpos, by omega⟩
    · obtain ⟨v, hv⟩ := exists_step_bracket hprogram hglobal (t := t) (by omega)
      cases hs.symm.trans hv

omit hglobal in
/-- What it has recorded when it comes to its end. -/
theorem exists_trail_bracket (hpc : t₀.pc = 0) :
    ∃ past t, k.Trail t₀ past t ∧ t.pc = 4 ∧ k.successes past = 0 ∧
      k.recorded 0 past = some (k.indexAt t₀.pos) ∧
      k.recorded 1 past = some (k.indexAt t₀.pos + 1) ∧ k.recorded 2 past = none := by
  obtain ⟨t₁, h₁, hpos₁, hpc₁⟩ := step_bracket hprogram (t := t₀) (by omega)
  obtain ⟨t₂, h₂, hpos₂, hpc₂⟩ := step_bracket hprogram (t := t₁) (by omega)
  obtain ⟨t₃, h₃, hpos₃, hpc₃⟩ := step_bracket hprogram (t := t₂) (by omega)
  obtain ⟨t₄, h₄, -, hpc₄⟩ := step_bracket hprogram (t := t₃) (by omega)
  have hop₀ := opcode?_bracket hprogram t₀
  have hop₁ := opcode?_bracket hprogram t₁
  have hop₂ := opcode?_bracket hprogram t₂
  have hop₃ := opcode?_bracket hprogram t₃
  rw [hpc] at hop₀
  rw [hpc₁, hpc] at hop₁
  rw [hpc₂, hpc₁, hpc] at hop₂
  rw [hpc₃, hpc₂, hpc₁, hpc] at hop₃
  refine ⟨[t₃, t₂, t₁, t₀], t₄, (((Task.Trail.start.step h₁).step h₂).step h₃).step h₄,
    by omega, ?_⟩
  simp [Task.successes, Task.recorded, hop₀, hop₁, hop₂, hop₃, bracket, hpos₁]

end Run

/-- The backtrack stack of a new engine. -/
def freshStack : Backtrack.Stack := { capacity := 1024, maxBytes := 67108864, slack := 32 }

/-- A new engine with a program compiled, ready to run it, its backtrack stack as it was made. -/
theorem exists_freshEngine {p : Program} {o : Options} {heap : Nat → UInt64} {m : Matcher}
    (hm : p.compile o "" heap = .ok m) :
    ∃ e : Engine, e.Reachable {} ∧ e.gap = 16 ∧ e.guard.isRaised = false ∧ e.stack = freshStack ∧
      e.store.get? ⟨0⟩ = some m ∧
      ∀ subject start n, subject.mode = o.mode → start ≤ subject.size → p.saved ≤ n →
        e.check ⟨0⟩ subject start n = .ok m := by
  have hw : Config.Words {} := by constructor <;> decide
  obtain ⟨comp, hs⟩ := Compiled.shape_of_compile hm
  obtain ⟨e₀, hnew⟩ : ∃ e, Engine.new {} 16 = .ok (.ok e) := ⟨_, rfl⟩
  have hfresh : e₀.guard.isRaised = false ∧ e₀.stack = freshStack := by
    obtain rfl := Except.ok.inj (Except.ok.inj hnew)
    exact ⟨rfl, rfl⟩
  obtain ⟨e, he, hstore⟩ := Engine.exists_stocked hw (by decide) hnew hm
  have hget : e.store.get? ⟨0⟩ = some m := by
    rw [hstore]
    rfl
  have hgranted : e.permissions.isGranted .nativeExecution m.object.source = true := by
    rw [he.permissions, (Engine.empty_of_new hnew).2]
    rfl
  refine ⟨e, he.reachable, he.gap.trans (Engine.gap_of_new hnew), by rw [he.guard, hfresh.1],
    he.stack.trans hfresh.2, hget, fun subject start n hmode hstart hn => ?_⟩
  rw [Engine.check_of_permitted he.reachable.sane hget hgranted, hs.options, hs.program,
    if_neg (not_not.mpr hmode), if_neg (Nat.not_lt.mpr hstart), if_neg (Nat.not_lt.mpr hn)]

/-- A new engine with a program compiled, ready to run it. -/
theorem exists_engine_of_compile {p : Program} {o : Options} {heap : Nat → UInt64} {m : Matcher}
    (hm : p.compile o "" heap = .ok m) :
    ∃ e : Engine, e.Reachable {} ∧ e.gap = 16 ∧ e.guard.isRaised = false ∧
      e.store.get? ⟨0⟩ = some m ∧
      ∀ subject start n, subject.mode = o.mode → start ≤ subject.size → p.saved ≤ n →
        e.check ⟨0⟩ subject start n = .ok m := by
  obtain ⟨e, he, hgap, hquiet, -, hget, hcheck⟩ := exists_freshEngine hm
  exact ⟨e, he, hgap, hquiet, hget, hcheck⟩

/-- The first call of a program on a new engine, and the one attempt it makes. -/
structure FirstTry (p : Program) (o : Options) (subject : Subject) (start : Nat)
    (output : Array Int32) (e : Engine) (m : Matcher) (a : Attempt) : Prop where
  /-- The engine is new but for the program. -/
  reachable : e.Reachable {}
  /-- The call is in order. -/
  check : e.check ⟨0⟩ subject start output.size = .ok m
  /-- The attempt is made. -/
  mem : a ∈ e.tries ⟨0⟩ m subject start output
  /-- It runs the matcher. -/
  matcher : a.task.matcher = m
  /-- It runs it on the subject. -/
  text : a.task.subject = subject
  /-- The labels have the places they have in the program. -/
  places : a.task.places = p.places
  /-- The matcher is that of the program. -/
  program : m.program = p
  /-- It was compiled with the options. -/
  options : m.options = o
  /-- The encoding is that of the options. -/
  mode : subject.mode = o.mode
  /-- It has the registers of the program. -/
  registers : m.object.registers = p.registerCount
  /-- The attempt tries from the start on. -/
  begins : a.begin = .next (a.task.afresh start a.entry)
  /-- It decides what the call answers. -/
  exec : e.exec ⟨0⟩ subject start output = (e.conclude ⟨0⟩ output a.ending).map
    Engine.Result.counted

/-- A new engine makes a first try of whatever can be compiled, on a new stack. -/
theorem exists_firstTry_freshStack {p : Program} {o : Options} {heap : Nat → UInt64} {m : Matcher}
    (hm : p.compile o "" heap = .ok m) (subject : Subject) (start : Nat) (output : Array Int32)
    (hmode : subject.mode = o.mode) (hstart : start ≤ subject.size)
    (hbytes : subject.byteSize ≤ Memory.maxBlock) (hsaved : p.saved ≤ output.size)
    (hroom : nativeLimit 16 ({} : Config).nativeBudget < nativePointer p.registerCount) :
    ∃ e a guard, FirstTry p o subject start output e m a ∧
      a.entry = a.task.enter start output freshStack guard := by
  obtain ⟨comp, hs⟩ := Compiled.shape_of_compile hm
  obtain ⟨e, he, hgap, hquiet, hstack, -, hcheck⟩ := exists_freshEngine hm
  have hregs := (Compiled.fresh hm).registers_eq
  have hmodes : subject.mode = m.options.mode := by rw [hs.options, hmode]
  have hroom : nativeLimit e.gap e.config.nativeBudget < nativePointer m.object.registers := by
    rw [hgap, he.sane.config, hregs]
    exact hroom
  have hcheck := hcheck subject start output.size hmode hstart hsaved
  refine ⟨e, e.nextAttempt m subject start .direct output, e.beginAttempt.guard,
    ⟨he, hcheck, ?_, rfl, rfl, congrArg Program.places hs.program, hs.program, hs.options, hmode,
      hregs, (Engine.begin_of_room output hmodes hbytes hstart hquiet hroom).1,
      Engine.exec_of_room hcheck hquiet hroom⟩, ?_⟩
  · rw [Engine.tries, Engine.history.eq_1]
    exact List.mem_cons_self
  · rw [← hstack]
    rfl

/-- A new engine makes a first try of whatever can be compiled. -/
theorem exists_firstTry {p : Program} {o : Options} {heap : Nat → UInt64} {m : Matcher}
    (hm : p.compile o "" heap = .ok m) (subject : Subject) (start : Nat) (output : Array Int32)
    (hmode : subject.mode = o.mode) (hstart : start ≤ subject.size)
    (hbytes : subject.byteSize ≤ Memory.maxBlock) (hsaved : p.saved ≤ output.size)
    (hroom : nativeLimit 16 ({} : Config).nativeBudget < nativePointer p.registerCount) :
    ∃ e a, FirstTry p o subject start output e m a := by
  obtain ⟨e, a, -, h, -⟩ := exists_firstTry_freshStack hm subject start output hmode hstart hbytes
    hsaved hroom
  exact ⟨e, a, h⟩

namespace FirstTry

variable {p : Program} {o : Options} {subject : Subject} {start : Nat} {output : Array Int32}
  {e : Engine} {m : Matcher} {a : Attempt} (h : FirstTry p o subject start output e m a)

include h

theorem mode_eq : a.task.mode = o.mode := by
  rw [Task.mode, h.matcher, h.options]

theorem subject_mode : a.task.subject.mode = a.task.mode := by
  rw [h.text, h.mode, h.mode_eq]

theorem program_eq : a.task.matcher.program = p := by
  rw [h.matcher, h.program]

/-- The call answers how many matches the attempt comes to. -/
theorem exec_of_run {n : Nat} {u : Thread} (hn : n ≤ 4294967295)
    (hrun : a.task.run (a.task.afresh start a.entry) = some (.done (.ofCount n) u)) :
    ∃ r, e.exec ⟨0⟩ subject start output = some r ∧ r.answer = .ok n ∧ r.output = u.output := by
  rw [h.exec, Attempt.ending_of_begin h.begins, hrun]
  exact ⟨_, rfl, Engine.answerOf_ofCount hn, rfl⟩

end FirstTry

/-- A new engine with `bracket` compiled, ready to run it on a surrogate pair. -/
theorem exists_engine_bracket :
    ∃ (e : Engine) (m : Matcher), e.Reachable {} ∧ e.gap = 16 ∧ e.guard.isRaised = false ∧
      m.program = bracket ∧ m.options = { mode := .uc16 } ∧ m.object.registers = 3 ∧
      e.check ⟨0⟩ face 0 3 = .ok m := by
  obtain ⟨m, hm, hregs⟩ := exists_compile_bracket
  obtain ⟨comp, hs⟩ := Compiled.shape_of_compile hm
  obtain ⟨e, he, hgap, hquiet, -, hcheck⟩ := exists_engine_of_compile hm
  exact ⟨e, m, he, hgap, hquiet, hs.program, hs.options, hregs,
    hcheck face 0 3 rfl (Nat.zero_le _) (Nat.le_refl 3)⟩

/-- It stores places inside the subject only. -/
theorem writesInside_bracket {e : Engine} {m : Matcher} {output : Array Int32}
    (hprogram : m.program = bracket) (hoptions : m.options = { mode := .uc16 }) :
    ∀ a ∈ e.tries ⟨0⟩ m face 0 output, a.WritesInside := by
  rintro a ha past t ⟨t₀, hb, hp⟩ reg offset hop -
  obtain ⟨-, hpos, hpc, -⟩ := Attempt.begin_cases hb
  obtain ⟨e', origin, output', -, rfl⟩ := Engine.exists_kept_of_mem_history ha
  let k := Task.ofMatcher m face origin
  have hmode : k.subject.mode = k.mode := by
    change _ = m.options.mode
    rw [hoptions]
    rfl
  have hglobal : k.matcher.options.globalMode = .notGlobal := by
    change m.options.globalMode = _
    rw [hoptions]
  have hbytes : face.byteSize ≤ Memory.maxBlock := by decide
  have hindex : k.indexAt t.pos = 0 := by
    rw [(trail_bracket hprogram hglobal hp hpc).1, hpos]
    exact Task.indexAt_position hmode hbytes (Nat.zero_le _)
  have hoffset : offset = 0 ∨ offset = 1 := by
    rw [opcode?_bracket hprogram] at hop
    have hmem := Array.mem_of_getElem? hop
    simp only [bracket, List.mem_toArray, List.mem_cons, Opcode.writePosition.injEq,
      List.not_mem_nil, reduceCtorEq, or_false] at hmem
    rcases hmem with ⟨-, h⟩ | ⟨-, h⟩ | ⟨-, h⟩
    · exact Or.inl h
    · exact Or.inr h
    · exact Or.inl h
  change 0 ≤ k.indexAt t.pos + offset.toInt ∧ k.indexAt t.pos + offset.toInt ≤ face.size
  rw [hindex]
  rcases hoffset with rfl | rfl <;> decide

end Sample

/-- The first unit of a surrogate pair is reported, and a register that was reset. -/
theorem Engine.captures_recorded_bracket :
    ∃ (e : Engine) (m : Matcher) (r : Result Nat), e.Reachable {} ∧
      e.check ⟨0⟩ Sample.face 0 3 = .ok m ∧ m.program.RecordsPlaces ∧
      (∀ a ∈ e.tries ⟨0⟩ m Sample.face 0 #[7, 7, 7], a.WritesInside) ∧
      e.exec ⟨0⟩ Sample.face 0 #[7, 7, 7] = some r ∧ r.answer = .ok 1 ∧
      r.output[0]? = some 0 ∧ r.output[1]? = some 1 ∧ r.output[2]? = some (-1 : Int32) := by
  obtain ⟨e, m, he, hgap, hquiet, hprogram, hoptions, hregs, hpassed⟩ :=
    Sample.exists_engine_bracket
  have hcheck : e.check ⟨0⟩ Sample.face 0 (#[7, 7, 7] : Array Int32).size = .ok m := hpassed
  have hplaces : m.program.RecordsPlaces := by
    rw [hprogram]
    exact Sample.recordsPlaces_bracket
  have hinside : ∀ a ∈ e.tries ⟨0⟩ m Sample.face 0 #[7, 7, 7], a.WritesInside :=
    Sample.writesInside_bracket hprogram hoptions
  let a := e.nextAttempt m Sample.face 0 .direct #[7, 7, 7]
  have ha : a ∈ e.tries ⟨0⟩ m Sample.face 0 #[7, 7, 7] := by
    rw [tries, history.eq_1]
    exact List.mem_cons_self
  have hmode : Sample.face.mode = m.options.mode := by
    rw [hoptions]
    rfl
  have hglobal : m.options.globalMode = .notGlobal := by rw [hoptions]
  have hbytes : Sample.face.byteSize ≤ Memory.maxBlock := by decide
  have hroom : nativeLimit e.gap e.config.nativeBudget < nativePointer m.object.registers := by
    rw [hgap, he.sane.config, hregs]
    decide
  have hb : a.begin = .next (a.task.afresh 0 a.entry) :=
    (begin_of_room #[7, 7, 7] hmode hbytes (Nat.zero_le _) hquiet hroom).1
  have hstart : (a.task.afresh 0 a.entry).pc = 0 := rfl
  obtain ⟨past, t, hp, hpc, hzero, hfirst, hsecond, hthird⟩ :=
    Sample.exists_trail_bracket (k := a.task) hprogram hstart
  have hindex : a.task.indexAt (a.task.afresh 0 a.entry).pos = 0 :=
    Task.indexAt_position (k := a.task) hmode hbytes (Nat.zero_le _)
  rw [hindex] at hfirst hsecond
  have hop : a.task.opcode? t = some .succeed := by
    rw [Sample.opcode?_bracket hprogram, hpc]
    rfl
  obtain ⟨v, hv⟩ := Sample.exists_step_bracket (k := a.task) hprogram hglobal hpc
  have hend : a.ending = some (.done (.success 1) v) := by
    rw [Attempt.ending_of_begin hb, hp.run_eq, Task.run_eq, hv]
    rfl
  have hexec : e.exec ⟨0⟩ Sample.face 0 #[7, 7, 7] =
      some ⟨e.beginAttempt.absorb ⟨0⟩ v, v.output, .ok 1⟩ := by
    rw [exec_of_room hcheck hquiet hroom]
    change (e.conclude ⟨0⟩ #[7, 7, 7] a.ending).map Result.counted = _
    rw [hend]
    rfl
  have hreported := (captures_recorded he hcheck (by decide) hplaces hinside).1 a ha past t
    ⟨_, hb, hp⟩ hop _ hexec fun hcon => (by cases hcon)
  rw [hprogram, hzero] at hreported
  obtain ⟨x, hx, -, hvalue, -⟩ := hreported 0 (by decide)
  obtain ⟨y, hy, -, hvalue', -⟩ := hreported 1 (by decide)
  obtain ⟨z, hz, hunset, -⟩ := hreported 2 (by decide)
  have hx0 : x = 0 := Int32.toInt_inj.mp (hvalue 0 hfirst)
  have hy1 : y = 1 := Int32.toInt_inj.mp (hvalue' 1 hsecond)
  have hz1 : z = -1 := hunset.mpr hthird
  subst hx0 hy1 hz1
  exact ⟨e, m, _, he, hcheck, hplaces, hinside, hexec, rfl, hx, hy, hz⟩

end NativeMatcher
