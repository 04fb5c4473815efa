import NativeMatcher.Proofs.Outcome

/-!
# How large code can be

An instruction takes at most thirteen bytes, and the routines around a program are short lists
of instructions: only the fill of the register file and the stores of the captures grow with the
program, and there are at most `65536` registers. So the routines never make code too large. A
program whose opcodes take less than `2 ^ 30` bytes has code, unless there is something to report
about it (`NativeMatcher.Program.exists_compile`), and for that only its opcodes have to be
emitted.
-/

namespace NativeMatcher

open Assembly Code

/-! ### Instructions -/

namespace X64

/-- An opcode has a prefix, an escape and the opcode itself at most. -/
theorem OpByte.length_bytes_le (o : OpByte) (r x b : UInt8) : (o.bytes r x b).length ≤ 3 := by
  have hopt (q : Prop) [Decidable q] (v : UInt8) : (if q then [] else [v]).length ≤ 1 := by
    split <;> simp
  have hesc : (if o.escape = true then [(0x0F : UInt8)] else []).length ≤ 1 := by
    split <;> simp
  simp only [OpByte.bytes, List.length_append, List.length_singleton]
  exact Nat.add_le_add (Nat.add_le_add (hopt _ _) hesc) (Nat.le_refl 1)

/-- An operand in memory has an index byte and a displacement of four bytes at most, besides the
byte that every operand has. -/
theorem Mem.length_bytes_le (m : Mem) (field : UInt8) : (m.bytes field).length ≤ 6 := by
  have hdisp (f : DispForm) : (f.bytes m.disp).length ≤ 4 := by
    cases f <;> simp [DispForm.bytes]
  have := hdisp m.dispForm
  simp only [Mem.bytes, List.length_append]
  split
  · simp only [List.length_cons, List.length_nil]
    omega
  · split <;> simp only [List.length_cons, List.length_nil] <;> omega

/-- An opcode with its operand has nine bytes at most: prefix, opcode and operand. -/
theorem OpByte.length_withRm_le (o : OpByte) (field : UInt8) (rm : Operand) :
    (o.withRm field rm).length ≤ 9 := by
  cases rm with
  | reg r =>
    have := o.length_bytes_le field 0 r.number
    simp only [OpByte.withRm, List.length_append, List.length_singleton]
    omega
  | mem m =>
    have hop := o.length_bytes_le field ((m.index.map fun p => p.1.number).getD 0) m.base.number
    have hmem := m.length_bytes_le field
    simp only [OpByte.withRm, List.length_append]
    omega

theorem OpByte.length_withReg_le (o : OpByte) (r : Reg) : (o.withReg r).length ≤ 3 :=
  length_bytes_le _ 0 0 r.number

/-- An instruction takes at most thirteen bytes. -/
theorem Instr.length_encode_le (i : Instr) : i.encode.length ≤ 13 := by
  have hrm := OpByte.length_withRm_le
  have hreg := OpByte.length_withReg_le
  cases i with
  | aluRmImm op w dst imm | shiftImm op w dst imm =>
    simp only [encode]
    split
    · grind [length_bytes32]
    · grind [length_bytes32]
  | pushImm imm =>
    simp only [encode]
    split <;> simp
  | branch b disp => cases b <;> simp [encode, Branch.bytes]
  | ret => simp [encode]
  | _ => grind [encode, length_bytes32, length_bytes64]

end X64

namespace Assembly

/-- No line of assembly has more than 13 bytes: nine for an opcode with its operand, and four for an
immediate. -/
theorem Item.size_le (i : Item) : i.size ≤ 13 := by
  cases i with
  | instr i => simpa [size, head, field?] using i.length_encode_le
  | branch b l => cases b <;> simp [size, head, field?, X64.Branch.bytes]
  | declare => simp [size, head, field?]
  | bind l => simp [size, head, field?]
  | stub l => simpa [size, head, field?] using X64.Instr.length_encode_le _
  | storeTarget l =>
    have hlength := X64.OpByte.length_withRm_le (X64.OpByte.sized 0xC7 .w32) 0
      (.mem { base := backtrackSp })
    simp only [size, head, field?, Option.isSome_some, if_true]
    omega

/-- The size of code by its number of lines. -/
theorem codeSize_le (items : List Item) : codeSize items ≤ 13 * items.length := by
  induction items with
  | nil => exact Nat.le_refl _
  | cons i is ih =>
    have := i.size_le
    rw [codeSize_cons, List.length_cons]
    omega

/-! ### Routines -/

theorem length_fillRegisters_le (next count : Nat) : (fillRegisters next count).length ≤ 8 := by
  unfold fillRegisters
  split
  · next hle => simpa [maxUnrolledFill] using hle
  · simp

/-- Captures are stored register by register, with five instructions for each. -/
theorem length_storeCaptures_le (mode : Mode) (g : GlobalMode) (saved : Nat) :
    (storeCaptures mode g saved).length ≤ 5 + 5 * saved := by
  have hone (i : Nat) : (storeCapture mode g i).length ≤ 5 := by
    unfold storeCapture
    cases mode <;> split <;> simp
  have hall : ((List.range saved).flatMap (storeCapture mode g)).length ≤ 5 * saved := by
    induction saved with
    | zero => simp
    | succ n ih =>
      have := hone n
      rw [List.range_succ, List.flatMap_append, List.length_append, List.flatMap_singleton]
      omega
  unfold storeCaptures
  split
  · simp
  · simp only [List.length_append, List.length_cons, List.length_nil]
    omega

/-- The routine for a match grows with the number of registers it stores and with nothing else. -/
theorem length_success_le (mode : Mode) (g : GlobalMode) (saved next : Nat) :
    (success mode g saved next).length ≤ 64 + 5 * saved := by
  have hstore := length_storeCaptures_le mode g saved
  have hstep : (stepOverEmpty mode g next).length ≤ 19 := by
    unfold stepOverEmpty
    split <;> simp [skipPair]
  have hbase : (loadStackBase backtrackSp).length ≤ 8 := by decide
  unfold success
  split
  · split <;> simp only [List.length_append, List.length_cons, List.length_nil, List.length_map] <;>
      omega
  · simp only [List.length_append, List.length_cons, List.length_nil, List.length_map]
    omega

/-- The entry sequence has a bounded length: beyond a few registers it fills the frame in a loop. -/
theorem length_entry_le (mode : Mode) (registers next : Nat) :
    (entry mode registers next).length ≤ 80 := by
  have hfill := length_fillRegisters_le (next + 3) registers
  have hframe : (buildFrame registers).length ≤ 20 := by
    unfold buildFrame
    split <;> simp <;> decide
  have hprevious : (loadPrevious mode).length ≤ 4 := by cases mode <;> decide
  have hpoll : (poll next).length ≤ 8 := by simp [poll, callUnlessAbove]
  simp only [entry, List.length_append, List.length_cons, List.length_nil, List.length_map]
  simp [enterStack, enterSubject]
  omega

/-- The backtrack routine has a bounded length, also with a limit to count against. -/
theorem length_backtrack_le (limit : Option UInt32) (canFallback : Bool) (next : Nat) :
    (backtrack limit canFallback next).length ≤ 40 := by
  have hpoll : (poll next).length ≤ 8 := by simp [poll, callUnlessAbove]
  have hbase : (loadStackBase .rcx).length ≤ 8 := by decide
  have hpop : (popEntry .rax).length ≤ 4 := by decide
  cases limit <;> simp only [backtrack, countBacktrack, List.length_append, List.length_cons,
    List.length_nil, List.length_map] <;> omega

end Assembly

namespace Assembler

/-- A routine has few items, but for the stores of the captures. -/
theorem length_items_le (a : Assembler) {s : Section} (hs : s ∈ sections) :
    (s.items a).length ≤ 80 + 5 * a.saved := by
  simp only [sections, List.mem_cons, List.not_mem_nil, or_false] at hs
  rcases hs with rfl | rfl | rfl | rfl | rfl | rfl | rfl | rfl | rfl
  · exact Nat.le_trans (length_entry_le ..) (Nat.le_add_right _ _)
  · exact Nat.le_trans (length_success_le ..) (Nat.add_le_add_right (by decide) _)
  · have hexit : (exit a.globalMode).length ≤ 80 := by cases a.globalMode <;> decide
    exact Nat.le_trans hexit (Nat.le_add_right _ _)
  · exact Nat.le_trans (length_backtrack_le ..) (by omega)
  · exact Nat.le_trans (show failExit.length ≤ 80 by decide) (Nat.le_add_right _ _)
  · exact Nat.le_trans (show checkPreempt.length ≤ 80 by decide) (Nat.le_add_right _ _)
  · exact Nat.le_trans (show growStack.length ≤ 80 by decide) (Nat.le_add_right _ _)
  · exact Nat.le_trans (show (statusExit ..).length ≤ 80 by simp [statusExit])
      (Nat.le_add_right _ _)
  · exact Nat.le_trans (show (statusExit ..).length ≤ 80 by simp [statusExit])
      (Nat.le_add_right _ _)

/-- No routine is longer than the one that stores captures. -/
theorem length_sectionItems_le (a : Assembler) {s : Section} (hs : s ∈ sections) :
    (a.sectionItems s).length ≤ 80 + 5 * a.saved := by
  unfold sectionItems
  split
  · split
    · exact a.length_items_le hs
    · exact Nat.zero_le _
  · exact a.length_items_le hs

/-- Placing a routine emits code and changes nothing else of the assembler. -/
theorem sameShape_placeSection {a b : Assembler} {s : Section} (h : a.placeSection s = .ok b) :
    SameShape a b := by
  unfold placeSection at h
  split at h
  · exact sameShape_placeIfLinked h
  · exact sameShape_placeAll h

/-- The fixed routines together, by the bound for the longest of them. -/
theorem length_sectionsItems_le (a : Assembler) {ss : List Section} (hss : ss ⊆ sections) :
    (a.sectionsItems ss).length ≤ ss.length * (80 + 5 * a.saved) := by
  induction ss generalizing a with
  | nil => simp [sectionsItems]
  | cons s ss ih =>
    have hone := a.length_sectionItems_le (hss List.mem_cons_self)
    rw [sectionsItems, List.length_append, List.length_cons, Nat.succ_mul]
    cases hb : a.placeSection s with
    | error f => simp only [List.length_nil]; omega
    | ok b =>
      have hrest := ih b fun x hx => hss (List.mem_cons_of_mem _ hx)
      rw [(sameShape_placeSection hb).saved] at hrest
      simp only
      omega

end Assembler

/-! ### Programs -/

namespace Program

open Assembler Compilation

/-- The number of bytes that the opcodes of a program take, if they can be emitted. It is the same
wherever the tables are. -/
def bodySize? (p : Program) (mode : Mode) : Option Nat :=
  match p.body mode fun _ => 0 with
  | .ok c => some c.assembler.buffer.size
  | .error _ => none

/-- What the opcodes of a program come to is the same wherever its tables are, so its size can be
computed with any one choice. -/
theorem exists_body {p : Program} {mode : Mode} {n : Nat} (h : p.bodySize? mode = some n)
    (heap : Nat → UInt64) : ∃ c, p.body mode heap = .ok c ∧ c.assembler.buffer.size = n := by
  have halike := p.body_elsewhere mode (fun _ => 0) heap
  unfold bodySize? at h
  split at h
  · next c hc =>
    rw [hc] at halike
    generalize p.body mode heap = x at halike
    cases halike with
    | ok hd => exact ⟨_, rfl, hd.assembler.size_buffer.trans (Option.some.inj h)⟩
  · cases h

/-- A program that reports more registers than there can be is rejected. -/
theorem saved_le_of_reports {p : Program} {o : Options} (h : (p.reports o).head? = none) :
    p.saved ≤ 65535 := by
  simp only [reports, recordedReports, List.head?_eq_none_iff, List.append_eq_nil_iff] at h
  obtain ⟨⟨⟨-, hsaved, -⟩, -⟩, -⟩ := h
  unfold registerReports at hsaved
  split at hsaved
  · cases hsaved
  · omega

/-- The routines are small, so all that is emitted is small if the code of the opcodes is. There are
nine sections of boundedly many items, and the number of saved registers, on which one of them
depends, has 16 bits. -/
theorem codeSize_emission_lt {p : Program} {o : Options} {n : Nat}
    (hbody : p.bodySize? o.mode = some n) (hn : n < 2 ^ 30)
    (hreports : (p.reports o).head? = none) (heap : Nat → UInt64) :
    codeSize (p.emission o heap) < 2 ^ 31 := by
  obtain ⟨c, hc, rfl⟩ := exists_body hbody heap
  have hbounded := bounded_body hc
  obtain ⟨c₀, hc₀, hc⟩ := bind_eq_ok.mp hc
  have hstart : start p o heap = .ok (c₀.withSettings o.settings) := by rw [start_eq, hc₀]; rfl
  have hsteps : (c₀.withSettings o.settings).steps p p.opcodes.toList =
      .ok (c.withSettings o.settings) := by rw [steps_withSettings, hc]; rfl
  have hlaid := laid_steps (laid_start hstart) hsteps
  have hitems : codeSize (opening ++ (c₀.withSettings o.settings).items p p.opcodes.toList) =
      c.assembler.buffer.size := hlaid.size_buffer.symm
  have hend : codeSize ((c.withSettings o.settings).emission p []) < 2 ^ 30 := by
    have hsaved : c.assembler.saved ≤ 65535 := hbounded.saved ▸ saved_le_of_reports hreports
    unfold Compilation.emission
    split
    · decide
    · have hlength := length_sectionsItems_le
        { (c.withSettings o.settings).assembler with finalized := true }
        (List.Subset.refl sections)
      have hcode := codeSize_le (sectionsItems
        { (c.withSettings o.settings).assembler with finalized := true } sections)
      have hnine : sections.length = 9 := rfl
      simp only [Compilation.withSettings, Assembler.withSettings, hnine] at hlength hcode ⊢
      omega
  rw [Program.emission, hstart]
  simp only [emission_of_steps hsteps, codeSize_append] at hitems ⊢
  omega

/-- **A program of moderate size has code, if there is nothing to report about it.** Its opcodes
have to be emitted to see how large they are; the routines around them never matter. -/
theorem exists_compile {p : Program} {o : Options} {n : Nat}
    (hbody : p.bodySize? o.mode = some n) (hn : n < 2 ^ 30) (hrange : ∀ op ∈ p.opcodes, op.InRange)
    (hreports : (p.reports o).head? = none) (source : String) (heap : Nat → UInt64) :
    ∃ m, p.compile o source heap = .ok m ∧ m.object.registers = p.registerCount ∧
      m.object.buffer.size < 2 ^ 31 := by
  have hsize := codeSize_emission_lt hbody hn hreports heap
  have hfit := hsize
  obtain ⟨c, hc, hfollows⟩ := exists_start p o heap
  rw [emission, hc] at hfit
  have hsteps := hfollows.exists_steps (by simpa using hrange) hfit
  simp only [reports, List.append_assoc, List.head?_append, Option.or_eq_none_iff] at hreports
  rw [hreports.1] at hsteps
  obtain ⟨d, items, hd, hfollows', hsize'⟩ := hsteps
  obtain ⟨b, result, hfinish, hresult⟩ := hfollows'.exists_finish source hsize'
  simp only [List.append_assoc, List.head?_append, hreports.2, Option.none_or] at hresult
  obtain ⟨object, rfl, hregisters⟩ := hresult
  have hm : p.compile o source heap = .ok
      { object := object, program := p, options := o, offsets := d.offsets } := by
    simp only [compile, hc, hd, hfinish, orFault, Bind.bind, Except.bind]
    rfl
  exact ⟨_, hm, hregisters, codeSize_emission hm ▸ hsize⟩

end Program

end NativeMatcher
