import NativeMatcher.Proofs.CharTests
import NativeMatcher.Proofs.Listing
import NativeMatcher.Proofs.Position
import NativeMatcher.Proofs.Represents

/-!
# The code of opcodes

An opcode that works on the position, the character and the capture registers alone – no
backtrack stack, no host – is a short block of instructions. Executing the block does to the
machine what the opcode does to the thread it represents (`NativeMatcher.Follows`): control
leaves for the opcode's target, which is the backtrack routine if it names none, exactly when
the opcode is meant to branch, and goes past the block otherwise; either way the machine then
represents the thread as the opcode leaves it, and nothing else has changed.

| opcodes | what their code has to get right | theorem |
|---|---|---|
| tests of the character | unsigned comparisons at 32 bits | `NativeMatcher.met_iff_holds` |
| tests of the position | signed comparisons, no wrap-around | `NativeMatcher.met_iff_placeHolds` |
| tests of registers | signed comparisons in memory | `NativeMatcher.decides_lowerRegister` |
| moves and loads | scaled offsets, zero extension | `NativeMatcher.follows_load` |
| writes of registers | the frame slot, and no other | `NativeMatcher.follows_write` |

When an opcode is meant to branch is said in its own terms (`NativeMatcher.Opcode.Branches`):
a range has its first and its last character, a place lies before the subject or at its end, in
numbers that do not wrap around. Together they give the code of everything the assembler emits
without an error (`NativeMatcher.Assembler.follows_of_emit`).
-/

namespace NativeMatcher

open Assembly Code X64 X64.Machine

/-! ### What opcodes are meant to do -/

/-- When a test of the character is meant to branch: a range contains what lies between its
ends. -/
def CharTest.Met (mode : Mode) (c : UInt32) : CharTest → Prop
  | .inRange first last => first ≤ c ∧ c ≤ last
  | .notInRange first last => ¬(first ≤ c ∧ c ≤ last)
  | test => test.holds mode c = true

/-- The distance of the place `offset` characters on from the end of the subject, in bytes. -/
def Task.distance (k : Task) (t : Thread) (offset : Int32) : Int :=
  t.pos.toInt + offset.toInt * k.mode.charSize

/-- When a test of the position is meant to branch. The subject ends at distance zero. -/
def PlaceTest.Met (k : Task) (t : Thread) : PlaceTest → Prop
  | .atStart offset => k.distance t offset = -k.subject.byteSize
  | .notAtStart offset => k.distance t offset ≠ -k.subject.byteSize
  | .outside offset => k.distance t offset < -k.subject.byteSize ∨ 0 ≤ k.distance t offset

/-- When a test of a register is meant to branch. -/
def RegisterTest.Met (t : Thread) : RegisterTest → Prop
  | .ge reg value => value.toInt ≤ (t.reg reg).toInt
  | .lt reg value => (t.reg reg).toInt < value.toInt
  | .eqPosition reg => t.reg reg = t.pos

namespace Opcode

/-- When an opcode is meant to branch. -/
def Branches (k : Task) (t : Thread) : Opcode → Prop
  | onChar test _ => test.Met k.mode t.char
  | onPlace test _ => test.Met k t
  | onRegister test _ => test.Met t
  | _ => False

/-- Whether an opcode works on the position, the character and the registers alone, and what it
reads of the subject lies in it. -/
def InPlace (k : Task) (t : Thread) : Opcode → Prop
  | advance _ | advanceRegister .. | onRegister .. | readPosition _ | setRegister ..
  | writePosition .. | clearRegisters .. => True
  | onChar test _ => test.InPlace
  | onPlace (.outside _) _ => ∃ i ≤ k.subject.size, t.pos = k.position i
  | onPlace _ _ => True
  | load offset _ checked count => checked = false ∧ k.Inside (t.pos + k.bytes offset) count
  | setPositionFromEnd count =>
    -(k.bytes count) ≤ t.pos ∨ k.Inside (-(k.bytes count) - k.unit) 1
  | _ => False

end Opcode

/-- Items do to the machine what the opcode does to the thread, with a branch to `dest`. -/
def Follows (offset : Label → UInt32) (items : List Item) (dest : Target) (k : Task) (op : Opcode)
    (t : Thread) (m : Machine) : Prop :=
  (op.Branches k t → k.perform op t = k.branch op.label? t ∧
    ∃ fuel m', execute offset items fuel 0 m = .jump (targetLabel dest) m' ∧
      Represents k t m' ∧ Spares t.regs.size m m') ∧
  (¬op.Branches k t → ∃ t' fuel m', k.perform op t = .next t' ∧
    execute offset items fuel 0 m = .past m' ∧
      Represents k t' m' ∧ Spares t.regs.size m m')

/-! ### Following an opcode -/

section Follow

variable {offset : Label → UInt32} {items : List Item} {dest : Target} {k : Task} {op : Opcode}
  {t : Thread} {m : Machine}

/-- A test is followed by code that decides it. -/
theorem follows_of_decides (h : Represents k t m) {taken : Bool}
    (hd : Decides offset m items dest taken)
    (hb : op.Branches k t ↔ taken = true)
    (hp : k.perform op t = k.branchIf taken op.label? t) :
    Follows offset items dest k op t m := by
  obtain ⟨fuel, m', hm', he⟩ := hd
  refine ⟨fun hbranch => ?_, fun hbranch => ?_⟩
  · obtain rfl := hb.mp hbranch
    exact ⟨hp, fuel, m', he, h.of_agrees hm' t.pc, .of_agrees hm'⟩
  · obtain rfl : taken = false := Bool.eq_false_iff.mpr (hbranch ∘ hb.mpr)
    exact ⟨t.advance, fuel, m', hp, he, h.of_agrees hm' (t.pc + 1), .of_agrees hm'⟩

/-- An opcode that does not branch is followed by code that runs to its end. -/
theorem follows_of_past {t' : Thread} {m' : Machine}
    (he : ∃ fuel, execute offset items fuel 0 m = .past m') (hb : ¬op.Branches k t)
    (hp : k.perform op t = .next t') (hr : Represents k t' m') (hs : Spares t.regs.size m m') :
    Follows offset items dest k op t m := by
  obtain ⟨fuel, he⟩ := he
  exact ⟨fun hbranch => absurd hbranch hb, fun _ => ⟨t', fuel, m', hp, he, hr, hs⟩⟩

/-- A row of instructions runs to its end. -/
theorem follows_instrs (is : List Instr) {t' : Thread}
    (hitems : items = is.map .instr) (his : is.all (fun i => !transfers i) = true)
    (hb : ¬op.Branches k t) (hp : k.perform op t = .next t')
    (hr : Represents k t' (afterAll is m)) (hs : Spares t.regs.size m (afterAll is m)) :
    Follows offset items dest k op t m := by
  have hwalk : walk none (is.map .instr ++ []) m = .past (afterAll is m) := walk_instrs is
  rw [List.append_nil] at hwalk
  have hsteps : (is.map Item.instr).all Item.isStep = true := by
    rw [List.all_map]
    exact his
  refine follows_of_past ?_ hb hp hr hs
  rw [← hwalk]
  exact exists_execute_eq_walk offset m (hitems.trans (List.append_nil _).symm) hsteps

end Follow

/-! ### Scaled operands -/

section Scale

variable {mode : Mode} {k : Task} {count disp : Int32}

/-- A scaled operand is the product itself, since an overflow has no result. -/
theorem toInt_of_scale (h : scale mode count = .ok disp) :
    disp.toInt = count.toInt * mode.charSize := by
  obtain ⟨⟨hlow, hhigh⟩, rfl⟩ := Checked.word_eq_ok_iff.mp h
  have hsize : (Int32.ofNat mode.charSize).toInt = mode.charSize := by
    cases mode <;> rfl
  rw [hsize] at hlow hhigh ⊢
  rw [Int32.toInt_ofInt_of_le (by omega) (by omega)]

/-- A scaled operand is the number of bytes that the thread moves by. -/
theorem toInt64_of_scale (hmode : k.mode = mode) (h : scale mode count = .ok disp) :
    disp.toInt64 = k.bytes count := by
  rw [Task.bytes, hmode, ← toInt_of_scale h, ← Int32.toInt_toInt64, Int64.ofInt_toInt]

/-- The place before the subject, as a number: one character less than the length below zero. -/
theorem Task.toInt_before (hbytes : k.subject.byteSize < 2 ^ 62) :
    k.before.toInt = -k.subject.byteSize - k.mode.charSize := by
  have hchar := k.mode.charSize_le
  have hneg : (-k.length).toInt = -k.subject.byteSize := by
    rw [Int64.toInt_neg, Task.length, Int64.toInt_ofNat_of_lt (by omega),
      Int.bmod_eq_of_le (by omega) (by omega)]
  rw [Task.before, Int64.toInt_sub, hneg, Task.toInt_unit, Int.bmod_eq_of_le (by omega) (by omega)]

/-- Two numbers less than a word apart are told apart by their words. -/
theorem bmod_eq_iff {x y : Int} (h : (x - y).natAbs < 2 ^ 64) (hlow : -2 ^ 63 ≤ y)
    (hhigh : y < 2 ^ 63) : x.bmod (2 ^ 64) = y ↔ x = y := by
  rw [Int.bmod_def]
  split <;> omega

/-- The place before a place is one character less. -/
theorem toInt64_of_scale_sub {less : Int32} (hmode : k.mode = mode)
    (hless : Checked.sub count 1 = .ok less) (hdisp : scale mode less = .ok disp) :
    disp.toInt64 = k.bytes count - k.unit := by
  obtain ⟨⟨hlow, hhigh⟩, rfl⟩ := Checked.word_eq_ok_iff.mp hless
  have hone : (1 : Int32).toInt = 1 := rfl
  rw [hone] at hlow hhigh hdisp
  have hunit : k.unit = Int64.ofInt k.mode.charSize := rfl
  rw [toInt64_of_scale hmode hdisp, Task.bytes, Task.bytes, hunit, ← Int64.ofInt_sub,
    Int32.toInt_ofInt_of_le (by omega) (by omega), Int.sub_mul, Int.one_mul]

theorem toInt64_of_scale_neg {neg : Int32} (hmode : k.mode = mode)
    (hneg : Checked.neg count = .ok neg) (hdisp : scale mode neg = .ok disp) :
    disp.toInt64 = -(k.bytes count) := by
  obtain ⟨⟨hlow, hhigh⟩, rfl⟩ := Checked.word_eq_ok_iff.mp hneg
  rw [toInt64_of_scale hmode hdisp, Task.bytes, Task.bytes,
    Int32.toInt_ofInt_of_le (by omega) (by omega), Int.neg_mul, Int64.ofInt_neg]

theorem toInt64_neg {d : Int32} (h : 0 ≤ d.toInt) : (-d).toInt64 = -d.toInt64 := by
  have hhigh := d.toInt_lt
  apply Int64.toInt_inj.mp
  rw [Int32.toInt_toInt64, Int32.toInt_neg, Int64.toInt_neg, Int32.toInt_toInt64,
    Int.bmod_eq_of_le (by omega) (by omega), Int.bmod_eq_of_le (by omega) (by omega)]

end Scale

/-! ### Tests of characters -/

/-- A test of the character is meant to branch exactly when the thread does. This has content for
ranges, which the thread decides by one comparison of wrapped differences. -/
theorem met_iff_holds {mode : Mode} {c : UInt32} {test : CharTest} (htest : test.InPlace) :
    test.Met mode c ↔ test.holds mode c = true := by
  cases test with
  | inRange first last =>
    rw [CharTest.Met, CharTest.holds, decide_eq_true_eq, sub_le_sub_iff htest]
  | notInRange first last =>
    rw [CharTest.Met, CharTest.holds, decide_eq_true_eq, ← UInt32.not_le, sub_le_sub_iff htest]
  | _ => exact Iff.rfl

/-! ### Tests of the position -/

section Place

variable {offset : Label → UInt32} {k : Task} {t : Thread} {m : Machine} {dest : Target}
  (h : Represents k t m)

include h

theorem regs_leaAt_pos (disp : Int32) :
    (after (.leaAt .w64 .rax pos disp) m).regs .rax = (t.pos + disp.toInt64).toUInt64 := by
  show m.regs pos + 0 + disp.toInt64.toUInt64 = _
  rw [h.pos, UInt64.add_zero]
  rfl

theorem flags_compareStart (disp : Int32) : (afterAll (compareStart disp) m).flags =
    (subWords .w64 (t.pos + disp.toInt64).toUInt64 k.before.toUInt64).2 := by
  show (subWords .w64 ((after (.leaAt .w64 .rax pos disp) m).regs .rax)
    (m.load .w64 m.beforeAddress)).2 = _
  rw [regs_leaAt_pos h, h.before]

theorem decides_compareStart {c : Cond} {disp : Int32} {taken : Bool}
    (hc : c.holds (subWords .w64 (t.pos + disp.toInt64).toUInt64 k.before.toUInt64).2 = taken) :
    Decides offset m ((compareStart disp).map .instr ++ [branchTo c dest]) dest taken :=
  decides_straight _ rfl rfl (by rw [flags_compareStart h, hc])

/-- The test of a place outside the subject is a row of instructions and a branch. -/
theorem exists_outsideTest {o : Int32} {bl : Block}
    (hbl : lowerPlace k.mode dest (.outside o) = .ok bl) :
    ∃ is c, bl.items = is.map .instr ++ [branchTo c dest] ∧ is.all Instr.isQuiet = true ∧
      c.holds (afterAll is m).flags = k.placeHolds t (.outside o) := by
  obtain ⟨disp, hdisp, hbl⟩ := Assembler.bind_eq_ok.mp hbl
  simp only [Task.placeHolds]
  split at hbl
  · next ho =>
    obtain rfl := Except.ok.inj hbl
    rw [if_pos ho]
    refine ⟨[.aluImm .cmp .w64 pos (-disp)], .ge, rfl, rfl, ?_⟩
    have hnonneg : 0 ≤ disp.toInt := by
      rw [toInt_of_scale hdisp]
      exact Int.mul_nonneg (Int32.le_iff_toInt_le.mp ho) (Int.natCast_nonneg _)
    show Cond.ge.holds (subWords .w64 (m.regs pos) (-disp).toInt64.toUInt64).2 = _
    rw [h.pos, holds_ge_place, toInt64_neg hnonneg, toInt64_of_scale rfl hdisp]
  · next ho =>
    obtain rfl := Except.ok.inj hbl
    rw [if_neg ho]
    refine ⟨compareStart disp, .le, rfl, rfl, ?_⟩
    rw [flags_compareStart h, holds_le_place, toInt64_of_scale rfl hdisp]

/-- The code of a test of the position decides it. Tests for the start compare the place before the
one in question, so that the end of the subject need not be looked at. -/
theorem decides_lowerPlace {test : PlaceTest} {bl : Block}
    (hbl : lowerPlace k.mode dest test = .ok bl) :
    Decides offset m bl.items dest (k.placeHolds t test) := by
  cases test with
  | atStart o =>
    obtain ⟨less, hless, hbl⟩ := Assembler.bind_eq_ok.mp hbl
    obtain ⟨disp, hdisp, hbl⟩ := Assembler.bind_eq_ok.mp hbl
    obtain rfl := Except.ok.inj hbl
    refine decides_compareStart h ?_
    rw [holds_e_place, toInt64_of_scale_sub rfl hless hdisp]
    rfl
  | notAtStart o =>
    obtain ⟨less, hless, hbl⟩ := Assembler.bind_eq_ok.mp hbl
    obtain ⟨disp, hdisp, hbl⟩ := Assembler.bind_eq_ok.mp hbl
    obtain rfl := Except.ok.inj hbl
    refine decides_compareStart h ?_
    rw [holds_ne_place, toInt64_of_scale_sub rfl hless hdisp]
    rfl
  | outside o =>
    obtain ⟨is, c, hitems, hquiet, hc⟩ := exists_outsideTest h hbl
    exact decides_straight is hitems hquiet hc

/-- A place is the start exactly if the place before it is the one before the start. -/
theorem pos_add_eq_before_iff (o : Int32) :
    t.pos + (k.bytes o - k.unit) = k.before ↔ k.distance t o = -k.subject.byteSize := by
  have hbytes := h.byteSize
  obtain ⟨hlow, hhigh⟩ := mul_charSize_bounds o k.mode
  have hpos := t.pos.le_toInt
  have hpos' := t.pos.toInt_lt
  have hchar := k.mode.charSize_le
  have hless : (k.bytes o - k.unit).toInt = o.toInt * k.mode.charSize - k.mode.charSize := by
    rw [Int64.toInt_sub, Task.toInt_bytes, Task.toInt_unit,
      Int.bmod_eq_of_le (by omega) (by omega)]
  rw [← Int64.toInt_inj, Int64.toInt_add, hless, Task.toInt_before hbytes,
    bmod_eq_iff (by omega) (by omega) (by omega), Task.distance]
  omega

omit h in
/-- At a position of the subject one comparison is enough: an offset that goes on cannot lead
before the subject, and one that goes back cannot lead to its end. -/
theorem met_outside_iff {o : Int32} {i : Nat} (hbytes : k.subject.byteSize < 2 ^ 62)
    (hmode : k.subject.mode = k.mode) (hi : i ≤ k.subject.size) (hpos : t.pos = k.position i) :
    (PlaceTest.outside o).Met k t ↔ k.placeHolds t (.outside o) = true := by
  have hmax : Memory.maxBlock = 9223372036854775807 := rfl
  have hint := Task.toInt_position hmode (by omega) hi
  rw [← hpos] at hint
  obtain ⟨hlow, hhigh⟩ := mul_charSize_bounds o k.mode
  have hsize : k.subject.byteSize = k.subject.size * k.mode.charSize := by
    rw [Subject.byteSize, hmode]
  have hle := Nat.mul_le_mul_right k.mode.charSize hi
  have ho : 0 ≤ o ↔ 0 ≤ o.toInt := Int32.le_iff_toInt_le
  simp only [PlaceTest.Met, Task.placeHolds, ho]
  split
  · next hnonneg =>
    -- Positions are at most zero, so an offset that goes on can only reach the end.
    have hscaled := Int.mul_nonneg hnonneg (Int.natCast_nonneg k.mode.charSize)
    have hneg : (-(k.bytes o)).toInt = -(o.toInt * k.mode.charSize) := by
      rw [Int64.toInt_neg, Task.toInt_bytes, Int.bmod_eq_of_le (by omega) (by omega)]
    rw [decide_eq_true_eq, Int64.le_iff_toInt_le, hneg, Task.distance]
    omega
  · have hsum : (t.pos + k.bytes o).toInt = k.distance t o := by
      rw [Int64.toInt_add, Task.toInt_bytes, Int.bmod_eq_of_le (by omega) (by omega),
        Task.distance]
    rw [decide_eq_true_eq, Int64.le_iff_toInt_le, hsum, Task.toInt_before hbytes, Task.distance]
    -- Positions are whole characters, so the last place outside is the one before the start.
    have hchar : k.mode.charSize = 1 ∨ k.mode.charSize = 2 := by
      cases k.mode
      · exact .inl rfl
      · exact .inr rfl
    rcases hchar with hchar | hchar
    · rw [hchar] at hint hsize ⊢
      omega
    · rw [hchar] at hint hsize ⊢
      omega

/-- A test of the position is meant to branch exactly when the thread does; in wrapped numbers the
comparisons come out as they do in true ones. -/
theorem met_iff_placeHolds {test : PlaceTest} (htest : (Opcode.onPlace test dest).InPlace k t)
    (hmode : k.subject.mode = k.mode) :
    test.Met k t ↔ k.placeHolds t test = true := by
  cases test with
  | atStart o =>
    simp only [PlaceTest.Met, Task.placeHolds, beq_iff_eq, pos_add_eq_before_iff h]
  | notAtStart o =>
    simp only [PlaceTest.Met, Task.placeHolds, bne_iff_ne, ne_eq, pos_add_eq_before_iff h]
  | outside o =>
    obtain ⟨i, hi, hpos⟩ := htest
    exact met_outside_iff h.byteSize hmode hi hpos

end Place

/-! ### Tests of registers -/

section Register

variable {offset : Label → UInt32} {k : Task} {t : Thread} {m : Machine} {dest : Target}
  (h : Represents k t m)

theorem registerSlot_eq {reg : Nat} (hreg : reg ≤ maxRegister) :
    registerSlot reg = registerOffset reg := if_neg (Nat.not_lt.mpr hreg)

include h

theorem le_maxRegister {reg : Nat} (hreg : reg < t.regs.size) : reg ≤ maxRegister := by
  have := h.size_regs
  omega

/-- A capture register in its frame slot. -/
theorem load_registerSlot {reg : Nat} (hreg : reg < t.regs.size) :
    m.load .w64 (m.address { base := fp, disp := registerSlot reg }) = (t.reg reg).toUInt64 := by
  rw [registerSlot_eq (le_maxRegister h hreg)]
  exact h.registers reg hreg

/-- The code of a test of a register decides it in the frame, without loading the register. -/
theorem decides_lowerRegister {test : RegisterTest}
    (hreg : ∀ r ∈ (lowerRegister dest test).registers, r < t.regs.size) :
    Decides offset m (lowerRegister dest test).items dest (Task.registerHolds t test) := by
  cases test with
  | ge reg value =>
    have hload := load_registerSlot h (hreg reg List.mem_cons_self)
    refine decides_straight [.aluImmStore .cmp .w64 fp (registerSlot reg) value] rfl rfl ?_
    show Cond.ge.holds (subWords .w64 (m.load .w64 (m.address _)) value.toInt64.toUInt64).2 = _
    rw [hload, holds_ge_place]
    rfl
  | lt reg value =>
    have hload := load_registerSlot h (hreg reg List.mem_cons_self)
    refine decides_straight [.aluImmStore .cmp .w64 fp (registerSlot reg) value] rfl rfl ?_
    show Cond.l.holds (subWords .w64 (m.load .w64 (m.address _)) value.toInt64.toUInt64).2 = _
    rw [hload, holds_l_place]
    rfl
  | eqPosition reg =>
    have hload := load_registerSlot h (hreg reg List.mem_cons_self)
    refine decides_straight [.aluLoad .cmp .w64 pos fp (registerSlot reg)] rfl rfl ?_
    show Cond.e.holds (subWords .w64 (m.regs pos) (m.load .w64 (m.address _))).2 = _
    rw [h.pos, hload, holds_e_place, Task.registerHolds, BEq.comm]

omit h in
/-- A test of a register is meant to branch exactly when the thread does: a comparison of words with
a sign. -/
theorem met_iff_registerHolds (test : RegisterTest) :
    test.Met t ↔ Task.registerHolds t test = true := by
  cases test with
  | ge reg value =>
    simp only [RegisterTest.Met, Task.registerHolds, decide_eq_true_eq, Int64.le_iff_toInt_le,
      Int32.toInt_toInt64]
  | lt reg value =>
    simp only [RegisterTest.Met, Task.registerHolds, decide_eq_true_eq, Int64.lt_iff_toInt_lt,
      Int32.toInt_toInt64]
  | eqPosition reg => simp only [RegisterTest.Met, Task.registerHolds, beq_iff_eq]

end Register

/-! ### Opcodes that do not branch -/

/-- Setting a register to what it holds changes nothing. -/
theorem Thread.setReg_reg (t : Thread) (i : Nat) : t.setReg i (t.reg i) = t := by
  have hregs : t.regs.setIfInBounds i (t.reg i) = t.regs := by
    apply Array.ext
    · simp
    · intro j hj hj'
      rw [Array.getElem_setIfInBounds hj']
      split
      · next hij =>
        obtain rfl := hij
        simp [Thread.reg, hj']
      · rfl
  rw [Thread.setReg, hregs]

section Effect

variable {offset : Label → UInt32} {items : List Item} {dest : Target} {k : Task} {op : Opcode}
  {t : Thread} {m : Machine} {address : UInt64} (h : Represents k t m)

include h

/-- Instructions that store a capture register. -/
theorem follows_write (is : List Instr) {i : Nat} {v : Int64} (hitems : items = is.map .instr)
    (his : is.all (fun i => !transfers i) = true) (hb : ¬op.Branches k t)
    (hp : k.perform op t = .next (t.setReg i v).advance) (hi : i < t.regs.size)
    (hm : Agrees (m.store .w64 (m.registerAddress i) v.toUInt64) (afterAll is m)) :
    Follows offset items dest k op t m := by
  obtain ⟨hr, hs⟩ := h.write hi v
  exact follows_instrs is hitems his hb hp (hr.of_agrees hm _) (hs.trans (.of_agrees hm))

/-- Moving the position is one addition, or no code at all for a distance of zero. -/
theorem follows_advance {next : Nat} {isBound : Label → Bool} {count : Int32} {bl : Block}
    (hbl : lower k.mode next address isBound (.advance count) = .ok bl) :
    Follows offset bl.items dest k (.advance count) t m := by
  simp only [lower] at hbl
  split at hbl
  · next hzero =>
    obtain rfl := Except.ok.inj hbl
    refine follows_instrs [] rfl rfl id rfl ?_ (.of_agrees (.refl m))
    rw [hzero, Task.bytes_zero, Int64.add_zero]
    exact h.of_agrees (.refl m) _
  · obtain ⟨disp, hdisp, hbl⟩ := Assembler.bind_eq_ok.mp hbl
    obtain rfl := Except.ok.inj hbl
    have hsum : (addWords .w64 (m.regs pos) disp.toInt64.toUInt64).1 =
        (t.pos + k.bytes count).toUInt64 := by
      rw [addWords_place, h.pos, toInt64_of_scale rfl hdisp]
      rfl
    obtain ⟨hr, hs⟩ := h.setPos (t.pos + k.bytes count) (t.pc + 1)
    rw [← hsum] at hr hs
    have hflags := agrees_setFlags (.refl (m.setReg .w64 pos
      (addWords .w64 (m.regs pos) disp.toInt64.toUInt64).1))
      (addWords .w64 (m.regs pos) disp.toInt64.toUInt64).2
    exact follows_instrs [.aluImm .add .w64 pos disp] rfl rfl id rfl (hr.of_agrees hflags _)
      (hs.trans (.of_agrees hflags))

theorem follows_readPosition {reg : Nat} (hreg : reg < t.regs.size) :
    Follows offset [.instr (.load .w64 pos fp (registerSlot reg))] dest k (.readPosition reg) t
      m := by
  obtain ⟨hr, hs⟩ := h.setPos (t.reg reg) (t.pc + 1)
  rw [← load_registerSlot h hreg] at hr hs
  exact follows_instrs [.load .w64 pos fp (registerSlot reg)] rfl rfl id rfl hr hs

theorem follows_setRegister {reg : Nat} {value : Int32} (hreg : reg < t.regs.size) :
    Follows offset [.instr (.storeImm .w64 fp (registerSlot reg) value)] dest k
      (.setRegister reg value) t m := by
  refine follows_write h [.storeImm .w64 fp (registerSlot reg) value] rfl rfl id rfl hreg ?_
  rw [registerSlot_eq (le_maxRegister h hreg)]
  exact .refl _

/-- So is counting in a register, but in the frame. -/
theorem follows_advanceRegister {reg : Nat} {delta : Int32} (hreg : reg < t.regs.size) :
    Follows offset (if delta = 0 then [] else
      [.instr (.aluImmStore .add .w64 fp (registerSlot reg) delta)])
      dest k (.advanceRegister reg delta) t m := by
  split
  · next hzero =>
    refine follows_instrs [] rfl rfl id rfl ?_ (.of_agrees (.refl m))
    have hsame : t.setReg reg (t.reg reg + delta.toInt64) = t := by
      rw [hzero]
      exact (congrArg (t.setReg reg) (Int64.add_zero _)).trans (t.setReg_reg reg)
    rw [hsame]
    exact h.of_agrees (.refl m) _
  · refine follows_write h [.aluImmStore .add .w64 fp (registerSlot reg) delta] rfl rfl id
      rfl hreg ?_
    have hload := h.registers reg hreg
    rw [registerSlot_eq (le_maxRegister h hreg)]
    show Agrees _ ((m.store .w64 (m.registerAddress reg) (addWords .w64
      (m.load .w64 (m.registerAddress reg)) delta.toInt64.toUInt64).1).setFlags _)
    rw [hload, addWords_place]
    exact agrees_setFlags (.refl _) _

/-- The position is stored as it is, or first moved in a free register. -/
theorem follows_writePosition {next : Nat} {isBound : Label → Bool} {reg : Nat} {count : Int32}
    {bl : Block} (hbl : lower k.mode next address isBound (.writePosition reg count) = .ok bl)
    (hregs : ∀ r ∈ bl.registers, r < t.regs.size) :
    Follows offset bl.items dest k (.writePosition reg count) t m := by
  simp only [lower] at hbl
  split at hbl
  · next hzero =>
    obtain rfl := Except.ok.inj hbl
    have hreg := hregs reg List.mem_cons_self
    refine follows_write h [.store .w64 pos fp (registerSlot reg)] rfl rfl id rfl hreg ?_
    rw [hzero, Task.bytes_zero, Int64.add_zero, ← h.pos, registerSlot_eq (le_maxRegister h hreg)]
    exact .refl _
  · obtain ⟨disp, hdisp, hbl⟩ := Assembler.bind_eq_ok.mp hbl
    obtain rfl := Except.ok.inj hbl
    have hreg := hregs reg List.mem_cons_self
    refine follows_write h [.leaAt .w64 .rax pos disp,
      .store .w64 .rax fp (registerSlot reg)] rfl rfl id rfl hreg ?_
    rw [← toInt64_of_scale rfl hdisp, registerSlot_eq (le_maxRegister h hreg),
      ← regs_leaAt_pos h disp]
    exact ⟨rfl, fun r ha _ => m.regs_setReg_of_ne ha⟩

/-- Stores of the same word, one register after the other. -/
theorem clear_registers {regs : List Nat} (hrax : m.regs .rax = k.before.toUInt64)
    (hregs : ∀ r ∈ regs, r < t.regs.size) :
    Represents k (regs.foldl (fun t r => t.setReg r k.before) t)
        (afterAll (regs.map fun r => .store .w64 .rax fp (registerSlot r)) m) ∧
      Spares t.regs.size m
        (afterAll (regs.map fun r => .store .w64 .rax fp (registerSlot r)) m) := by
  induction regs generalizing t m with
  | nil => exact ⟨h, .of_agrees (.refl m)⟩
  | cons r regs ih =>
    have hr := hregs r List.mem_cons_self
    obtain ⟨hr₁, hs₁⟩ := h.write hr k.before
    have hstore : after (.store .w64 .rax fp (registerSlot r)) m =
        m.store .w64 (m.registerAddress r) k.before.toUInt64 := by
      rw [registerSlot_eq (le_maxRegister h hr), ← hrax]
      rfl
    rw [← hstore] at hr₁ hs₁
    -- A store changes no register of the processor, so `rax` still holds the word.
    obtain ⟨hr₂, hs₂⟩ := ih hr₁ hrax fun s hs => by
      rw [t.size_regs_setReg]
      exact hregs s (List.mem_cons_of_mem _ hs)
    rw [t.size_regs_setReg] at hs₂
    exact ⟨hr₂, hs₁.trans hs₂⟩

/-- Registers are reset by storing the place before the subject into one after the other, with a
single load in front. -/
theorem follows_clearRegisters {first last : Nat}
    (hregs : ∀ r ∈ List.range' first (last + 1 - first), r < t.regs.size) :
    Follows offset (.instr (loadSlot .rax .beforeStart) ::
      (List.range' first (last + 1 - first)).map fun r =>
        Item.instr (.store .w64 .rax fp (registerSlot r)))
      dest k (.clearRegisters first last) t m := by
  have hload := agrees_after (m := m) (i := loadSlot .rax .beforeStart) rfl
  have hrax : (after (loadSlot .rax .beforeStart) m).regs .rax = k.before.toUInt64 :=
    (m.regs_setReg_self .w64 .rax _).trans h.before
  obtain ⟨hr, hs⟩ := clear_registers (h.of_agrees hload t.pc) hrax hregs
  refine follows_instrs (loadSlot .rax .beforeStart ::
    (List.range' first (last + 1 - first)).map fun r => .store .w64 .rax fp (registerSlot r))
    ?_ ?_ id rfl (hr.of_agrees (.refl _) _) (Spares.trans (.of_agrees hload) hs)
  · rw [List.map_cons, List.map_map]
    rfl
  · simp [transfers, loadSlot, Instr.load, Instr.store]

omit h in
theorem transfers_loadChars {mode : Mode} {disp : Int32} {count : Nat} {i : Instr}
    (hi : loadChars? mode disp count = some i) : transfers i = false := by
  unfold loadChars? at hi
  split at hi
  all_goals first | cases hi; rfl | cases hi

/-- A load that stays inside the subject brings in the characters that the thread sees, lowest byte
first and extended with zeros. -/
theorem follows_load {next : Nat} {isBound : Label → Bool} {o : Int32} {dest' : Target}
    {count : Nat} {bl : Block}
    (hbl : lower k.mode next address isBound (.load o dest false count) = .ok bl)
    (herror : bl.error = none) (hinside : k.Inside (t.pos + k.bytes o) count) :
    Follows offset bl.items dest k (.load o dest' false count) t m := by
  obtain ⟨disp, hdisp, hbl⟩ := Assembler.bind_eq_ok.mp hbl
  rw [← toInt64_of_scale rfl hdisp] at hinside
  cases hi : loadChars? k.mode disp count with
  | none =>
    rw [hi] at hbl
    obtain rfl := Except.ok.inj hbl
    cases herror
  | some i =>
    rw [hi] at hbl
    obtain rfl := Except.ok.inj hbl
    obtain ⟨c, hc, hafter⟩ := after_loadChars h hi hinside
    obtain ⟨hr, hs⟩ := h.setChar c (t.pc + 1)
    rw [← hafter] at hr hs
    have hp : k.perform (.load o dest' false count) t =
        .next { t with char := c, pc := t.pc + 1 } := by
      rw [toInt64_of_scale rfl hdisp] at hc
      simp only [Task.perform, Task.load, hc, Bool.false_and, Bool.false_eq_true, if_false]
    refine follows_instrs [i] rfl ?_ id hp hr hs
    simp [transfers_loadChars hi]

omit h in
theorem after_loadConst (dst : Reg) (v : UInt64) (m : Machine) :
    ∃ f, after (.loadConst .w64 dst v) m = (m.setReg .w64 dst v).setFlags f := by
  obtain ⟨f, hf⟩ := Instr.exec_loadConst .w64 dst v 0 m
  exact ⟨f, congrArg Prod.fst hf⟩

omit h in
theorem transfers_loadConst (w : Width) (dst : Reg) (v : UInt64) :
    transfers (.loadConst w dst v) = false := by
  unfold Instr.loadConst
  split_ifs <;> rfl

omit h in
theorem exists_loadPrevious (mode : Mode) :
    ∃ i, loadChars? mode (Int32.ofInt (-(mode.charSize : Int))) 1 = some i := by
  cases mode
  · exact ⟨_, rfl⟩
  · exact ⟨_, rfl⟩

/-- Moving to a place and loading the character before it. -/
theorem moved_of_loadPrevious {p : Int64} {i : Instr}
    (hi : loadChars? k.mode (Int32.ofInt (-(k.mode.charSize : Int))) 1 = some i)
    (hinside : k.Inside (p - k.unit) 1) (pc : Nat) :
    ∃ c, k.chars? (p - k.unit) 1 = some c ∧
      Represents k { t with pos := p, char := c, pc := pc }
        (after i (after (.loadConst .w64 pos p.toUInt64) m)) ∧
      Spares t.regs.size m (after i (after (.loadConst .w64 pos p.toUInt64) m)) := by
  obtain ⟨f, hconst⟩ := after_loadConst pos p.toUInt64 m
  obtain ⟨hr, hs⟩ := h.setPos p t.pc
  have hflags := agrees_setFlags (.refl (m.setReg .w64 pos p.toUInt64)) f
  have hr := hr.of_agrees hflags t.pc
  have hs := hs.trans (.of_agrees hflags)
  rw [← hconst] at hr hs
  have hback : p + (Int32.ofInt (-(k.mode.charSize : Int))).toInt64 = p - k.unit := by
    rw [Int64.sub_eq_add_neg, Task.unit]
    cases k.mode <;> rfl
  rw [← hback] at hinside ⊢
  obtain ⟨c, hc, hafter⟩ := after_loadChars hr hi hinside
  obtain ⟨hr', hs'⟩ := hr.setChar c pc
  rw [← hafter] at hr' hs'
  exact ⟨c, hc, hr', hs.trans hs'⟩

/-- The position is moved, and the character before it loaded, unless it is at the limit or
beyond it. -/
theorem exists_execute_setPositionFromEnd (offset : Label → UInt32) (next : Nat) (limit : Int32)
    {i : Instr} (hi : loadChars? k.mode (Int32.ofInt (-(k.mode.charSize : Int))) 1 = some i) :
    ∃ fuel, execute offset
        ([Item.declare, .instr (.aluImm .cmp .w64 pos limit), .branch (.jcc .ge) ⟨next⟩,
          .instr (.loadConst .w64 pos limit.toInt64.toUInt64)]
          ++ (loadPrevious k.mode).map .instr ++ [Item.bind ⟨next⟩]) fuel 0 m =
      .past (if limit.toInt64 ≤ t.pos then after (.aluImm .cmp .w64 pos limit) m
        else after i (after (.loadConst .w64 pos limit.toInt64.toUInt64)
          (after (.aluImm .cmp .w64 pos limit) m))) := by
  have hflags : Cond.ge.holds (after (.aluImm .cmp .w64 pos limit) m).flags =
      decide (limit.toInt64 ≤ t.pos) := by
    show Cond.ge.holds (subWords .w64 (m.regs pos) limit.toInt64.toUInt64).2 = _
    rw [h.pos, holds_ge_place]
  have hwalk : walk (some ⟨next⟩) [.declare, .instr (.aluImm .cmp .w64 pos limit),
      .branch (.jcc .ge) ⟨next⟩, .instr (.loadConst .w64 pos limit.toInt64.toUInt64),
      .instr i] m = .past (if limit.toInt64 ≤ t.pos then after (.aluImm .cmp .w64 pos limit) m
        else after i (after (.loadConst .w64 pos limit.toInt64.toUInt64)
          (after (.aluImm .cmp .w64 pos limit) m))) := by
    rw [walk_declare, walk_instr]
    -- The branch over the rest is taken at the limit and beyond it.
    split
    · next hle => rw [walk_skip_of_true (hflags.trans (decide_eq_true hle))]
    · next hle =>
      rw [walk_branch_of_false (hflags.trans (decide_eq_false hle)), walk_instr, walk_instr]
      rfl
  rw [← hwalk]
  refine exists_execute_eq_walk offset m ?_ ?_
  · have hprevious : loadPrevious k.mode = [i] := by rw [loadPrevious, hi, Option.toList_some]
    rw [hprevious]
    rfl
  · show (!transfers (.loadConst .w64 pos limit.toInt64.toUInt64) && (!transfers i && true)) = _
    rw [transfers_loadConst, transfers_loadChars hi]
    rfl

/-- The position is moved towards the end unless it is there already, and the character before it is
loaded anew. -/
theorem follows_setPositionFromEnd {next : Nat} {isBound : Label → Bool} {count : Int32}
    {bl : Block} (hbl : lower k.mode next address isBound (.setPositionFromEnd count) = .ok bl)
    (hplace : -(k.bytes count) ≤ t.pos ∨ k.Inside (-(k.bytes count) - k.unit) 1) :
    Follows offset bl.items dest k (.setPositionFromEnd count) t m := by
  obtain ⟨neg, hneg, hbl⟩ := Assembler.bind_eq_ok.mp hbl
  obtain ⟨limit, hlimit, hbl⟩ := Assembler.bind_eq_ok.mp hbl
  obtain rfl := Except.ok.inj hbl
  have hp := toInt64_of_scale_neg rfl hneg hlimit
  obtain ⟨i, hi⟩ := exists_loadPrevious k.mode
  have hcmp := agrees_after (m := m) (i := .aluImm .cmp .w64 pos limit) rfl
  have he := exists_execute_setPositionFromEnd h offset next limit hi
  rw [← hp] at hplace
  by_cases hle : limit.toInt64 ≤ t.pos
  · rw [if_pos hle] at he
    have hperform : k.perform (.setPositionFromEnd count) t = .next t.advance := by
      simp only [Task.perform, Task.positionFromEnd, ← hp, if_pos hle]
    exact follows_of_past he id hperform (h.of_agrees hcmp _) (.of_agrees hcmp)
  · rw [if_neg hle] at he
    obtain ⟨c, hc, hr, hs⟩ := moved_of_loadPrevious (h.of_agrees hcmp t.pc) hi
      (hplace.resolve_left hle) (t.pc + 1)
    have hperform : k.perform (.setPositionFromEnd count) t =
        .next { t with pos := limit.toInt64, char := c, pc := t.pc + 1 } := by
      simp only [Task.perform, Task.positionFromEnd, ← hp, if_neg hle, hc]
    exact follows_of_past he id hperform hr (Spares.trans (.of_agrees hcmp) hs)

end Effect

/-! ### Emitted opcodes -/

namespace Assembler

variable {a b : Assembler}

theorem registers_le_touch (a : Assembler) (r : Nat) : a.registers ≤ (a.touch r).registers := by
  unfold touch
  split
  · exact Nat.le_refl _
  · exact Nat.le_max_left _ _

/-- A register that was touched without an error is in the register file. -/
theorem of_touch {r : Nat} (h : (a.touch r).error = none) :
    a.error = none ∧ r < (a.touch r).registers := by
  unfold touch at h ⊢
  split at h
  · cases ha : a.error <;> simp [record, ha] at h
  · next hle =>
    rw [if_neg hle]
    exact ⟨h, Nat.le_max_right _ _⟩

/-- Registers that were all touched without an error are in the register file. -/
theorem of_foldl_touch {rs : List Nat} (h : (rs.foldl touch a).error = none) :
    a.error = none ∧ a.registers ≤ (rs.foldl touch a).registers ∧
      ∀ r ∈ rs, r < (rs.foldl touch a).registers := by
  induction rs generalizing a with
  | nil => exact ⟨h, Nat.le_refl _, by simp⟩
  | cons r rs ih =>
    obtain ⟨htouch, hle, hmem⟩ := ih h
    obtain ⟨herror, hr⟩ := of_touch htouch
    refine ⟨herror, Nat.le_trans (registers_le_touch a r) hle, fun s hs => ?_⟩
    rcases List.mem_cons.mp hs with rfl | hs
    · exact Nat.lt_of_lt_of_le hr hle
    · exact hmem s hs

/-- A block that was placed without an error brought none, and its registers are in the register
file. -/
theorem of_placeBlock {bl : Block} (hb : a.placeBlock bl = .ok b) (he : b.error = none) :
    bl.error = none ∧ ∀ r ∈ bl.registers, r < b.registers := by
  simp only [placeBlock] at hb
  have hs := sameShape_placeAll hb
  have herror := hs.error.symm.trans he
  have hregs := hs.registers
  cases hbl : bl.error with
  | none =>
    rw [hbl] at herror hregs
    refine ⟨rfl, ?_⟩
    rw [hregs]
    exact (of_foldl_touch herror).2.2
  | some e =>
    rw [hbl] at herror
    cases ha : (bl.registers.foldl touch a).error <;> simp [record, ha] at herror

/-- The bit table that an opcode reads. -/
def opTable? (a : Assembler) (op : Opcode) : Option (Array UInt8) :=
  match lower a.mode a.labels.size a.nextTable a.isBound op with
  | .ok bl => bl.bitTable
  | .error _ => none

/-- An opcode of one stage is emitted as one block. This takes the emission apart to the items of
the block, about which the lowering of the opcode says everything else. -/
theorem exists_block {op : Opcode} (hop : ∀ l, op ≠ .bind l) (hstages : stages op = .ok [op])
    (hb : a.emit op = .ok b) (hr : a.refuses op = false) (he : b.error = none) :
    ∃ bl, lower a.mode a.labels.size a.nextTable a.isBound op = .ok bl ∧ a.opItems op = bl.items ∧
      a.opTable? op = bl.bitTable ∧ bl.error = none ∧ ∀ r ∈ bl.registers, r < b.registers := by
  have hemit : a.emitStages [op] = .ok b := by
    simpa [emit, hr, hstages, Bind.bind, Except.bind] using hb
  obtain ⟨c, hc, hemit⟩ := bind_eq_ok.mp hemit
  obtain rfl := Except.ok.inj hemit
  have hstage : a.emitStage op =
      (do a.placeBlock (← lower a.mode a.labels.size a.nextTable a.isBound op)) := by
    cases op with
    | bind l => exact absurd rfl (hop l)
    | _ => rfl
  rw [hstage] at hc
  obtain ⟨bl, hbl, hc⟩ := bind_eq_ok.mp hc
  obtain ⟨herror, hregs⟩ := of_placeBlock hc he
  refine ⟨bl, hbl, ?_, by rw [opTable?, hbl], herror, hregs⟩
  have hitems : a.stageItems op = bl.items := by
    cases op with
    | bind l => exact absurd rfl (hop l)
    | _ => simp only [stageItems, hbl]
  rw [opItems, if_neg (by simp [hr]), hstages]
  simp only [stagesItems, hitems]
  split <;> exact List.append_nil _

theorem bind_ne_of_inPlace {op : Opcode} {f : Label → Label} {k : Task} {t : Thread}
    (h : op.InPlace k t) (l : Label) : op.mapLabels f ≠ .bind l := by
  intro heq
  cases op with
  | bind l' => exact h
  | _ => cases heq

/-- An opcode that works in place is lowered in one stage; a checked load, which is lowered in two,
is none of them. -/
theorem stages_of_inPlace {op : Opcode} {f : Label → Label} {k : Task} {t : Thread}
    (h : op.InPlace k t) : stages (op.mapLabels f) = .ok [op.mapLabels f] := by
  cases op with
  | load o dest checked count =>
    obtain rfl := h.1
    rfl
  | _ => rfl

/-- **The code of an opcode does what the opcode does.** Whatever machine represents the thread,
and wherever labels and tables lie: the items that the assembler emits for the opcode, with its
labels renamed, lead to its target exactly when it is meant to branch, and go past otherwise, with
a machine that represents the thread the opcode leaves behind. -/
theorem follows_of_emit (offset : Label → UInt32) (op : Opcode)
    {f : Label → Label} {k : Task} {t : Thread} {m : Machine}
    (hemit : a.emit (op.mapLabels f) = .ok b) (hrefuses : a.refuses (op.mapLabels f) = false)
    (herror : b.error = none) (hlabel : (targetLabel (op.label?.map f)).index < a.labels.size)
    (hmode : k.mode = a.mode) (hsubject : k.subject.mode = k.mode)
    (hregs : b.registers ≤ t.regs.size) (hplace : op.InPlace k t) (h : Represents k t m)
    (htable : ∀ table, a.opTable? (op.mapLabels f) = some table → TableAt a.nextTable table m) :
    Follows offset (a.opItems (op.mapLabels f)) (op.label?.map f) k op t m := by
  obtain ⟨bl, hbl, hitems, hbit, hnone, hreg⟩ :=
    exists_block (bind_ne_of_inPlace hplace) (stages_of_inPlace hplace) hemit hrefuses herror
  have hreg' : ∀ r ∈ bl.registers, r < t.regs.size := fun r hr =>
    Nat.lt_of_lt_of_le (hreg r hr) hregs
  have hdest : targetLabel (op.label?.map f) ≠ ⟨a.labels.size⟩ := by
    intro heq
    rw [heq] at hlabel
    exact Nat.lt_irrefl _ hlabel
  rw [hbit] at htable
  rw [hitems]
  rw [← hmode] at hbl
  cases op with
  | advance count => exact follows_advance h hbl
  | advanceRegister reg delta =>
    obtain rfl := Except.ok.inj hbl
    exact follows_advanceRegister h (hreg' reg List.mem_cons_self)
  | onChar test dest =>
    obtain rfl := Except.ok.inj hbl
    exact follows_of_decides h (decides_lowerTest h.char hdest hplace htable)
      (met_iff_holds hplace) rfl
  | onPlace test dest =>
    exact follows_of_decides h (decides_lowerPlace h hbl) (met_iff_placeHolds h hplace hsubject) rfl
  | onRegister test dest =>
    obtain rfl := Except.ok.inj hbl
    exact follows_of_decides h (decides_lowerRegister h hreg') (met_iff_registerHolds test) rfl
  | load o dest checked count =>
    obtain ⟨rfl, hinside⟩ := hplace
    exact follows_load h hbl hnone hinside
  | readPosition reg =>
    obtain rfl := Except.ok.inj hbl
    exact follows_readPosition h (hreg' reg List.mem_cons_self)
  | setPositionFromEnd count => exact follows_setPositionFromEnd h hbl hplace
  | setRegister reg value =>
    obtain rfl := Except.ok.inj hbl
    exact follows_setRegister h (hreg' reg List.mem_cons_self)
  | writePosition reg o => exact follows_writePosition h hbl hreg'
  | clearRegisters first last =>
    obtain rfl := Except.ok.inj hbl
    exact follows_clearRegisters h hreg'
  | _ => exact hplace.elim

end Assembler

/-! ### An opcode on a machine -/

namespace Sample

/-- A task with a subject of two characters. -/
def task : Task where
  matcher :=
    { object :=
        { buffer := .empty, mode := .latin1, globalMode := .notGlobal, registers := 2, saved := 2
          bitTables := #[], boundaryLists := #[], source := "" }
      program := { opcodes := #[], labels := 0, saved := 2 }
      options := { mode := .latin1 }
      offsets := #[] }
  places := #[]
  subject := .latin1 #[0x61, 0x62]
  origin := .runtime
  sp := 0

/-- A thread before the second character, with two unset registers. -/
def thread : Thread where
  pc := 0
  pos := -1
  char := 0x61
  regs := #[-3, -3]
  depth := 0
  backtracks := 0
  captures := 0
  outBase := 0
  remaining := 0
  output := #[]
  limit := 0
  stack := { capacity := 0, maxBytes := 0, slack := 0 }
  guard := {}
  polls := 0
  relocations := 0
  growths := 0

/-- A machine with that thread, its frame at `0x1000` and the subject at `0x2000`. -/
def machine : Machine where
  regs
    | .rbp => 0x1000
    | .r12 => 0xFFFFFFFFFFFFFFFF
    | .r13 => 0x61
    | .r14 => 0x2002
    | _ => 0
  mem a :=
    if a = 0x2000 then 0x61 else if a = 0x2001 then 0x62
    else if a = 0xF78 ∨ a = 0xF80 ∨ a = 0xF98 then 0xFD
    else 0xFF
  flags := {}

/-- The sample machine represents the sample thread. -/
theorem represents_machine : Represents task thread machine where
  pos := rfl
  char := rfl
  registers := by decide +kernel
  before := by decide +kernel
  subject := by decide +kernel
  apart := by decide +kernel
  size_regs := by decide
  byteSize := by decide

/-- A look-up in a table that contains every character. -/
def lookUp : Opcode := .onChar (.inTable (Array.replicate tableSize 0xFF)) none

/-- Its memory holds the table where the heap puts the first one. -/
theorem tableAt_machine : TableAt (heap 0) (Array.replicate tableSize 0xFF) machine := by
  have hmem : ∀ i < tableSize, machine.mem (heap 0 + UInt64.ofNat i) = 0xFF := by decide +kernel
  intro i b hb
  rw [Array.getElem?_replicate] at hb
  split at hb
  · next hi => exact (hmem i hi).trans (Option.some.inj hb)
  · cases hb

/-- Whether an opcode is emitted by a new assembler, and what is known of it then. -/
def emits (op : Opcode) : Bool :=
  match Assembler.new .latin1 2 heap with
  | .ok a => match a.emit op with
    | .ok b => decide (b.error = none ∧ b.registers = 2 ∧ a.mode = .latin1 ∧
      a.labels.size = reservedLabels ∧ a.nextTable = heap 0)
    | .error _ => false
  | .error _ => false

/-- What is computed about an emission, as facts about two assemblers. -/
theorem exists_emit {op : Opcode} (hrun : emits op = true) :
    ∃ a b, Assembler.new .latin1 2 heap = .ok a ∧ a.emit op = .ok b ∧ b.error = none ∧
      b.registers = 2 ∧ a.mode = .latin1 ∧ a.labels.size = reservedLabels ∧
        a.nextTable = heap 0 := by
  unfold emits at hrun
  split at hrun
  · next a ha =>
    split at hrun
    · next b hb => exact ⟨a, b, ha, hb, of_decide_eq_true hrun⟩
    · cases hrun
  · cases hrun

end Sample

/-- The table is read at the address it was allocated at, and the look-up leads to the backtrack
routine. -/
theorem Assembler.follows_of_emit_lookUp :
    ∃ a b, Assembler.new .latin1 2 Sample.heap = .ok a ∧ a.emit Sample.lookUp = .ok b ∧
      ∃ fuel m', execute (fun _ => 0) (a.opItems Sample.lookUp) fuel 0 Sample.machine =
          .jump Reserved.backtrack.label m' ∧
        Represents Sample.task Sample.thread m' := by
  have hrun : Sample.emits Sample.lookUp = true := by decide +kernel
  obtain ⟨a, b, ha, hb, herror, hregs, hmode, hsize, haddress⟩ := Sample.exists_emit hrun
  have htable (table : Array UInt8) (ht : a.opTable? Sample.lookUp = some table) :
      TableAt a.nextTable table Sample.machine := by
    obtain rfl := Option.some.inj ht
    rw [haddress]
    exact Sample.tableAt_machine
  have hlabel : (targetLabel none).index < a.labels.size := by
    rw [hsize]
    decide
  have hsame : Sample.task.mode = a.mode := hmode.symm
  have hplace : Sample.lookUp.InPlace Sample.task Sample.thread := Array.size_replicate
  have hcount : b.registers ≤ Sample.thread.regs.size := by
    rw [hregs]
    decide
  have hfollows := follows_of_emit (fun _ => 0) Sample.lookUp (f := id) hb rfl herror hlabel hsame
    rfl hcount hplace Sample.represents_machine htable
  have hholds : (CharTest.inTable (Array.replicate tableSize 0xFF)).holds .latin1 0x61 = true := by
    decide +kernel
  have hbranches : Sample.lookUp.Branches Sample.task Sample.thread := hholds
  obtain ⟨-, fuel, m', hjump, hm', -⟩ := hfollows.1 hbranches
  exact ⟨a, b, ha, hb, fuel, m', hjump, hm'⟩

end NativeMatcher
