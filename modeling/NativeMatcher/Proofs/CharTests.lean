import NativeMatcher.Assembly.Lower
import NativeMatcher.Proofs.Flags
import NativeMatcher.Proofs.Walk

/-!
# The code of character tests

Each character test is a block of its own making: a comparison, a mask, a subtraction that
wraps around so that one unsigned comparison tells both ends of a range, a table, an exclusive
or that makes line feed and carriage return neighbours. Whatever it does, it ends at its target
exactly if the test is true of the current character, and leaves the machine as it was but for
the flags and the free registers (`NativeMatcher.Assembly.decides_lowerTest`). That holds for
every 32-bit word: a load may have brought in several characters at once.

Tables lie outside the code, at the address the block was lowered with
(`NativeMatcher.Assembly.loadTable`). A test that asks the host is not treated here.
-/

namespace NativeMatcher

/-- Whether a test is made without the host: no look-up in ranges, and what a table or a range
has to be. -/
def CharTest.InPlace : CharTest → Prop
  | .inRanges _ | .notInRanges _ => False
  | .inRange first last | .notInRange first last => first ≤ last
  | .inTable table => table.size = tableSize
  | _ => True

namespace Assembly

open X64 X64.Machine

/-- A table lies in memory at an address. -/
def TableAt (address : UInt64) (table : Array UInt8) (m : Machine) : Prop :=
  ∀ i b, table[i]? = some b → m.mem (address + UInt64.ofNat i) = b

/-! ### Sequences of instructions -/

section Sequence

variable {m : Machine} {r : Reg} {x y : UInt32}

theorem flags_aluImm_char (hr : m.regs r = x.toUInt64) (op : AluOp) (d : UInt32) :
    (after (.aluImm op .w32 r d.toInt32) m).flags = (op.apply .w32 x.toUInt64 d.toUInt64).2 := by
  show (op.apply .w32 (Width.w32.trunc (m.regs r)) (immediate .w32 d.toInt32)).2 = _
  rw [hr, trunc_char, immediate_char]

/-- An operation of 32 bits with an immediate clears the upper half of its register, so that the
result is a character again. -/
theorem regs_aluImm_char (hr : m.regs r = x.toUInt64) (op : AluOp) (hop : op.writes = true)
    {d : UInt32} (hy : (op.apply .w32 x.toUInt64 d.toUInt64).1 = y.toUInt64) :
    (after (.aluImm op .w32 r d.toInt32) m).regs r = y.toUInt64 := by
  show ((if op.writes = true then m.put .w32 (.reg r)
    (op.apply .w32 (Width.w32.trunc (m.regs r)) (immediate .w32 d.toInt32)).1 else m).setFlags
      _).regs r = _
  rw [if_pos hop, hr, trunc_char, immediate_char, hy]
  exact (m.regs_setReg_self .w32 r _).trans (trunc_char y)

theorem regs_mov_char (hr : m.regs r = x.toUInt64) (dst : Reg) :
    (after (.mov .w32 dst r) m).regs dst = x.toUInt64 := by
  refine (m.regs_setReg_self .w32 dst _).trans ?_
  show Width.w32.trunc (Width.w32.trunc (m.regs r)) = _
  rw [hr, trunc_char, trunc_char]

/-- `lea` subtracts a constant, around zero if need be. -/
theorem regs_leaAt_char (hr : m.regs r = x.toUInt64) (dst : Reg) (d : UInt32) :
    (after (.leaAt .w32 dst r (-d).toInt32) m).regs dst = (x - d).toUInt64 := by
  rw [UInt32.sub_eq_add_neg]
  refine (m.regs_setReg_self .w32 dst _).trans ?_
  show Width.w32.trunc (m.regs r + 0 + (-d).toInt32.toInt64.toUInt64) = _
  rw [hr, trunc_add_char]
  rfl

/-- A loaded byte is extended with zeros. -/
theorem regs_loadByte (dst : Reg) (o : Mem) :
    (after (.movExtend .zeroByte dst (.mem o)) m).regs dst =
      (m.mem (m.address o)).toUInt32.toUInt64 := by
  refine (m.regs_setReg_self .w32 dst _).trans ?_
  show Width.w32.trunc
    (UInt64.ofNat ((m.mem (m.address o)).toNat + 256 * 0)).toUInt8.toUInt64 = _
  simp [Width.trunc]

theorem flags_test_char (hr : m.regs r = x.toUInt64) :
    (after (.test .w32 r r) m).flags = (logicWord .w32 x.toUInt64).2 := by
  show (logicWord .w32 (Width.w32.trunc (m.regs r) &&& Width.w32.trunc (m.regs r))).2 = _
  rw [hr, trunc_char, UInt64.and_self]

end Sequence

section Char

variable {m : Machine} {x : UInt32} (hx : m.regs chr = x.toUInt64)

include hx

theorem flags_compareChar (d : UInt32) :
    (after (compareChar d) m).flags = (subWords .w32 x.toUInt64 d.toUInt64).2 :=
  flags_aluImm_char hx .cmp d

theorem flags_rangeTest (first last : UInt32) :
    (afterAll (rangeTest first last) m).flags =
      (subWords .w32 (x - first).toUInt64 (last - first).toUInt64).2 :=
  flags_aluImm_char (regs_leaAt_char hx .rax first) .cmp (last - first)

/-- A comparison with zero needs no copy of the character: the mask alone sets the flags. -/
theorem holds_e_maskTest (c mask : UInt32) :
    Cond.e.holds (afterAll (maskTest c mask) m).flags = (x &&& mask == c) := by
  unfold maskTest
  split
  · next hc =>
    have hflags : (after (.testRmImm .w32 (.reg chr) mask) m).flags =
        (logicWord .w32 (x &&& mask).toUInt64).2 := by
      show (logicWord .w32 (Width.w32.trunc (m.regs chr) &&& immediate .w32 mask.toInt32)).2 = _
      rw [hx, trunc_char, immediate_char, UInt32.toUInt64_and]
    rw [afterAll_cons, afterAll_nil, hflags, holds_e_logic, hc]
  · have hand := regs_aluImm_char (regs_mov_char hx .rax) .and rfl
      (UInt32.toUInt64_and x mask).symm
    have hflags := flags_aluImm_char hand .cmp c
    rw [afterAll_cons, afterAll_cons, afterAll_cons, afterAll_nil, hflags]
    exact holds_e_char _ _

theorem holds_ne_maskTest (c mask : UInt32) :
    Cond.ne.holds (afterAll (maskTest c mask) m).flags = (x &&& mask != c) := by
  rw [bne, ← holds_e_maskTest hx c mask]
  rfl

theorem regs_flipped : (afterAll [.mov .w32 .rax chr, .aluImm .xor .w32 .rax 1] m).regs .rax =
    (x ^^^ 1).toUInt64 :=
  regs_aluImm_char (regs_mov_char hx .rax) .xor (d := 1) rfl (UInt32.toUInt64_xor x 1).symm

theorem regs_lineEndTest : (afterAll lineEndTest m).regs .rax = ((x ^^^ 1) - 0x0B).toUInt64 :=
  regs_aluImm_char (regs_flipped hx) .sub (d := 0x0B) rfl (subWords_char _ _)

theorem flags_lineEndTest : (afterAll lineEndTest m).flags =
    (subWords .w32 ((x ^^^ 1) - 0x0B).toUInt64 (1 : UInt32).toUInt64).2 := by
  have hsub := regs_aluImm_char (regs_flipped hx) .sub (d := 0x0B) rfl (subWords_char _ _)
  exact flags_aluImm_char hsub .cmp 1

end Char

/-- The test for separators takes up the difference where the test for line ends left it, and
subtracts the rest. -/
theorem flags_separatorTest {m : Machine} {y : UInt32} (hy : m.regs .rax = (y - 0x0B).toUInt64) :
    (afterAll separatorTest m).flags =
      (subWords .w32 (y - 0x2028).toUInt64 (1 : UInt32).toUInt64).2 := by
  have hsub := regs_aluImm_char hy .sub (d := 0x2028 - 0x0B) rfl (subWords_char _ _)
  have hdiff : y - 0x0B - (0x2028 - 0x0B) = y - 0x2028 := by grind
  rw [hdiff] at hsub
  exact flags_aluImm_char hsub .cmp 1

theorem char_of_agrees {m m' : Machine} {x : UInt32} (h : Agrees m m')
    (hx : m.regs chr = x.toUInt64) : m'.regs chr = x.toUInt64 :=
  (h.regs chr (by decide) (by decide)).trans hx

/-- One unsigned comparison of wrapped differences tests both ends of a range, provided that the
range is not empty. -/
theorem sub_le_sub_iff {first last x : UInt32} (h : first ≤ last) :
    x - first ≤ last - first ↔ first ≤ x ∧ x ≤ last := by
  have hx : x.toNat < 2 ^ 32 := x.toNat_lt
  have hlast : last.toNat < 2 ^ 32 := last.toNat_lt
  simp only [UInt32.le_iff_toNat_le, UInt32.toNat_sub] at h ⊢
  omega

theorem toUInt32_beq_zero (b : UInt8) : (b.toUInt32 == 0) = (b == 0) := by
  rw [Bool.eq_iff_iff]
  simp [← UInt32.toNat_inj, ← UInt8.toNat_inj]

/-- A byte of a table, looked up through `rax`. -/
theorem flags_lookUp {m : Machine} {address : UInt64} {r : Reg} {y : UInt32} {b : UInt8}
    (ha : m.regs .rax = address) (hr : m.regs r = y.toUInt64)
    (hb : m.mem (address + y.toUInt64) = b) :
    (afterAll [.movExtend .zeroByte .rax (.mem { base := .rax, index := some (r, 0) }),
      .test .w32 .rax .rax] m).flags = (logicWord .w32 b.toUInt32.toUInt64).2 := by
  have haddress : m.address { base := .rax, index := some (r, 0) } = address + y.toUInt64 := by
    simp [Machine.address, ha, hr]
    rfl
  have hbyte := regs_loadByte (m := m) .rax { base := .rax, index := some (r, 0) }
  rw [haddress, hb] at hbyte
  exact flags_test_char hbyte

/-! ### Character tests -/

/-- The items branch to their target exactly if `taken`, and disturb nothing. -/
def Decides (offset : Label → UInt32) (m : Machine) (items : List Item) (dest : Target)
    (taken : Bool) : Prop :=
  ∃ fuel, (execute offset items fuel 0 m).Ends taken (targetLabel dest) (Agrees m)

section Test

variable {offset : Label → UInt32} {m : Machine} {dest : Target}

/-- A row of quiet instructions and a branch decide by the flags they leave. -/
theorem decides_straight {items : List Item} (is : List Instr) {c : Cond} {taken : Bool}
    (hitems : items = is.map .instr ++ [branchTo c dest])
    (hquiet : is.all Instr.isQuiet = true) (hc : c.holds (afterAll is m).flags = taken) :
    Decides offset m items dest taken := by
  have hwalk : (walk none (is.map .instr ++ [branchTo c dest]) m).Ends taken (targetLabel dest)
      (Agrees m) := by
    rw [walk_instrs]
    exact ends_last (by simp) hc (agrees_afterAll is hquiet)
  refine hwalk.execute offset (hitems.trans (List.append_nil _).symm) ?_
  rw [List.all_append, List.all_map, Bool.and_eq_true]
  refine ⟨List.all_eq_true.mpr fun i hi => ?_, rfl⟩
  have hi := List.all_eq_true.mp hquiet i hi
  simp [Item.isStep, transfers_of_isQuiet hi]

/-- Masking needs a free register, except that a comparison with zero reads the flags of the mask
itself. -/
theorem decides_maskTest {cond : Cond} {taken : Bool} (c mask : UInt32)
    (hc : cond.holds (afterAll (maskTest c mask) m).flags = taken) :
    Decides offset m ((maskTest c mask).map .instr ++ [branchTo cond dest]) dest taken := by
  have hquiet : (maskTest c mask).all Instr.isQuiet = true := by
    unfold maskTest
    split <;> rfl
  exact decides_straight _ rfl hquiet hc

variable {mode : Mode} {next : Nat} {address : UInt64} {x : UInt32} (hx : m.regs chr = x.toUInt64)

include hx

theorem decides_rangeTest {items : List Item} {c : Cond} {taken : Bool} (first last : UInt32)
    (hitems : items = (rangeTest first last).map .instr ++ [branchTo c dest])
    (hc : c.holds (subWords .w32 (x - first).toUInt64 (last - first).toUInt64).2 = taken) :
    Decides offset m items dest taken :=
  decides_straight _ hitems rfl (by rw [flags_rangeTest hx, hc])

/-- A single comparison decides by the condition that its flags are read with. -/
theorem decides_compareChar {items : List Item} {c : Cond} {taken : Bool} (d : UInt32)
    (hitems : items = [.instr (compareChar d), branchTo c dest])
    (hc : c.holds (subWords .w32 x.toUInt64 d.toUInt64).2 = taken) :
    Decides offset m items dest taken :=
  decides_straight [compareChar d] hitems rfl
    (by rw [afterAll_cons, afterAll_nil, flags_compareChar hx, hc])

/-- The difference is taken by an address computation, which leaves the character alone and wraps
around as the test does. -/
theorem decides_notEqualAfterMinusAnd (c minus mask : UInt32) :
    Decides offset m
      (lowerTest mode next address dest (.notEqualAfterMinusAnd c minus mask)).items dest
      ((x - minus) &&& mask != c) := by
  have hand := regs_aluImm_char (regs_leaAt_char hx .rax minus) .and rfl
    (UInt32.toUInt64_and (x - minus) mask).symm
  have hflags := flags_aluImm_char hand .cmp c
  refine decides_straight [.leaAt .w32 .rax chr (-minus).toInt32,
    .aluImm .and .w32 .rax mask.toInt32, .aluImm .cmp .w32 .rax c.toInt32] rfl rfl ?_
  rw [afterAll_cons, afterAll_cons, afterAll_cons, afterAll_nil, hflags]
  exact holds_ne_char _ _

/-- The look-up masks the character, so that its index lies in the table whatever was loaded, and
branches on the byte it finds there. -/
theorem decides_inTable {table : Array UInt8} (hsize : table.size = tableSize)
    (htable : TableAt address table m) :
    Decides offset m (lowerTest mode next address dest (.inTable table)).items dest
      (table.getD (x &&& 127).toNat 0 != 0) := by
  have hindex : (x &&& 127).toNat < table.size := by
    rw [hsize, UInt32.toNat_and]
    exact Nat.lt_of_le_of_lt Nat.and_le_right (by decide)
  obtain ⟨b, hb⟩ : ∃ b, table[(x &&& 127).toNat]? = some b := ⟨_, Array.getElem?_eq_getElem hindex⟩
  have hmem := htable _ b hb
  rw [ofNat_toNat_char] at hmem
  rw [Array.getD_eq_getD_getElem?, hb, Option.getD_some]
  -- The mask leaves an index of the table, whatever the character is.
  let is : List Instr := [loadTable .rax address, .mov .w32 .rcx chr, .aluImm .and .w32 .rcx 127]
  have hagrees := agrees_afterAll (m := m) is rfl
  have hrax : (afterAll is m).regs .rax = address := rfl
  have hrcx : (afterAll is m).regs .rcx = (x &&& 127).toUInt64 :=
    regs_aluImm_char (regs_mov_char hx .rcx) .and (d := 127) rfl
      (UInt32.toUInt64_and x 127).symm
  have hflags := flags_lookUp hrax hrcx (hagrees.mem ▸ hmem)
  refine decides_straight (is ++ [Instr.movExtend .zeroByte .rax
    (.mem { base := .rax, index := some (.rcx, 0) }), .test .w32 .rax .rax]) rfl rfl ?_
  rw [afterAll_append, hflags, holds_ne_logic, bne, bne, toUInt32_beq_zero]

end Test

section Class

variable {offset : Label → UInt32} {address : UInt64} {mode : Mode} {next : Nat} {dest : Target}
  {m : Machine} {x : UInt32} (hx : m.regs chr = x.toUInt64) (hdest : targetLabel dest ≠ ⟨next⟩)

/-- Blanks as the code tells them: two by themselves and a range. -/
theorem isBlank_eq (x : UInt32) :
    CharClass.isBlank x = (x == 0x20 || x == 0xA0 || decide (x - 9 ≤ 13 - 9)) := by
  rw [Bool.eq_iff_iff]
  simp only [CharClass.isBlank, Bool.or_eq_true, Bool.and_eq_true, decide_eq_true_eq, beq_iff_eq,
    sub_le_sub_iff (show (9 : UInt32) ≤ 13 by decide)]
  grind

theorem isDigit_eq (x : UInt32) : CharClass.isDigit x = decide (x - 0x30 ≤ 0x39 - 0x30) := by
  rw [Bool.eq_iff_iff]
  simp only [CharClass.isDigit, Bool.and_eq_true, decide_eq_true_eq,
    sub_le_sub_iff (show (0x30 : UInt32) ≤ 0x39 by decide)]

theorem done_ne (hdest : targetLabel dest ≠ ⟨next⟩) : some ⟨next⟩ ≠ some (targetLabel dest) :=
  fun h => hdest (Option.some.inj h).symm

theorem decide_lt_eq_not (x y : UInt32) : decide (y < x) = !decide (x ≤ y) := by
  rw [Bool.eq_iff_iff]
  simp

/-- An exclusive or with one is its own inverse. -/
theorem xor_one_eq_iff {x d : UInt32} : x ^^^ 1 = d ↔ x = d ^^^ 1 := by
  constructor
  · rintro rfl
    rw [UInt32.xor_assoc, UInt32.xor_self, UInt32.xor_zero]
  · rintro rfl
    rw [UInt32.xor_assoc, UInt32.xor_self, UInt32.xor_zero]

/-- One unsigned comparison tells two numbers that differ in their lowest bit only: turned over they
are neighbours, and the subtraction wraps everything else out of reach. -/
theorem xor_one_sub_le_one_iff {x d : UInt32} :
    (x ^^^ 1) - d ≤ 1 ↔ x = d ^^^ 1 ∨ x = (d + 1) ^^^ 1 := by
  rw [← xor_one_eq_iff, ← xor_one_eq_iff]
  -- What is left is an interval of two numbers that may wrap around.
  generalize x ^^^ 1 = y
  have hy : y.toNat < 2 ^ 32 := y.toNat_lt
  have hd : d.toNat < 2 ^ 32 := d.toNat_lt
  simp only [UInt32.le_iff_toNat_le, ← UInt32.toNat_inj, UInt32.toNat_sub, UInt32.toNat_add,
    UInt32.toNat_one]
  omega

/-- Line feed and carriage return become neighbours when their lowest bit is turned over. -/
theorem isLineEnd_eq (mode : Mode) (x : UInt32) :
    CharClass.isLineEnd mode x = (decide ((x ^^^ 1) - 0x0B ≤ 1) ||
      (decide (mode = .uc16) && decide ((x ^^^ 1) - 0x2028 ≤ 1))) := by
  have hfeed : (0x0B : UInt32) ^^^ 1 = 0x0A := by decide
  have hreturn : ((0x0B : UInt32) + 1) ^^^ 1 = 0x0D := by decide
  have hline : (0x2028 : UInt32) ^^^ 1 = 0x2029 := by decide
  have hparagraph : ((0x2028 : UInt32) + 1) ^^^ 1 = 0x2028 := by decide
  rw [Bool.eq_iff_iff]
  simp only [CharClass.isLineEnd, Bool.or_eq_true, Bool.and_eq_true, decide_eq_true_eq, beq_iff_eq,
    xor_one_sub_le_one_iff, hfeed, hreturn, hline, hparagraph]
  grind

theorem isLineEnd_latin1 (x : UInt32) :
    CharClass.isLineEnd .latin1 x = decide ((x ^^^ 1) - 0x0B ≤ 1) := by
  rw [isLineEnd_eq]
  simp

theorem isLineEnd_uc16 (x : UInt32) : CharClass.isLineEnd .uc16 x =
    (decide ((x ^^^ 1) - 0x0B ≤ 1) || decide ((x ^^^ 1) - 0x2028 ≤ 1)) := by
  rw [isLineEnd_eq]
  simp

theorem getElem?_wordTable {x : UInt32} (h : x.toNat < tableSize) :
    wordTable[x.toNat]? = some (if CharClass.isWord x then 1 else 0) := by
  simp [wordTable, h]

theorem le_of_isWord {x : UInt32} (h : CharClass.isWord x = true) : x ≤ 0x7A := by
  simp only [CharClass.isWord, CharClass.isDigit, Bool.or_eq_true, Bool.and_eq_true,
    decide_eq_true_eq, beq_iff_eq, UInt32.le_iff_toNat_le, ← UInt32.toNat_inj] at h ⊢
  simp at h ⊢
  omega

/-- Beyond the last letter nothing is a word character. -/
theorem above_or_not_isWord (x : UInt32) :
    (decide (0x7A < x) || !CharClass.isWord x) = !CharClass.isWord x := by
  rw [Bool.or_eq_right_iff_imp]
  intro habove
  rw [Bool.not_eq_true']
  refine Bool.eq_false_iff.mpr fun hword => ?_
  exact UInt32.not_lt.mpr (le_of_isWord hword) (of_decide_eq_true habove)

section Blank

include hx

/-- The two blanks outside the range are compared first, each with a branch of its own to the
target. -/
theorem decides_notWhitespace :
    Decides offset m (lowerClass mode next address dest .notWhitespace).items dest
      (CharClass.isBlank x) := by
  have h₁ := agrees_after (m := m) (i := compareChar 0x20) rfl
  have h₂ := h₁.trans (agrees_after (i := compareChar 0xA0) rfl)
  have h₃ := h₂.trans (agrees_afterAll (rangeTest 9 13) rfl)
  have hwalk : (walk none (.instr (compareChar 0x20) :: branchTo .e dest
      :: .instr (compareChar 0xA0) :: branchTo .e dest
      :: ((rangeTest 9 13).map .instr ++ [branchTo .be dest])) m).Ends
      (CharClass.isBlank x) (targetLabel dest) (Agrees m) := by
    rw [isBlank_eq, Bool.or_assoc, walk_instr]
    refine ends_branch (by simp) ?_ h₁ fun _ => ?_
    · rw [flags_compareChar hx, holds_e_char]
    rw [walk_instr]
    refine ends_branch (by simp) ?_ h₂ fun _ => ?_
    · rw [flags_compareChar (char_of_agrees h₁ hx), holds_e_char]
    rw [walk_instrs]
    refine ends_last (by simp) ?_ h₃
    rw [flags_rangeTest (char_of_agrees h₂ hx), holds_be_char]
  exact hwalk.execute offset rfl rfl

/-- The separators are looked for with 16-bit characters only. Their test goes on from the
difference that the one for line ends left behind. -/
theorem decides_notLineTerminator :
    Decides offset m (lowerClass mode next address dest .notLineTerminator).items dest
      (CharClass.isLineEnd mode x) := by
  have h₁ := agrees_afterAll (m := m) lineEndTest rfl
  have h₂ := h₁.trans (agrees_afterAll separatorTest rfl)
  cases mode with
  | latin1 =>
    refine decides_straight lineEndTest rfl rfl ?_
    rw [flags_lineEndTest hx, holds_be_char, isLineEnd_latin1]
  | uc16 =>
    have hwalk : (walk none (lineEndTest.map .instr ++ branchTo .be dest
        :: (separatorTest.map .instr ++ [branchTo .be dest])) m).Ends
        (CharClass.isLineEnd .uc16 x) (targetLabel dest) (Agrees m) := by
      rw [isLineEnd_uc16, walk_instrs]
      refine ends_branch (by simp) ?_ h₁ fun _ => ?_
      · rw [flags_lineEndTest hx, holds_be_char]
      rw [walk_instrs]
      refine ends_last (by simp) ?_ h₂
      rw [flags_separatorTest (regs_lineEndTest hx), holds_be_char]
    exact hwalk.execute offset rfl rfl

include hdest

/-- The class is tested by its complement: a blank skips the rest, and what gets to the end of the
range test above it is none. -/
theorem decides_whitespace :
    Decides offset m (lowerClass mode next address dest .whitespace).items dest
      (!CharClass.isBlank x) := by
  have hdone := done_ne hdest
  have h₁ := agrees_after (m := m) (i := compareChar 0x20) rfl
  have h₂ := h₁.trans (agrees_after (i := compareChar 0xA0) rfl)
  have h₃ := h₂.trans (agrees_afterAll (rangeTest 9 13) rfl)
  have hwalk : (walk (some ⟨next⟩) (.declare :: .instr (compareChar 0x20)
      :: .branch (.jcc .e) ⟨next⟩ :: .instr (compareChar 0xA0) :: .branch (.jcc .e) ⟨next⟩
      :: ((rangeTest 9 13).map .instr ++ [branchTo .a dest])) m).Ends
      (!CharClass.isBlank x) (targetLabel dest) (Agrees m) := by
    rw [isBlank_eq, Bool.or_assoc, Bool.not_or, Bool.not_or, walk_declare, walk_instr]
    refine ends_skip ?_ h₁ fun _ => ?_
    · rw [flags_compareChar hx, holds_e_char]
    rw [walk_instr]
    refine ends_skip ?_ h₂ fun _ => ?_
    · rw [flags_compareChar (char_of_agrees h₁ hx), holds_e_char]
    rw [walk_instrs]
    refine ends_last hdone ?_ h₃
    rw [flags_rangeTest (char_of_agrees h₂ hx), holds_a_char, decide_lt_eq_not]
  exact hwalk.execute offset rfl rfl

/-- With 16-bit characters a line end skips the test for separators. -/
theorem decides_lineTerminator :
    Decides offset m (lowerClass mode next address dest .lineTerminator).items dest
      (!CharClass.isLineEnd mode x) := by
  have hdone := done_ne hdest
  have h₁ := agrees_afterAll (m := m) lineEndTest rfl
  have h₂ := h₁.trans (agrees_afterAll separatorTest rfl)
  cases mode with
  | latin1 =>
    have hwalk : (walk (some ⟨next⟩) (.declare :: (lineEndTest.map .instr ++ [branchTo .a dest]))
        m).Ends (!CharClass.isLineEnd .latin1 x) (targetLabel dest) (Agrees m) := by
      rw [isLineEnd_latin1, walk_declare, walk_instrs]
      refine ends_last hdone ?_ h₁
      rw [flags_lineEndTest hx, holds_a_char, decide_lt_eq_not]
    exact hwalk.execute offset rfl rfl
  | uc16 =>
    have hwalk : (walk (some ⟨next⟩) (.declare :: (lineEndTest.map .instr ++
        Item.branch (.jcc .be) ⟨next⟩ :: (separatorTest.map .instr ++ [branchTo .a dest]))) m).Ends
        (!CharClass.isLineEnd .uc16 x) (targetLabel dest) (Agrees m) := by
      rw [isLineEnd_uc16, Bool.not_or, walk_declare, walk_instrs]
      refine ends_skip ?_ h₁ fun _ => ?_
      · rw [flags_lineEndTest hx, holds_be_char]
      rw [walk_instrs]
      refine ends_last hdone ?_ h₂
      rw [flags_separatorTest (regs_lineEndTest hx), holds_a_char, decide_lt_eq_not]
    exact hwalk.execute offset rfl rfl

end Blank

section Word

variable (htable : TableAt address wordTable m)

include hx htable

/-- Up to the last letter the table is read inside its bounds. -/
theorem flags_readWordTable (hle : x ≤ 0x7A) : (afterAll (readWordTable address) m).flags =
      (logicWord .w32 (if CharClass.isWord x then 1 else 0 : UInt8).toUInt32.toUInt64).2 := by
  have hlt : x.toNat < tableSize := Nat.lt_of_le_of_lt (UInt32.le_iff_toNat_le.mp hle) (by decide)
  have hmem := htable _ _ (getElem?_wordTable hlt)
  rw [ofNat_toNat_char] at hmem
  have hrax : (after (loadTable .rax address) m).regs .rax = address := rfl
  have hagrees := agrees_after (m := m) (i := loadTable .rax address) rfl
  exact flags_lookUp hrax (char_of_agrees hagrees hx) (hagrees.mem ▸ hmem)

include hdest

/-- The table ends before some characters, so those above the last letter branch away before it is
read. -/
theorem decides_word :
    Decides offset m (lowerClass mode next address dest .word).items dest
      (!CharClass.isWord x) := by
  have hdone := done_ne hdest
  have h₁ := agrees_after (m := m) (i := compareChar 0x7A) rfl
  have h₂ := h₁.trans (agrees_afterAll (readWordTable address) rfl)
  have hwalk : (walk (some ⟨next⟩) (.instr (compareChar 0x7A) :: branchTo .a dest :: .declare
      :: ((readWordTable address).map .instr ++ [branchTo .e dest])) m).Ends
      (!CharClass.isWord x) (targetLabel dest) (Agrees m) := by
    rw [← above_or_not_isWord, walk_instr]
    refine ends_branch hdone ?_ h₁ fun hle => ?_
    · rw [flags_compareChar hx, holds_a_char]
    rw [walk_declare, walk_instrs]
    refine ends_last hdone ?_ h₂
    have hle : x ≤ 0x7A := by simpa using hle
    rw [flags_readWordTable (char_of_agrees h₁ hx) htable hle, holds_e_logic]
    cases CharClass.isWord x <;> rfl
  exact hwalk.execute offset rfl rfl

/-- Characters above the last letter skip the look-up, as none of them belongs to a word. -/
theorem decides_notWord :
    Decides offset m (lowerClass mode next address dest .notWord).items dest
      (CharClass.isWord x) := by
  have hdone := done_ne hdest
  have h₁ := agrees_after (m := m) (i := compareChar 0x7A) rfl
  have h₂ := h₁.trans (agrees_afterAll (readWordTable address) rfl)
  have hwalk : (walk (some ⟨next⟩) (.declare :: .instr (compareChar 0x7A)
      :: .branch (.jcc .a) ⟨next⟩ :: ((readWordTable address).map .instr ++ [branchTo .ne dest]))
      m).Ends (CharClass.isWord x) (targetLabel dest) (Agrees m) := by
    rw [← Bool.not_not (CharClass.isWord x), ← above_or_not_isWord, Bool.not_or, Bool.not_not,
      walk_declare, walk_instr]
    refine ends_skip ?_ h₁ fun hle => ?_
    · rw [flags_compareChar hx, holds_a_char]
    rw [walk_instrs]
    refine ends_last hdone ?_ h₂
    have hle : x ≤ 0x7A := by simpa using hle
    rw [flags_readWordTable (char_of_agrees h₁ hx) htable hle, holds_ne_logic]
    cases CharClass.isWord x <;> rfl
  exact hwalk.execute offset rfl rfl

end Word

include hx hdest

/-- The code of a class test branches exactly if the character is outside the class. The classes
that look into a table need it at its address; the others are comparisons alone. -/
theorem decides_lowerClass (cls : CharClass)
    (htable : ∀ table, (lowerClass mode next address dest cls).bitTable = some table →
      TableAt address table m) :
    Decides offset m (lowerClass mode next address dest cls).items dest
      (!cls.contains mode x) := by
  cases cls with
  | whitespace => exact decides_whitespace hx hdest
  | notWhitespace =>
    rw [CharClass.contains, Bool.not_not]
    exact decides_notWhitespace hx
  | word => exact decides_word hx hdest (htable wordTable rfl)
  | notWord =>
    rw [CharClass.contains, Bool.not_not]
    exact decides_notWord hx hdest (htable wordTable rfl)
  | digit =>
    refine decides_rangeTest hx 0x30 0x39 rfl ?_
    rw [holds_a_char, CharClass.contains, isDigit_eq, decide_lt_eq_not]
  | notDigit =>
    refine decides_rangeTest hx 0x30 0x39 rfl ?_
    rw [holds_be_char, CharClass.contains, isDigit_eq, Bool.not_not]
  | lineTerminator => exact decides_lineTerminator hx hdest
  | notLineTerminator =>
    rw [CharClass.contains, Bool.not_not]
    exact decides_notLineTerminator hx
  | everything =>
    have hwalk : (walk none [] m).Ends false (targetLabel dest) (Agrees m) := ends_past (.refl m)
    exact hwalk.execute offset rfl rfl

/-- **The code of a character test decides the test**, for every 32-bit word in the place of the
character, and keeps everything but the flags and the free registers. -/
theorem decides_lowerTest {test : CharTest} (htest : test.InPlace)
    (htable : ∀ table, (lowerTest mode next address dest test).bitTable = some table →
      TableAt address table m) :
    Decides offset m (lowerTest mode next address dest test).items dest (test.holds mode x) := by
  cases test with
  | equal c => exact decides_compareChar hx c rfl (holds_e_char x c)
  | notEqual c => exact decides_compareChar hx c rfl (holds_ne_char x c)
  | equalAfterAnd c mask => exact decides_maskTest c mask (holds_e_maskTest hx c mask)
  | notEqualAfterAnd c mask => exact decides_maskTest c mask (holds_ne_maskTest hx c mask)
  | notEqualAfterMinusAnd c minus mask => exact decides_notEqualAfterMinusAnd hx c minus mask
  | greater limit => exact decides_compareChar hx limit rfl (holds_a_char x limit)
  | less limit => exact decides_compareChar hx limit rfl (holds_b_char x limit)
  | inRange first last => exact decides_rangeTest hx first last rfl (holds_be_char _ _)
  | notInRange first last => exact decides_rangeTest hx first last rfl (holds_a_char _ _)
  | inRanges ranges => exact htest.elim
  | notInRanges ranges => exact htest.elim
  | inTable table => exact decides_inTable hx htest (htable table rfl)
  | notInClass cls => exact decides_lowerClass hx hdest cls htable

end Class

end Assembly

end NativeMatcher
