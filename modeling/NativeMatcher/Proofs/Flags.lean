import NativeMatcher.Assembly.Exec
import NativeMatcher.Proofs.Encoding

/-!
# Words, flags and memory of the processor

The processor computes on numbers: a difference is reduced modulo the width, and carry, sign
and overflow tell what was lost. Generated code means something else by its words. A
character is an unsigned 32-bit word, zero-extended; a position or a register of the matcher
is a signed 64-bit word. This file goes from the one to the other:

* after a comparison of characters the unsigned conditions say how they compare
  (`NativeMatcher.X64.holds_a_char`), and after one of positions the signed ones do
  (`NativeMatcher.X64.holds_ge_place`);
* 32-bit arithmetic on zero-extended words is that of `UInt32`, whatever the sign of an
  immediate (`NativeMatcher.X64.immediate_char`, `NativeMatcher.X64.trunc_add_char`);
* a word is read back where it was written, and a store is not seen by a load of a word that
  does not overlap it (`NativeMatcher.X64.Machine.load_store_self`,
  `NativeMatcher.X64.Machine.load_store_of_apart`).

Most instructions of a test only compare, or compute in `rax` and `rcx`. Such an instruction
is *quiet*, and a row of them leaves a machine that agrees with the one before in everything
that matters (`NativeMatcher.X64.Machine.Agrees`).
-/

namespace NativeMatcher.X64

open Assembly Code

/-! ### The flags of a difference -/

section Difference

variable {w : Width} {a b : UInt64}

theorem zero_subWords (ha : a.toNat < w.count) (hb : b.toNat < w.count) :
    (subWords w a b).2.zero = decide (a = b) := by
  have hzero : (a.toNat + (w.count - b.toNat)) % w.count = 0 ↔ a = b := by
    rw [← UInt64.toNat_inj]
    cases w <;> simp only [Width.count] at ha hb ⊢ <;> omega
  simp only [subWords, Flags.ofResult, Bool.beq_eq_decide_eq, ← hzero]

/-- Sign and overflow differ exactly if the first word is less than the second as a signed
number: without overflow the sign is that of the true difference, with overflow it is wrong. -/
theorem sign_bne_overflow_subWords (ha : a.toNat < w.count) (hb : b.toNat < w.count) :
    ((subWords w a b).2.sign != (subWords w a b).2.overflow) =
      decide (w.signed a.toNat < w.signed b.toNat) := by
  -- What is left is a comparison of numbers in one of two widths.
  simp only [subWords, Flags.ofResult]
  rw [Bool.eq_iff_iff]
  simp only [bne_iff_ne, ne_eq, decide_eq_decide, decide_eq_true_eq]
  cases w <;> simp only [Width.count, Width.signed] at ha hb ⊢ <;> grind

end Difference

/-! ### Characters -/

section Char

variable (x y : UInt32)

theorem toNat_char_lt : x.toUInt64.toNat < Width.w32.count := by
  simpa [Width.count] using x.toNat_lt

@[simp] theorem holds_e_char :
    Cond.e.holds (subWords .w32 x.toUInt64 y.toUInt64).2 = (x == y) := by
  rw [Cond.holds, zero_subWords (toNat_char_lt x) (toNat_char_lt y)]
  simp [Bool.beq_eq_decide_eq, UInt32.toUInt64_inj]

@[simp] theorem holds_ne_char :
    Cond.ne.holds (subWords .w32 x.toUInt64 y.toUInt64).2 = (x != y) := by
  rw [bne, ← holds_e_char]
  rfl

@[simp] theorem holds_b_char :
    Cond.b.holds (subWords .w32 x.toUInt64 y.toUInt64).2 = decide (x < y) := by
  simp [Cond.holds, subWords, Flags.ofResult, UInt32.lt_iff_toNat_lt]

/-- Below or equal is the carry or the zero of a subtraction, which is the order of the words
without a sign. -/
@[simp] theorem holds_be_char :
    Cond.be.holds (subWords .w32 x.toUInt64 y.toUInt64).2 = decide (x ≤ y) := by
  have hor : Cond.be.holds (subWords .w32 x.toUInt64 y.toUInt64).2 =
      (decide (x < y) || x == y) := by
    rw [← holds_b_char, ← holds_e_char]
    rfl
  rw [hor, Bool.eq_iff_iff]
  simp [UInt32.le_iff_lt_or_eq]

/-- Above is its negation. -/
@[simp] theorem holds_a_char :
    Cond.a.holds (subWords .w32 x.toUInt64 y.toUInt64).2 = decide (y < x) := by
  have hnot : Cond.a.holds (subWords .w32 x.toUInt64 y.toUInt64).2 = !decide (x ≤ y) := by
    rw [← holds_be_char]
    rfl
  rw [hnot, Bool.eq_iff_iff]
  simp

@[simp] theorem holds_e_logic : Cond.e.holds (logicWord .w32 x.toUInt64).2 = (x == 0) := by
  rw [Cond.holds, logicWord, Flags.ofResult, Bool.eq_iff_iff]
  simp [← UInt32.toNat_inj]

@[simp] theorem holds_ne_logic : Cond.ne.holds (logicWord .w32 x.toUInt64).2 = (x != 0) := by
  rw [bne, ← holds_e_logic]
  rfl

@[simp] theorem subWords_char :
    (subWords .w32 x.toUInt64 y.toUInt64).1 = (x - y).toUInt64 := by
  apply UInt64.toNat_inj.mp
  have hy : y.toNat < 2 ^ 32 := y.toNat_lt
  simp only [subWords, Width.count, UInt32.toNat_toUInt64, UInt64.toNat_ofNat', UInt32.toNat_sub]
  omega

@[simp] theorem trunc_char : Width.w32.trunc x.toUInt64 = x.toUInt64 := by
  simp [Width.trunc]

theorem ofNat_toNat_char : UInt64.ofNat x.toNat = x.toUInt64 := by
  apply UInt64.toNat_inj.mp
  have hx : x.toNat < 2 ^ 32 := x.toNat_lt
  rw [UInt64.toNat_ofNat', UInt32.toNat_toUInt64, Nat.mod_eq_of_lt (by omega)]

/-- The lower half of a sign-extended word is the word. -/
theorem toUInt32_signExtended (d : Int32) : d.toInt64.toUInt64.toUInt32 = d.toUInt32 := by
  apply UInt32.toBitVec_inj.mp
  show (d.toBitVec.signExtend 64).setWidth 32 = d.toBitVec
  ext i hi
  have hi' : i < 64 := by omega
  simp [BitVec.getElem_signExtend, hi, hi']

/-- An immediate stands for the 32 bits it has, though the processor extends its sign. -/
@[simp] theorem immediate_char : immediate .w32 x.toInt32 = x.toUInt64 := by
  rw [immediate, Width.trunc, toUInt32_signExtended]
  rfl

/-- Adding a displacement wraps around at 32 bits. -/
theorem trunc_add_char (d : Int32) :
    Width.w32.trunc (x.toUInt64 + 0 + d.toInt64.toUInt64) = (x + d.toUInt32).toUInt64 := by
  rw [Width.trunc, UInt64.add_zero, UInt64.toUInt32_add, toUInt32_signExtended,
    UInt32.toUInt32_toUInt64]

end Char

/-! ### Positions -/

section Place

variable (x y : Int64)

theorem toUInt64_inj_place {x y : Int64} : x.toUInt64 = y.toUInt64 ↔ x = y :=
  ⟨fun h => congrArg UInt64.toInt64 h, fun h => congrArg Int64.toUInt64 h⟩

theorem toNat_place_lt (v : UInt64) : v.toNat < Width.w64.count := v.toNat_lt

/-- A signed word keeps its value as a word that is read with its sign. -/
theorem signed_toUInt64 : Width.w64.signed x.toUInt64.toNat = x.toInt := by
  have hmod : x.toInt = (x.toUInt64.toNat : Int).bmod (2 ^ 64) := BitVec.toInt_eq_toNat_bmod _
  have hlt : x.toUInt64.toNat < 2 ^ 64 := x.toUInt64.toNat_lt
  rw [hmod, Int.bmod_def, Int.emod_eq_of_lt (by omega) (by omega)]
  show (if x.toUInt64.toNat < 2 ^ 63 then (x.toUInt64.toNat : Int)
    else x.toUInt64.toNat - 2 ^ 64) = _
  split <;> split <;> omega

@[simp] theorem holds_e_place :
    Cond.e.holds (subWords .w64 x.toUInt64 y.toUInt64).2 = (x == y) := by
  rw [Cond.holds, zero_subWords (toNat_place_lt _) (toNat_place_lt _)]
  simp [Bool.beq_eq_decide_eq, toUInt64_inj_place]

@[simp] theorem holds_ne_place :
    Cond.ne.holds (subWords .w64 x.toUInt64 y.toUInt64).2 = (x != y) := by
  rw [bne, ← holds_e_place]
  rfl

@[simp] theorem holds_l_place :
    Cond.l.holds (subWords .w64 x.toUInt64 y.toUInt64).2 = decide (x < y) := by
  rw [Cond.holds, sign_bne_overflow_subWords (toNat_place_lt _) (toNat_place_lt _),
    signed_toUInt64, signed_toUInt64]
  simp [Int64.lt_iff_toInt_lt]

/-- Greater or equal is told by sign and overflow together, which is the order of signed words even
where their difference leaves the word. -/
@[simp] theorem holds_ge_place :
    Cond.ge.holds (subWords .w64 x.toUInt64 y.toUInt64).2 = decide (y ≤ x) := by
  have hnot : Cond.ge.holds (subWords .w64 x.toUInt64 y.toUInt64).2 = !decide (x < y) := by
    rw [← holds_l_place]
    simp only [Cond.holds, bne, Bool.not_not]
  rw [hnot, Bool.eq_iff_iff]
  simp

/-- Less or equal adds the case that the difference is zero. -/
@[simp] theorem holds_le_place :
    Cond.le.holds (subWords .w64 x.toUInt64 y.toUInt64).2 = decide (x ≤ y) := by
  have hor : Cond.le.holds (subWords .w64 x.toUInt64 y.toUInt64).2 =
      (x == y || decide (x < y)) := by
    rw [← holds_l_place, ← holds_e_place]
    rfl
  rw [hor, Bool.eq_iff_iff]
  simp [Int64.le_iff_lt_or_eq, or_comm]

theorem addWords_place (a b : UInt64) : (addWords .w64 a b).1 = a + b := by
  apply UInt64.toNat_inj.mp
  simp [addWords, Width.count]

theorem subWords_place (a b : UInt64) : (subWords .w64 a b).1 = a - b := by
  apply UInt64.toNat_inj.mp
  have hb : b.toNat < 2 ^ 64 := b.toNat_lt
  simp only [subWords, Width.count, UInt64.toNat_ofNat', UInt64.toNat_sub]
  omega

/-- After an addition the condition *greater* tells the sign of the true sum, whatever wraps
around. -/
@[simp] theorem holds_g_add : Cond.g.holds (addWords .w64 x.toUInt64 y.toUInt64).2 =
    decide (0 < x.toInt + y.toInt) := by
  have hx := signed_toUInt64 x
  have hy := signed_toUInt64 y
  have hlt : x.toUInt64.toNat < 2 ^ 64 := x.toUInt64.toNat_lt
  have hlt' : y.toUInt64.toNat < 2 ^ 64 := y.toUInt64.toNat_lt
  rw [← hx, ← hy]
  simp only [Cond.holds, addWords, Flags.ofResult]
  generalize x.toUInt64.toNat = a at *
  generalize y.toUInt64.toNat = b at *
  rw [Bool.eq_iff_iff]
  simp only [Width.count, Width.signed] at *
  simp only [Bool.and_eq_true, Bool.not_eq_true', beq_eq_false_iff_ne, beq_iff_eq]
  grind

/-- A comparison of addresses. -/
@[simp] theorem holds_b_address (a b : UInt64) :
    Cond.b.holds (subWords .w64 a b).2 = decide (a < b) := by
  simp [Cond.holds, subWords, Flags.ofResult, UInt64.lt_iff_toNat_lt]

end Place

/-! ### Memory -/

namespace Machine

variable {m m' : Machine} {a b : UInt64}

/-- The bytes at an address, one by one. -/
theorem getElem?_bytesAt (m : Machine) (a : UInt64) {n i : Nat} (h : i < n) :
    (m.bytesAt a n)[i]? = some (m.mem (a + UInt64.ofNat i)) := by
  induction n generalizing a i with
  | zero => omega
  | succ n ih =>
    cases i with
    | zero => simp [bytesAt]
    | succ i =>
      rw [bytesAt, List.getElem?_cons_succ, ih (a + 1) (by omega), UInt64.add_assoc,
        UInt64.add_comm 1, ← UInt64.ofNat_one, ← UInt64.ofNat_add]

/-- Bytes are the same where memory is the same. -/
theorem bytesAt_congr {n : Nat}
    (h : ∀ i < n, m'.mem (a + UInt64.ofNat i) = m.mem (a + UInt64.ofNat i)) :
    m'.bytesAt a n = m.bytesAt a n := by
  apply List.ext_getElem?
  intro i
  rcases Nat.lt_or_ge i n with hi | hi
  · rw [getElem?_bytesAt m' a hi, getElem?_bytesAt m a hi, h i hi]
  · rw [List.getElem?_eq_none (by simpa using hi), List.getElem?_eq_none (by simpa using hi)]

/-- A byte by its distance from an address. -/
theorem toNat_add_ofNat_sub {i : Nat} (hi : i < 2 ^ 64) (a : UInt64) :
    (a + UInt64.ofNat i - a).toNat = i := by
  rw [UInt64.add_comm, UInt64.add_sub_cancel, UInt64.toNat_ofNat', Nat.mod_eq_of_lt hi]

/-- A word is read back where it was written. -/
theorem load_store_self (m : Machine) (a v : UInt64) :
    (m.store .w64 a v).load .w64 a = v := by
  have hbytes : (m.store .w64 a v).bytesAt a 8 = toBytes 8 v.toNat := by
    apply List.ext_getElem?
    intro i
    rcases Nat.lt_or_ge i 8 with hi | hi
    · rw [getElem?_bytesAt _ a hi]
      have hoffset := toNat_add_ofNat_sub (i := i) (by omega) a
      simp only [store, write, Width.bytes, hoffset]
      rw [List.getElem?_eq_getElem (by simpa using hi)]
      rfl
    · rw [List.getElem?_eq_none (by simpa using hi), List.getElem?_eq_none (by simpa using hi)]
  have hmod : v.toNat % wordCount 8 = v.toNat := Nat.mod_eq_of_lt v.toNat_lt
  show UInt64.ofNat (ofBytes ((m.store .w64 a v).bytesAt a 8)) = v
  rw [hbytes, ofBytes_toBytes, hmod, UInt64.ofNat_toNat]

/-- A store is not seen by a load of a word beside it. -/
theorem load_store_of_apart (m : Machine) (v : UInt64) (h : 8 ≤ (b - a).toNat)
    (h' : (b - a).toNat + 8 ≤ 2 ^ 64) : (m.store .w64 a v).load .w64 b = m.load .w64 b := by
  have hbytes : (m.store .w64 a v).bytesAt b 8 = m.bytesAt b 8 := by
    refine bytesAt_congr fun i hi => m.mem_store_of_outside ?_
    have hoffset : b + UInt64.ofNat i - a = b - a + UInt64.ofNat i := by
      rw [UInt64.sub_eq_add_neg, UInt64.sub_eq_add_neg, UInt64.add_assoc, UInt64.add_assoc,
        UInt64.add_comm (UInt64.ofNat i)]
    rw [hoffset, UInt64.toNat_add, UInt64.toNat_ofNat']
    show 8 ≤ _
    omega
  show UInt64.ofNat (ofBytes ((m.store .w64 a v).bytesAt b 8)) =
    UInt64.ofNat (ofBytes (m.bytesAt b 8))
  rw [hbytes]

theorem load_congr (h : m'.mem = m.mem) (w : Width) (a : UInt64) : m'.load w a = m.load w a := by
  have hbytes : m'.bytesAt a w.bytes = m.bytesAt a w.bytes := bytesAt_congr fun _ _ => by rw [h]
  rw [load, load, hbytes]

/-- A load sees the bytes of its word only. -/
theorem load_eq_of_bytes (h : ∀ b, (b - a).toNat < 8 → m'.mem b = m.mem b) :
    m'.load .w64 a = m.load .w64 a := by
  have hbytes : m'.bytesAt a 8 = m.bytesAt a 8 := bytesAt_congr fun i hi => h _ (by
    rw [toNat_add_ofNat_sub (by omega)]
    exact hi)
  show UInt64.ofNat (ofBytes (m'.bytesAt a 8)) = UInt64.ofNat (ofBytes (m.bytesAt a 8))
  rw [hbytes]

/-! ### What instructions write -/

/-- The machine `m'` agrees with `m` in its memory and in every register but the free ones. -/
structure AgreesBeyond (free : List Reg) (m m' : Machine) : Prop where
  /-- The memory is the same. -/
  mem : m'.mem = m.mem
  /-- The registers are the same, apart from the free ones. -/
  regs : ∀ r, r ∉ free → m'.regs r = m.regs r

namespace AgreesBeyond

variable {free : List Reg} {m'' : Machine}

theorem refl (free : List Reg) (m : Machine) : AgreesBeyond free m m := ⟨rfl, fun _ _ => rfl⟩

theorem trans (h : AgreesBeyond free m m') (h' : AgreesBeyond free m' m'') :
    AgreesBeyond free m m'' :=
  ⟨h'.mem.trans h.mem, fun r hr => (h'.regs r hr).trans (h.regs r hr)⟩

theorem mono {free' : List Reg} (h : AgreesBeyond free m m') (hfree : ∀ r ∈ free, r ∈ free') :
    AgreesBeyond free' m m' :=
  ⟨h.mem, fun r hr => h.regs r fun hcon => hr (hfree r hcon)⟩

theorem setFlags (h : AgreesBeyond free m m') (f : Flags) : AgreesBeyond free m (m'.setFlags f) :=
  ⟨h.mem, h.regs⟩

theorem setReg {r : Reg} (h : r ∈ free) (w : Width) (v : UInt64) :
    AgreesBeyond free m (m.setReg w r v) :=
  ⟨rfl, fun _ hs => m.regs_setReg_of_ne fun heq => hs (heq ▸ h)⟩

end AgreesBeyond

end Machine

/-- Whether an operand is one of the free registers. -/
def Operand.within (free : List Reg) : Operand → Bool
  | .reg r => free.contains r
  | .mem _ => false

/-- Whether an instruction changes nothing but the flags and the free registers. -/
def Instr.writesWithin (free : List Reg) : Instr → Bool
  | aluRegRm op _ dst _ => !op.writes || (Operand.reg dst).within free
  | aluRmReg op _ dst _ | aluRmImm op _ dst _ => !op.writes || dst.within free
  | testRmReg .. | testRmImm .. => true
  | movRmReg _ dst _ | movRmImm _ dst _ => dst.within free
  | movRegRm _ dst _ | movRegImm32 dst _ | movRegImm64 dst _ | lea _ dst _ | movExtend _ dst _ =>
    (Operand.reg dst).within free
  | _ => false

theorem transfers_of_writesWithin {free : List Reg} {i : Instr}
    (h : i.writesWithin free = true) : transfers i = false := by
  cases i <;> first | rfl | cases h

namespace Machine

variable {m : Machine} {free : List Reg}

theorem agreesBeyond_setReg {r : Reg} (h : (Operand.reg r).within free = true) (w : Width)
    (v : UInt64) : AgreesBeyond free m (m.setReg w r v) :=
  .setReg (List.contains_iff_mem.mp h) w v

theorem agreesBeyond_put {o : Operand} (h : o.within free = true) (w : Width) (v : UInt64) :
    AgreesBeyond free m (m.put w o v) := by
  cases o with
  | reg r => exact agreesBeyond_setReg h w v
  | mem x => cases h

/-- An operation changes its destination and the flags, and a comparison the flags only. -/
theorem agreesBeyond_alu {op : AluOp} {o : Operand} (h : (!op.writes || o.within free) = true)
    (w : Width) (v : UInt64) : AgreesBeyond free m (m.alu op w o v) := by
  rw [alu]
  refine .setFlags ?_ _
  split
  · next hw =>
    rw [hw] at h
    exact agreesBeyond_put h w _
  · exact .refl free m

/-- An instruction that writes within some registers leaves all others and the memory alone. -/
theorem agreesBeyond_after {i : Instr} (h : i.writesWithin free = true) :
    AgreesBeyond free m (after i m) := by
  cases i with
  | aluRegRm op w dst src => exact agreesBeyond_alu h w _
  | aluRmReg op w dst src => exact agreesBeyond_alu h w _
  | aluRmImm op w dst imm => exact agreesBeyond_alu h w _
  | testRmReg w rm reg => exact .setFlags (.refl free m) _
  | testRmImm w rm imm => exact .setFlags (.refl free m) _
  | movRmReg w dst src => exact agreesBeyond_put h w _
  | movRmImm w dst imm => exact agreesBeyond_put h w _
  | movRegRm w dst src => exact agreesBeyond_setReg h w _
  | movRegImm32 dst imm => exact agreesBeyond_setReg h _ _
  | movRegImm64 dst imm => exact agreesBeyond_setReg h _ _
  | lea w dst src => exact agreesBeyond_setReg h w _
  | movExtend ext dst src => cases ext <;> exact agreesBeyond_setReg h _ _
  | _ => cases h

/-- A row of instructions writes what they write. -/
theorem agreesBeyond_afterAll (is : List Instr) (h : is.all (Instr.writesWithin free) = true) :
    AgreesBeyond free m (afterAll is m) := by
  induction is generalizing m with
  | nil => exact .refl free m
  | cons i is ih =>
    rw [List.all_cons, Bool.and_eq_true] at h
    exact (agreesBeyond_after h.1).trans (ih h.2)

/-! ### Quiet instructions -/

/-- The machine `m'` agrees with `m` in its memory and in every register that holds its value
from one opcode to the next. -/
structure Agrees (m m' : Machine) : Prop where
  /-- The memory is the same. -/
  mem : m'.mem = m.mem
  /-- The registers are the same, apart from the two that are free. -/
  regs : ∀ r, r ≠ .rax → r ≠ .rcx → m'.regs r = m.regs r

theorem Agrees.refl (m : Machine) : Agrees m m := ⟨rfl, fun _ _ _ => rfl⟩

theorem Agrees.trans {m' m'' : Machine} (h : Agrees m m') (h' : Agrees m' m'') : Agrees m m'' :=
  ⟨h'.mem.trans h.mem, fun r ha hc => (h'.regs r ha hc).trans (h.regs r ha hc)⟩

theorem agrees_of_agreesBeyond {m' : Machine} (h : AgreesBeyond [.rax, .rcx] m m') :
    Agrees m m' :=
  ⟨h.mem, fun r ha hc => h.regs r (by simp [ha, hc])⟩

end Machine

/-- Whether an operand is one of the two free registers. -/
def Operand.isFree : Operand → Bool
  | .reg .rax | .reg .rcx => true
  | _ => false

/-- Whether an instruction changes nothing but the flags and the two free registers. -/
def Instr.isQuiet : Instr → Bool
  | aluRegRm op _ dst _ => !op.writes || (Operand.reg dst).isFree
  | aluRmReg op _ dst _ | aluRmImm op _ dst _ => !op.writes || dst.isFree
  | testRmReg .. | testRmImm .. => true
  | movRmReg _ dst _ | movRmImm _ dst _ => dst.isFree
  | movRegRm _ dst _ | movRegImm32 dst _ | movRegImm64 dst _ | lea _ dst _ | movExtend _ dst _ =>
    (Operand.reg dst).isFree
  | _ => false

theorem isFree_eq (o : Operand) : o.isFree = o.within [.rax, .rcx] := by
  cases o with
  | reg r => cases r <;> rfl
  | mem x => rfl

/-- Quiet instructions write the two free registers only. -/
theorem isQuiet_eq (i : Instr) : i.isQuiet = i.writesWithin [.rax, .rcx] := by
  cases i <;> simp only [Instr.isQuiet, Instr.writesWithin, isFree_eq]

theorem transfers_of_isQuiet {i : Instr} (h : i.isQuiet = true) : transfers i = false := by
  rw [isQuiet_eq] at h
  exact transfers_of_writesWithin h

namespace Machine

variable {m : Machine}

theorem agrees_setFlags {m' : Machine} (h : Agrees m m') (f : Flags) :
    Agrees m (m'.setFlags f) :=
  ⟨h.mem, h.regs⟩

theorem agrees_after {i : Instr} (h : i.isQuiet = true) : Agrees m (after i m) := by
  rw [isQuiet_eq] at h
  exact agrees_of_agreesBeyond (agreesBeyond_after h)

/-- **A row of quiet instructions leaves what matters as it is.** -/
theorem agrees_afterAll (is : List Instr) (h : is.all Instr.isQuiet = true) :
    Agrees m (afterAll is m) := by
  rw [funext isQuiet_eq] at h
  exact agrees_of_agreesBeyond (agreesBeyond_afterAll is h)

end Machine

end NativeMatcher.X64
