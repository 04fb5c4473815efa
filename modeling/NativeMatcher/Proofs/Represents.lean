import NativeMatcher.Assembly.Lower
import NativeMatcher.Matching.Step
import NativeMatcher.Proofs.Flags
import NativeMatcher.Proofs.Position

/-!
# Threads in a machine

A thread is a state of its own; a processor that runs compiled code holds it in registers and
memory. The position is in `r12` and the characters in `r13`, the capture registers in the
frame below the frame pointer, and the subject ends where `r14` points
(`NativeMatcher.Represents`). Words of the frame do not overlap, and none of them lies in the
subject.

There are two ways in which code changes what a machine represents. It moves – another
position, other characters, the same memory (`NativeMatcher.Represents.move`) – or it stores a
capture register (`NativeMatcher.Represents.write`). All else stays: the other registers of the
processor and the memory beside the register file (`NativeMatcher.Spares`). A load inside the
subject finds its characters there (`NativeMatcher.after_loadChars`).
-/

namespace NativeMatcher

open Assembly Code X64 X64.Machine

/-! ### Represented threads -/

namespace X64.Machine

variable (m : Machine)

/-- The address of a capture register. -/
def registerAddress (i : Nat) : UInt64 := m.address { base := fp, disp := registerOffset i }

/-- The address of the place before the subject. -/
def beforeAddress : UInt64 := m.address { base := fp, disp := slotOffset .beforeStart }

/-- The address of the word that holds the address of the host's state. -/
def contextAddress : UInt64 := m.address { base := fp, disp := slotOffset .runtimeContext }

/-- The address of a byte of a subject of `size` bytes. -/
def subjectAddress (size i : Nat) : UInt64 :=
  m.regs inputEnd - UInt64.ofNat size + UInt64.ofNat i

end X64.Machine

/-- A machine holds a thread. -/
structure Represents (k : Task) (t : Thread) (m : Machine) : Prop where
  /-- The position. -/
  pos : m.regs Assembly.pos = t.pos.toUInt64
  /-- The character, zero-extended. -/
  char : m.regs chr = t.char.toUInt64
  /-- The registers. -/
  registers : ∀ i < t.regs.size, m.load .w64 (m.registerAddress i) = (t.reg i).toUInt64
  /-- The place before the subject. -/
  before : m.load .w64 m.beforeAddress = k.before.toUInt64
  /-- The subject. -/
  subject : ∀ i < k.subject.byteSize,
    k.subject.byte? i = some (m.mem (m.subjectAddress k.subject.byteSize i))
  /-- No register lies in the subject. -/
  apart : ∀ i < t.regs.size, ∀ j < k.subject.byteSize,
    8 ≤ (m.subjectAddress k.subject.byteSize j - m.registerAddress i).toNat
  /-- There are no more registers than a frame can have. -/
  size_regs : t.regs.size ≤ maxRegister + 1
  /-- The subject fits into the address space: addresses have less than 62 significant bits. -/
  byteSize : k.subject.byteSize < 2 ^ 62

/-- The bytes that code reads for a thread with `count` registers: these registers, two words of the
frame and the subject. -/
inductive Task.Needs (k : Task) (count : Nat) (m : Machine) (b : UInt64) : Prop
  /-- The byte is one of a register. -/
  | register {i : Nat} (hi : i < count) (h : (b - m.registerAddress i).toNat < 8)
  /-- It is one of the place before the subject. -/
  | before (h : (b - m.beforeAddress).toNat < 8)
  /-- It is one of the address of the host's state. -/
  | context (h : (b - m.contextAddress).toNat < 8)
  /-- It lies in the subject. -/
  | subject {i : Nat} (hi : i < k.subject.byteSize)
      (h : b = m.subjectAddress k.subject.byteSize i)

/-- The machine `m'` has everything from `m` but the free registers, the position, the character
and the first `count` capture registers. -/
structure Spares (count : Nat) (m m' : Machine) : Prop where
  /-- The other registers of the processor. -/
  regs : ∀ r, r ≠ .rax → r ≠ .rcx → r ≠ pos → r ≠ chr → m'.regs r = m.regs r
  /-- The other memory. -/
  mem : ∀ b, (∀ i < count, 8 ≤ (b - m.registerAddress i).toNat) → m'.mem b = m.mem b

/-! ### Addresses -/

section Address

variable {m : Machine}

/-- A negative displacement, widened with its sign, is subtracted: this is how all slots of the
frame are addressed. -/
theorem toUInt64_of_toInt {d : Int32} {n : Nat} (h : d.toInt = -n) :
    d.toInt64.toUInt64 = -UInt64.ofNat n := by
  have hneg : d.toInt64 = -Int64.ofNat n := by
    rw [← Int64.ofInt_toInt d.toInt64, Int32.toInt_toInt64, h, Int64.ofInt_neg]
    rfl
  rw [hneg]
  rfl

/-- Registers lie below the fixed slots of the frame, one word each, and none of their offsets
overflows. -/
theorem toInt_registerOffset {i : Nat} (hi : i ≤ maxRegister) :
    (registerOffset i).toInt = -(8 * (16 + i) : Nat) := by
  have hmax : maxRegister = 65535 := rfl
  have hplace : frameLayout.registerPlace i = -(15 + 1 + i : Nat) := rfl
  have hword : wordSize.toInt = 8 := rfl
  have hoffset : frameLayout.registerPlace i * wordSize.toInt = -(8 * (16 + i) : Nat) := by
    rw [hplace, hword]
    omega
  rw [registerOffset, hoffset, Int32.toInt_ofInt_of_le (by omega) (by omega)]

theorem registerAddress_eq {i : Nat} (hi : i ≤ maxRegister) :
    m.registerAddress i = m.regs fp - UInt64.ofNat (8 * (16 + i)) := by
  show m.regs fp + 0 + (registerOffset i).toInt64.toUInt64 = _
  rw [toUInt64_of_toInt (toInt_registerOffset hi), UInt64.add_zero, UInt64.sub_eq_add_neg]

theorem beforeAddress_eq : m.beforeAddress = m.regs fp - UInt64.ofNat 104 := by
  have hoffset : (slotOffset .beforeStart).toInt = -(104 : Nat) := by decide
  show m.regs fp + 0 + (slotOffset .beforeStart).toInt64.toUInt64 = _
  rw [toUInt64_of_toInt hoffset, UInt64.add_zero, UInt64.sub_eq_add_neg]

/-- Two words of the frame do not overlap. -/
theorem apart_of_frame (v : UInt64) {x y : Nat} (hx : x < 2 ^ 32) (hy : y < 2 ^ 32)
    (h : x + 8 ≤ y ∨ y + 8 ≤ x) :
    8 ≤ (v - UInt64.ofNat x - (v - UInt64.ofNat y)).toNat ∧
      (v - UInt64.ofNat x - (v - UInt64.ofNat y)).toNat + 8 ≤ 2 ^ 64 := by
  have hv : v.toNat < 2 ^ 64 := v.toNat_lt
  simp only [UInt64.toNat_sub, UInt64.toNat_ofNat']
  omega

end Address

/-! ### Moves and writes -/

namespace Spares

variable {n : Nat} {m m' m'' : Machine}

theorem registerAddress (h : Spares n m m') (i : Nat) :
    m'.registerAddress i = m.registerAddress i := by
  show m'.regs fp + 0 + _ = m.regs fp + 0 + _
  rw [h.regs fp (by decide) (by decide) (by decide) (by decide)]

theorem beforeAddress (h : Spares n m m') : m'.beforeAddress = m.beforeAddress := by
  show m'.regs fp + 0 + _ = m.regs fp + 0 + _
  rw [h.regs fp (by decide) (by decide) (by decide) (by decide)]

theorem subjectAddress (h : Spares n m m') (size i : Nat) :
    m'.subjectAddress size i = m.subjectAddress size i := by
  rw [Machine.subjectAddress, Machine.subjectAddress,
    h.regs inputEnd (by decide) (by decide) (by decide) (by decide)]

theorem trans (h : Spares n m m') (h' : Spares n m' m'') : Spares n m m'' := by
  refine ⟨fun r ha hc hp hx => (h'.regs r ha hc hp hx).trans (h.regs r ha hc hp hx),
    fun b hb => (h'.mem b fun i hi => ?_).trans (h.mem b hb)⟩
  rw [h.registerAddress]
  exact hb i hi

theorem of_mem_eq (hmem : m'.mem = m.mem)
    (hregs : ∀ r, r ≠ .rax → r ≠ .rcx → r ≠ pos → r ≠ chr → m'.regs r = m.regs r) :
    Spares n m m' :=
  ⟨hregs, fun b _ => congrFun hmem b⟩

theorem of_agrees (h : Agrees m m') : Spares n m m' :=
  of_mem_eq h.mem fun r ha hc _ _ => h.regs r ha hc

end Spares

namespace Represents

variable {k : Task} {t : Thread} {m m' : Machine}

/-- A machine with what a thread needs represents the thread after a move. -/
theorem carry (h : Represents k t m) (hmem : ∀ b, k.Needs t.regs.size m b → m'.mem b = m.mem b)
    (hfp : m'.regs fp = m.regs fp) (hend : m'.regs inputEnd = m.regs inputEnd) {p : Int64}
    (hp : m'.regs Assembly.pos = p.toUInt64) {c : UInt32} (hc : m'.regs chr = c.toUInt64)
    (pc : Nat) : Represents k { t with pos := p, char := c, pc := pc } m' := by
  have hregister (i : Nat) : m'.registerAddress i = m.registerAddress i := by
    show m'.regs fp + 0 + _ = m.regs fp + 0 + _
    rw [hfp]
  have hbefore : m'.beforeAddress = m.beforeAddress := by
    show m'.regs fp + 0 + _ = m.regs fp + 0 + _
    rw [hfp]
  have hsubject (i : Nat) : m'.subjectAddress k.subject.byteSize i =
      m.subjectAddress k.subject.byteSize i := by
    rw [subjectAddress, subjectAddress, hend]
  refine ⟨hp, hc, fun i hi => ?_, ?_, fun i hi => ?_, fun i hi j hj => ?_, h.size_regs, h.byteSize⟩
  · rw [hregister, load_eq_of_bytes fun b hb => hmem b (.register hi hb)]
    exact h.registers i hi
  · rw [hbefore, load_eq_of_bytes fun b hb => hmem b (.before hb)]
    exact h.before
  · rw [hsubject, hmem _ (.subject hi rfl)]
    exact h.subject i hi
  · rw [hsubject, hregister]
    exact h.apart i hi j hj

/-- A machine with the same memory represents a thread that moved. -/
theorem move (h : Represents k t m) (hs : Spares t.regs.size m m') (hmem : m'.mem = m.mem)
    {p : Int64} (hp : m'.regs Assembly.pos = p.toUInt64) {c : UInt32}
    (hc : m'.regs chr = c.toUInt64) (pc : Nat) :
    Represents k { t with pos := p, char := c, pc := pc } m' :=
  h.carry (fun b _ => congrFun hmem b) (hs.regs fp (by decide) (by decide) (by decide) (by decide))
    (hs.regs inputEnd (by decide) (by decide) (by decide) (by decide)) hp hc pc

/-- Nothing that a thread sees has changed. -/
theorem of_agrees (h : Represents k t m) (hm : Agrees m m') (pc : Nat) :
    Represents k { t with pc := pc } m' :=
  h.move (.of_agrees hm) hm.mem ((hm.regs Assembly.pos (by decide) (by decide)).trans h.pos)
    ((hm.regs chr (by decide) (by decide)).trans h.char) pc

/-- The machine after the position is set. -/
theorem setPos (h : Represents k t m) (p : Int64) (pc : Nat) :
    Represents k { t with pos := p, pc := pc } (m.setReg .w64 Assembly.pos p.toUInt64) ∧
      Spares t.regs.size m (m.setReg .w64 Assembly.pos p.toUInt64) := by
  have hs : Spares t.regs.size m (m.setReg .w64 Assembly.pos p.toUInt64) :=
    .of_mem_eq rfl fun r _ _ hr _ => m.regs_setReg_of_ne hr
  exact ⟨h.move hs rfl (m.regs_setReg_self .w64 _ _) h.char pc, hs⟩

/-- The machine after characters are loaded. -/
theorem setChar (h : Represents k t m) (c : UInt32) (pc : Nat) :
    Represents k { t with char := c, pc := pc } (m.setReg .w32 chr c.toUInt64) ∧
      Spares t.regs.size m (m.setReg .w32 chr c.toUInt64) := by
  have hs : Spares t.regs.size m (m.setReg .w32 chr c.toUInt64) :=
    .of_mem_eq rfl fun r _ _ _ hr => m.regs_setReg_of_ne hr
  have hchar : (m.setReg .w32 chr c.toUInt64).regs chr = c.toUInt64 :=
    (m.regs_setReg_self .w32 chr _).trans (trunc_char c)
  exact ⟨h.move hs rfl h.pos hchar pc, hs⟩

/-- The machine after a capture register is stored. The word lies in the frame, so all that a thread
needs besides is as it was, and it represents the thread with the register set. -/
theorem write (h : Represents k t m) {i : Nat} (hi : i < t.regs.size) (v : Int64) :
    Represents k (t.setReg i v) (m.store .w64 (m.registerAddress i) v.toUInt64) ∧
      Spares t.regs.size m (m.store .w64 (m.registerAddress i) v.toUInt64) := by
  have hmax : maxRegister = 65535 := rfl
  have hsize := h.size_regs
  have hs : Spares t.regs.size m (m.store .w64 (m.registerAddress i) v.toUInt64) :=
    ⟨fun r _ _ _ _ => rfl, fun b hb => m.mem_store_of_outside (hb i hi)⟩
  refine ⟨⟨h.pos, h.char, fun j hj => ?_, ?_, fun j hj => ?_, fun j hj => ?_, ?_, h.byteSize⟩, hs⟩
  · rw [t.size_regs_setReg] at hj
    rw [hs.registerAddress]
    -- The words of two registers do not overlap.
    by_cases hij : j = i
    · rw [hij, load_store_self, t.reg_setReg_self v hi]
    · rw [t.reg_setReg_of_ne v hij, ← h.registers j hj]
      obtain ⟨h₁, h₂⟩ := apart_of_frame (m.regs fp) (x := 8 * (16 + j)) (y := 8 * (16 + i))
        (by omega) (by omega) (by omega)
      rw [← registerAddress_eq (by omega), ← registerAddress_eq (by omega)] at h₁ h₂
      exact load_store_of_apart m _ h₁ h₂
  · obtain ⟨h₁, h₂⟩ := apart_of_frame (m.regs fp) (x := 104) (y := 8 * (16 + i))
      (by omega) (by omega) (by omega)
    rw [← beforeAddress_eq, ← registerAddress_eq (by omega)] at h₁ h₂
    rw [hs.beforeAddress, load_store_of_apart m _ h₁ h₂]
    exact h.before
  · rw [hs.subjectAddress, h.subject j hj]
    have hout : Width.w64.bytes ≤ (m.subjectAddress k.subject.byteSize j -
        m.registerAddress i).toNat := h.apart i hi j hj
    rw [m.mem_store_of_outside hout]
  · rw [t.size_regs_setReg] at hj
    rw [hs.registerAddress]
    exact h.apart j hj
  · rw [t.size_regs_setReg]
    exact hsize

end Represents

/-! ### Loads -/

/-- Whether `count` characters at a position lie in the subject. -/
def Task.Inside (k : Task) (pos : Int64) (count : Nat) : Prop :=
  -k.subject.byteSize ≤ pos.toInt ∧ pos.toInt + (count * k.mode.charSize : Nat) ≤ 0

section Load

variable {k : Task} {t : Thread} {m : Machine}

/-- The word in a subject is made of the bytes in memory. -/
theorem wordAt?_eq (h : Represents k t m) {i n : Nat} (hi : i + n ≤ k.subject.byteSize) :
    k.subject.wordAt? i n =
      some (UInt32.ofNat (ofBytes (m.bytesAt (m.subjectAddress k.subject.byteSize i) n))) := by
  induction n generalizing i with
  | zero => rfl
  | succ n ih =>
    have hbyte : k.subject.byteAt? i = some (m.mem (m.subjectAddress k.subject.byteSize i)) := by
      rw [Subject.byteAt?_of_lt (by omega), h.subject i (by omega)]
    have hnext : m.subjectAddress k.subject.byteSize i + 1 =
        m.subjectAddress k.subject.byteSize (i + 1) := by
      rw [subjectAddress, subjectAddress, UInt64.ofNat_add, ← UInt64.add_assoc]
      rfl
    have hrest := ih (i := i + 1) (by omega)
    rw [← hnext] at hrest
    have hcast : ((i + 1 : Nat) : Int) = (i : Int) + 1 := rfl
    rw [hcast] at hrest
    simp only [Subject.wordAt?, hbyte, hrest, bytesAt, ofBytes]
    -- Both sides put the byte below the others, one in words and one in numbers.
    refine congrArg some (UInt32.toNat_inj.mp ?_)
    simp only [UInt32.toNat_add, UInt32.toNat_shiftLeft, UInt32.toNat_ofNat', UInt8.toNat_toUInt32,
      Nat.shiftLeft_eq]
    simp
    omega

/-- The address of a place, from the end of the subject and from its start. -/
theorem subjectAddress_eq {s : Subject} {p : Int64} {i : Nat}
    (hi : (s.byteSize : Int) + p.toInt = i) :
    m.regs inputEnd + p.toUInt64 = m.subjectAddress s.byteSize i := by
  have hp : p = Int64.ofNat i - Int64.ofNat s.byteSize := by
    rw [← Int64.ofInt_toInt p, show p.toInt = (i : Int) - s.byteSize by omega, Int64.ofInt_sub]
    rfl
  have hwords : p.toUInt64 = UInt64.ofNat i - UInt64.ofNat s.byteSize := by
    rw [hp]
    rfl
  rw [hwords, subjectAddress]
  grind

/-- The address of a place in the subject. -/
theorem exists_subjectAddress {p : Int64} {count : Nat} (hinside : k.Inside p count) :
    ∃ i : Nat, (k.subject.byteSize : Int) + p.toInt = i ∧
      i + count * k.mode.charSize ≤ k.subject.byteSize ∧
      m.regs inputEnd + p.toUInt64 = m.subjectAddress k.subject.byteSize i := by
  obtain ⟨hlow, hhigh⟩ := hinside
  obtain ⟨i, hi⟩ : ∃ i : Nat, (k.subject.byteSize : Int) + p.toInt = i :=
    ⟨(k.subject.byteSize + p.toInt).toNat, by omega⟩
  exact ⟨i, hi, by omega, subjectAddress_eq hi⟩

/-- The address that a load computes from the end of the subject, the position and the displacement
is that of the place in the subject that the thread reads. -/
theorem address_loadChars (h : Represents k t m) (disp : Int32) :
    m.address { base := inputEnd, index := some (pos, 0), disp := disp } =
      m.regs inputEnd + (t.pos + disp.toInt64).toUInt64 := by
  have hshift : m.regs pos <<< (0 : UInt8).toUInt64 = t.pos.toUInt64 := by
    rw [h.pos]
    simp
  show m.regs inputEnd + m.regs pos <<< (0 : UInt8).toUInt64 + disp.toInt64.toUInt64 = _
  rw [hshift, UInt64.add_assoc]
  rfl

theorem zeroByte_eq {v : Nat} (h : v < 256) :
    (UInt64.ofNat v).toUInt8.toUInt64 = (UInt32.ofNat v).toUInt64 := by
  apply UInt64.toNat_inj.mp
  simp
  omega

theorem zeroWord_eq {v : Nat} (h : v < 65536) :
    (UInt64.ofNat v).toUInt16.toUInt64 = (UInt32.ofNat v).toUInt64 := by
  apply UInt64.toNat_inj.mp
  simp
  omega

theorem dword_eq {v : Nat} (h : v < 4294967296) :
    UInt64.ofNat v = (UInt32.ofNat v).toUInt64 := by
  apply UInt64.toNat_inj.mp
  simp
  omega

/-- A load leaves what it reads in the register of the characters, zero-extended. -/
theorem after_loadChars_eq {mode : Mode} {disp : Int32} {count : Nat} {i : Instr}
    (hi : loadChars? mode disp count = some i) :
    after i m = m.setReg .w32 chr (UInt32.ofNat (ofBytes (m.bytesAt
      (m.address { base := inputEnd, index := some (pos, 0), disp := disp })
      (count * mode.charSize)))).toUInt64 := by
  have hlt := ofBytes_lt (m.bytesAt (m.address { base := inputEnd, index := some (pos, 0), disp })
    (count * mode.charSize))
  rw [length_bytesAt] at hlt
  -- Each width has an instruction of its own, which extends what it reads with zeros.
  unfold loadChars? at hi
  split at hi
  · obtain rfl := Option.some.inj hi
    exact congrArg (m.setReg .w32 chr) (zeroByte_eq hlt)
  · obtain rfl := Option.some.inj hi
    exact congrArg (m.setReg .w32 chr) (zeroWord_eq hlt)
  · obtain rfl := Option.some.inj hi
    exact congrArg (m.setReg .w32 chr) (zeroWord_eq hlt)
  · obtain rfl := Option.some.inj hi
    exact congrArg (m.setReg .w32 chr) (dword_eq hlt)
  · obtain rfl := Option.some.inj hi
    exact congrArg (m.setReg .w32 chr) (dword_eq hlt)
  · cases hi

/-- Inside the subject these are its characters. -/
theorem after_loadChars (h : Represents k t m) {disp : Int32} {count : Nat} {i : Instr}
    (hi : loadChars? k.mode disp count = some i)
    (hinside : k.Inside (t.pos + disp.toInt64) count) :
    ∃ c : UInt32, k.chars? (t.pos + disp.toInt64) count = some c ∧
      after i m = m.setReg .w32 chr c.toUInt64 := by
  obtain ⟨j, hj, hend, haddress⟩ := exists_subjectAddress (m := m) hinside
  rw [← address_loadChars h] at haddress
  have hword := wordAt?_eq h hend
  rw [← haddress] at hword
  exact ⟨_, (congrArg (k.subject.wordAt? · (count * k.mode.charSize)) hj).trans hword,
    after_loadChars_eq hi⟩

end Load

end NativeMatcher
