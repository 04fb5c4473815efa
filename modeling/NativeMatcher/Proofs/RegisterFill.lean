import Mathlib.Logic.Function.Iterate
import NativeMatcher.Proofs.FrameCode

/-!
# Filling the register file

The entry sequence sets every capture register to one word. A few registers are set by a store each,
more of them by a loop that walks down with a pointer and counts in 32 bits
(`NativeMatcher.Assembly.fillRegisters`). One round too many would overwrite what lies below the
frame.

Both do the same (`NativeMatcher.X64.Filled`): one more store below the words that have been filled
fills one more (`NativeMatcher.X64.Filled.store`), which is the step of the row and of the loop
alike. The loop adds that the pointer is at the next word and the counter has what is left
(`NativeMatcher.X64.Filling`).
-/

namespace NativeMatcher

open Assembly

namespace X64

open Machine

/-- The first `n` capture registers have been filled with `rax`. -/
structure Filled (n : Nat) (m m' : Machine) : Prop where
  /-- Each of them has the word. -/
  words : ∀ i < n, ∃ a, m.captureAddress i = .ok a ∧ m'.load .w64 a = m.regs .rax
  /-- The memory around their words is the same. -/
  mem : ∀ b, (∀ i < n, ∀ a, m.captureAddress i = .ok a → 8 ≤ (b - a).toNat) → m'.mem b = m.mem b
  /-- The registers of the processor are the same, but for two. -/
  regs : ∀ r, r ≠ .rcx → r ≠ .rdx → m'.regs r = m.regs r

/-- The loop is about to fill register `k` of `n`. -/
structure Filling (n k : Nat) (m m' : Machine) : Prop where
  /-- The registers before it are filled. -/
  filled : Filled k m m'
  /-- The pointer is at its word. -/
  pointer : m'.regs .rcx = m.regs fp - UInt64.ofNat (8 * (16 + k))
  /-- The counter has the number of those that are left. -/
  counter : m'.regs .rdx = (UInt32.ofNat (n - k)).toUInt64

/-- A store for each register. -/
def fillRow (n : Nat) : List Instr :=
  (List.range n).map fun i => .store .w64 .rax fp (registerOffset i)

/-- What comes before the loop. -/
def fillSetup (n : Nat) : List Instr :=
  [.leaAt .w64 .rcx fp (registerOffset 0), .loadConst .w32 .rdx (UInt64.ofNat n)]

/-- One round of the loop, without its label and its branch. -/
def fillRound : List Instr :=
  [.store .w64 .rax .rcx 0, .aluImm .sub .w64 .rcx wordSize, .aluImm .sub .w32 .rdx 1]

/-- The machine after the registers have been filled. -/
def afterFill (n : Nat) (m : Machine) : Machine :=
  if n ≤ maxUnrolledFill then afterAll (fillRow n) m
  else (afterAll fillRound)^[n] (afterAll (fillSetup n) m)

/-! ### One more register -/

section Step

variable {n k : Nat} {m m₁ m₂ : Machine}

theorem Filled.zero (m : Machine) : Filled 0 m m :=
  ⟨fun _ hi => absurd hi (Nat.not_lt_zero _), fun _ _ => rfl, fun _ _ _ => rfl⟩

/-- Registers that are free may change. -/
theorem Filled.agrees (h : Filled n m m₁) (h' : AgreesBeyond [.rcx, .rdx] m₁ m₂) :
    Filled n m m₂ := by
  refine ⟨fun i hi => ?_, fun b hb => (congrFun h'.mem b).trans (h.mem b hb), fun r hc hd => ?_⟩
  · obtain ⟨a, ha, hword⟩ := h.words i hi
    exact ⟨a, ha, (load_congr h'.mem .w64 a).trans hword⟩
  · exact (h'.regs r (by simp [hc, hd])).trans (h.regs r hc hd)

/-- **A store below the words that are filled fills one more.** This one lemma carries both the row
of stores and the loop. -/
theorem Filled.store (h : Filled n m m₁) (hn : n ≤ maxRegister) :
    Filled (n + 1) m (m₁.store .w64 (m.regs fp - UInt64.ofNat (8 * (16 + n))) (m.regs .rax)) := by
  have hmax : maxRegister = 65535 := rfl
  have hlast := captureAddress_eq (m := m) hn
  refine ⟨fun i hi => ?_, fun b hb => ?_, h.regs⟩
  · obtain hlt | rfl := Nat.lt_succ_iff_lt_or_eq.mp hi
    · obtain ⟨a, ha, hword⟩ := h.words i hlt
      obtain rfl := Except.ok.inj ((captureAddress_eq (by omega)).symm.trans ha)
      -- The words lie below each other, so the store does not touch one that is filled.
      obtain ⟨hbeside, hbelow⟩ := apart_of_frame (m.regs fp) (x := 8 * (16 + i))
        (y := 8 * (16 + n)) (by omega) (by omega) (by omega)
      exact ⟨_, ha, (load_store_of_apart m₁ _ hbeside hbelow).trans hword⟩
    · exact ⟨_, hlast, load_store_self m₁ _ _⟩
  · have hbeside : Width.w64.bytes ≤ _ := hb n (Nat.lt_succ_self n) _ hlast
    refine (mem_store_of_outside m₁ hbeside).trans (h.mem b ?_)
    exact fun i hi => hb i (Nat.lt_succ_of_lt hi)

theorem Filled.rax (h : Filled n m m₁) : m₁.regs .rax = m.regs .rax :=
  h.regs .rax (by decide) (by decide)

theorem Filled.framePointer (h : Filled n m m₁) : m₁.regs fp = m.regs fp :=
  h.regs fp (by decide) (by decide)

/-- **A row of stores fills the registers.** This is the form for few registers, in which the code
has one store for each. -/
theorem filled_fillRow (m : Machine) (hn : n ≤ maxRegister + 1) :
    Filled n m (afterAll (fillRow n) m) := by
  induction n with
  | zero => exact .zero m
  | succ n ih =>
    have h := ih (by omega)
    have hstore := h.store (by omega)
    rw [← h.rax, ← h.framePointer, ← registerAddress_eq (by omega)] at hstore
    rw [fillRow, List.range_succ, List.map_append, afterAll_append]
    exact hstore

/-- The number of registers is loaded as a 32-bit immediate. -/
theorem fillSetup_eq (hpos : 0 < n) (hn : n ≤ maxRegister + 1) : fillSetup n =
    [.leaAt .w64 .rcx fp (registerOffset 0), .movRegImm32 .rdx (UInt32.ofNat n)] := by
  have hmax : maxRegister = 65535 := rfl
  have hne : UInt64.ofNat n ≠ 0 := by
    rw [ne_eq, ← UInt64.toNat_inj, UInt64.toNat_ofNat', UInt64.toNat_zero]
    omega
  rw [fillSetup, Instr.loadConst, if_neg hne, if_pos (Or.inl rfl), UInt64.toUInt32_ofNat']

/-- Before the loop nothing is filled yet. -/
theorem filling_fillSetup (m : Machine) (hpos : 0 < n) (hn : n ≤ maxRegister + 1) :
    Filling n 0 m (afterAll (fillSetup n) m) := by
  rw [fillSetup_eq hpos hn]
  exact ⟨(Filled.zero m).agrees (agreesBeyond_afterAll _ rfl),
    registerAddress_eq (m := m) (Nat.zero_le _), trunc_char _⟩

/-- **A round fills one more register**, and its branch goes back as long as one is left. Two facts
are needed of a round: what it has stored, and which way its branch goes. -/
theorem Filling.round (h : Filling n k m m₁) (hk : k < n) (hn : n ≤ maxRegister + 1) :
    Filling n (k + 1) m (afterAll fillRound m₁) ∧
      Cond.ne.holds (afterAll fillRound m₁).flags = decide (k + 1 < n) := by
  have hmax : maxRegister = 65535 := rfl
  have haddress : m₁.address { base := .rcx } = m.regs fp - UInt64.ofNat (8 * (16 + k)) := by
    rw [← h.pointer]
    exact (UInt64.add_zero _).trans (UInt64.add_zero _)
  have hstore : after (.store .w64 .rax .rcx 0) m₁ =
      m₁.store .w64 (m.regs fp - UInt64.ofNat (8 * (16 + k))) (m.regs .rax) := by
    rw [← haddress, ← h.filled.rax]
    rfl
  have hleft : UInt32.ofNat (n - k) - 1 = UInt32.ofNat (n - (k + 1)) := by
    rw [← UInt32.toNat_inj, UInt32.toNat_sub, UInt32.toNat_ofNat', UInt32.toNat_ofNat',
      UInt32.toNat_one]
    omega
  have hone : immediate .w32 1 = (1 : UInt32).toUInt64 := rfl
  refine ⟨⟨?_, ?_, ?_⟩, ?_⟩
  · have hfilled := h.filled.store (by omega)
    rw [← hstore] at hfilled
    exact hfilled.agrees (agreesBeyond_afterAll fillRound.tail rfl)
  · change (subWords .w64 (m₁.regs .rcx) (UInt64.ofNat 8)).1 = _
    rw [subWords_place, h.pointer, sub_ofNat_sub, ← Nat.add_assoc, Nat.mul_succ]
  · change Width.w32.trunc (subWords .w32 (Width.w32.trunc (m₁.regs .rdx)) (immediate .w32 1)).1 = _
    rw [h.counter, trunc_char, hone, subWords_char, trunc_char, hleft]
  · change Cond.ne.holds (subWords .w32 (Width.w32.trunc (m₁.regs .rdx)) (immediate .w32 1)).2 = _
    rw [h.counter, trunc_char, hone, holds_ne_char, Bool.eq_iff_iff, bne_iff_ne, ne_eq,
      ← UInt32.toNat_inj, UInt32.toNat_ofNat', UInt32.toNat_one, decide_eq_true_eq]
    omega

/-- **Rounds fill the registers that are left.** -/
theorem Filling.rounds {left : Nat} (h : Filling n k m m₁) (hleft : k + left = n)
    (hn : n ≤ maxRegister + 1) : Filling n n m ((afterAll fillRound)^[left] m₁) := by
  induction left generalizing k m₁ with
  | zero =>
    obtain rfl : k = n := hleft
    exact h
  | succ left ih => exact ih (h.round (by omega) hn).1 (by omega)

/-- **Both ways fill the registers.** -/
theorem filled_afterFill (m : Machine) (hn : n ≤ maxRegister + 1) : Filled n m (afterFill n m) := by
  unfold afterFill
  split
  · exact filled_fillRow m hn
  · next hlarge => exact ((filling_fillSetup m (by omega) hn).rounds (Nat.zero_add n) hn).filled

end Step

/-! ### Where the code goes -/

section Control

variable (offset : Label → UInt32) (allowed : UInt64 → Prop) {items : List Item} {i next n k : Nat}
  {m m₁ : Machine} (hn : n ≤ maxRegister + 1)

include hn

/-- The loop goes back until no register is left. -/
theorem goesTo_fillLoop {left : Nat}
    (hrow : Stands items i
      (.bind ⟨next⟩ :: (fillRound.map .instr ++ [Item.branch (.jcc .ne) ⟨next⟩])))
    (hloop : items.findIdx? (Item.binds ⟨next⟩) = some i) (h : Filling n k m m₁)
    (hleft : k + (left + 1) = n) :
    GoesTo offset allowed items i m₁ (i + 5) ((afterAll fillRound)^[left + 1] m₁) := by
  have hround (m₁ : Machine) :
      GoesTo offset allowed items i m₁ (i + 4) (afterAll fillRound m₁) :=
    (GoesTo.bind hrow.head).trans (.instrs hrow.tail.left rfl)
  have hbranch : items[i + 4]? = some (.branch (.jcc .ne) ⟨next⟩) := hrow.tail.right.head
  induction left generalizing k m₁ with
  | zero =>
    obtain ⟨-, hflags⟩ := h.round (by omega) hn
    exact (hround m₁).trans (.skip hbranch (hflags.trans (decide_eq_false (by omega))))
  | succ left ih =>
    obtain ⟨hnext, hflags⟩ := h.round (by omega) hn
    have hback : GoesTo offset allowed items (i + 4) (afterAll fillRound m₁) i
        (afterAll fillRound m₁) :=
      .jump hbranch (hflags.trans (decide_eq_true (by omega))) hloop
    exact ((hround m₁).trans hback).trans (ih hnext (by omega))

omit hn in
theorem fillRegisters_of_le (hsmall : n ≤ maxUnrolledFill) :
    fillRegisters next n = (fillRow n).map .instr := by
  rw [fillRegisters, if_pos hsmall, fillRow, List.map_map]
  rfl

omit hn in
theorem fillRegisters_of_not_le (hlarge : ¬n ≤ maxUnrolledFill) :
    fillRegisters next n = .declare :: ((fillSetup n).map .instr ++
      (Item.bind ⟨next⟩ :: (fillRound.map .instr ++ [Item.branch (.jcc .ne) ⟨next⟩]))) := by
  rw [fillRegisters, if_neg hlarge]
  rfl

/-- The code comes to its end, wherever it stands. For few registers it is a row of stores, and for
many a loop, which is left when all of them are filled. -/
theorem goesTo_fillRegisters (hrow : Stands items i (fillRegisters next n))
    (hloop : maxUnrolledFill < n → items.findIdx? (Item.binds ⟨next⟩) = some (i + 3))
    (m : Machine) :
    GoesTo offset allowed items i m (i + (fillRegisters next n).length) (afterFill n m) := by
  unfold afterFill
  split
  · next hsmall =>
    rw [fillRegisters_of_le hsmall] at hrow ⊢
    rw [List.length_map]
    refine GoesTo.instrs hrow (List.all_eq_true.mpr fun x hx => ?_)
    obtain ⟨j, -, rfl⟩ := List.mem_map.mp hx
    rfl
  · next hlarge =>
    rw [fillRegisters_of_not_le hlarge] at hrow ⊢
    obtain ⟨left, rfl⟩ := Nat.exists_eq_add_one_of_ne_zero (n := n) (by omega)
    have hplain : (fillSetup (left + 1)).all isPlain = true := by
      rw [fillSetup_eq (Nat.succ_pos left) hn]
      rfl
    have hsetup : GoesTo offset allowed items (i + 1) m
        (i + 1 + (fillSetup (left + 1)).length) (afterAll (fillSetup (left + 1)) m) :=
      .instrs hrow.tail.left hplain
    have hrounds := goesTo_fillLoop offset allowed hn hrow.tail.right (hloop (by omega))
      (filling_fillSetup m (Nat.succ_pos left) hn) (Nat.zero_add _)
    exact ((GoesTo.declare hrow.head).trans hsetup).trans hrounds

end Control

/-! ### What the code does -/

section Fill

variable {n next : Nat}

/-- The loop's label is bound by the third item after the first. -/
theorem findIdx?_binds_fill (hlarge : maxUnrolledFill < n) :
    (fillRegisters next n).findIdx? (Item.binds ⟨next⟩) = some 3 := by
  rw [fillRegisters_of_not_le (Nat.not_le.mpr hlarge)]
  simp [fillSetup, Item.binds, List.findIdx?_cons]

/-- The entry sequence fills the registers last, and binds the label of the loop there only. -/
theorem exists_entry_eq (mode : Mode) (n next : Nat) : ∃ front,
    entry mode n next =
      front ++ (fillRegisters (next + 3) n ++ [Item.branch .jmp Reserved.start.label]) ∧
    front.findIdx? (Item.binds ⟨next + 3⟩) = none := by
  refine ⟨_, by rw [entry, List.append_assoc], ?_⟩
  simp [List.findIdx?_append, List.findIdx?_cons, Item.binds, poll, callUnlessAbove, Reserved.label]

/-- **The registers are filled, and nothing else is written**, however many of them there are: by a
store each or by the loop, in any machine the code comes to its end, with `rax` in the word of every
capture register, every byte around these words as it was, and every register of the processor as it
was but for `rcx` and `rdx`. It does so alone, and in the entry sequence. -/
theorem fillRegisters_fills (hn : n ≤ maxRegister + 1) (next : Nat) (offset : Label → UInt32)
    (m : Machine) :
    ∃ m', Filled n m m' ∧
      (∃ fuel, ∀ extra, execute offset (fillRegisters next n) (extra + fuel) 0 m = .past m') ∧
      ∀ mode k, k + 3 = next → ∃ i, Stands (entry mode n k) i (fillRegisters next n) ∧
        ∀ allowed, GoesTo offset allowed (entry mode n k) i m
          (i + (fillRegisters next n).length) m' := by
  refine ⟨afterFill n m, filled_afterFill m hn, ?_, fun mode k hk => ?_⟩
  · obtain ⟨steps, hsteps, -⟩ := goesTo_fillRegisters offset (fun _ => True) hn
      (Stands.self (fillRegisters next n)) (fun hlarge => findIdx?_binds_fill hlarge) m
    refine ⟨1 + steps, fun extra => ?_⟩
    rw [← Nat.add_assoc, hsteps, Nat.zero_add, execute_succ, List.getElem?_eq_none (Nat.le_refl _)]
  · subst hk
    obtain ⟨front, hentry, hfront⟩ := exists_entry_eq mode n k
    have hrow : Stands (entry mode n k) front.length (fillRegisters (k + 3) n) := by
      have hall : Stands (entry mode n k) 0
          (front ++ (fillRegisters (k + 3) n ++ [Item.branch .jmp Reserved.start.label])) := by
        rw [← hentry]
        exact Stands.self _
      have hright := hall.right.left
      rwa [Nat.zero_add] at hright
    refine ⟨front.length, hrow, fun allowed => goesTo_fillRegisters offset allowed hn hrow ?_ m⟩
    intro hlarge
    rw [hentry, List.findIdx?_append, hfront, List.findIdx?_append, findIdx?_binds_fill hlarge]
    simp [Nat.add_comm]

/-- It is so with the largest register file: the last register is filled, and the byte below it is
not written. -/
theorem fillRegisters_fills_largest : 65536 ≤ maxRegister + 1 ∧
    ∃ m' a,
      (∃ fuel, execute (fun _ => 0) (fillRegisters 15 65536) fuel 0 Sample.caller = .past m') ∧
      Sample.caller.captureAddress 65535 = .ok a ∧ m'.load .w64 a = 0 ∧
      m'.mem (a - 1) = Sample.caller.mem (a - 1) ∧ m'.regs fp = 5 := by
  obtain ⟨m', hfilled, ⟨fuel, hrun⟩, -⟩ :=
    fillRegisters_fills (n := 65536) (by decide) 15 (fun _ => 0) Sample.caller
  obtain ⟨a, ha, hword⟩ := hfilled.words 65535 (by decide)
  have hlast := captureAddress_eq (m := Sample.caller) (i := 65535) (by decide)
  obtain rfl := Except.ok.inj (ha.symm.trans hlast)
  refine ⟨by decide, m', _, ⟨_, hrun 0⟩, ha, hword, hfilled.mem _ fun i hi b hb => ?_,
    hfilled.framePointer⟩
  have hmax : maxRegister = 65535 := rfl
  obtain rfl := Except.ok.inj ((captureAddress_eq (by omega)).symm.trans hb)
  have hfp : Sample.caller.regs fp = 5 := rfl
  simp only [hfp, UInt64.toNat_sub, UInt64.toNat_ofNat', UInt64.reduceToNat]
  omega

end Fill

end X64

end NativeMatcher
