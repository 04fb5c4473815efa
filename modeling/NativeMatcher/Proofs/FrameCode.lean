import NativeMatcher.Proofs.FrameOffsets
import NativeMatcher.Proofs.Loops
import NativeMatcher.Proofs.Represents

/-!
# The frame in code

The frame of a match is described three times: as a table of offsets from the frame pointer
(`NativeMatcher.X64.frameLayout`), as the order in which the entry sequence pushes, and as the order
in which the exit sequence pops. A slot at the wrong place would not spoil the match but the
registers of the caller.

Here the three are shown to agree. A row of pushes puts its words below each other and changes
nothing else (`NativeMatcher.X64.Pushed`), so every slot is where the table says, and the capture
registers fill the room from there to the stack pointer (`NativeMatcher.X64.Framed`). A row of pops
takes the words back (`NativeMatcher.X64.Popped`). The exit sequence finds its slots from the frame
pointer alone, wherever the stack pointer is by then, so what it returns is what was saved, provided
that the slots still have it (`NativeMatcher.X64.exit_undoes_entry`).
-/

namespace NativeMatcher

open Assembly

namespace X64

open NativeMatcher.Frame Machine

/-! ### Rows of pushes and pops -/

/-- Words have been pushed onto the native stack, one after the other. -/
structure Pushed (vs : List UInt64) (m m' : Machine) : Prop where
  /-- The stack pointer is at the last one. -/
  rsp : m'.regs .rsp = m.regs .rsp - UInt64.ofNat (8 * vs.length)
  /-- The other registers are the same. -/
  regs : ∀ r, r ≠ .rsp → m'.regs r = m.regs r
  /-- Each word lies right below the one before it. -/
  words : ∀ i v, vs[i]? = some v →
    m'.load .w64 (m.regs .rsp - UInt64.ofNat (8 * (i + 1))) = v
  /-- The memory around them is the same. -/
  mem : ∀ b, 8 * vs.length ≤ (b - m'.regs .rsp).toNat → m'.mem b = m.mem b

/-- Registers have been popped from the native stack, one after the other. -/
structure Popped (rs : List Reg) (m m' : Machine) : Prop where
  /-- The memory is the same. -/
  mem : m'.mem = m.mem
  /-- The stack pointer is past the words. -/
  rsp : m'.regs .rsp = m.regs .rsp + UInt64.ofNat (8 * rs.length)
  /-- Each register has the word right above the one before it. -/
  words : ∀ i r, rs[i]? = some r →
    m'.regs r = m.load .w64 (m.regs .rsp + UInt64.ofNat (8 * i))
  /-- The other registers are the same. -/
  regs : ∀ r, r ≠ .rsp → r ∉ rs → m'.regs r = m.regs r

section Rows

variable {m m' : Machine} {v : UInt64} {vs : List UInt64} {r : Reg} {rs : List Reg}

theorem sub_ofNat_sub (a : UInt64) (x y : Nat) :
    a - UInt64.ofNat x - UInt64.ofNat y = a - UInt64.ofNat (x + y) := by
  rw [UInt64.ofNat_add, UInt64.sub_eq_add_neg _ (UInt64.ofNat y), UInt64.sub_eq_add_neg a,
    UInt64.sub_eq_add_neg a, UInt64.neg_add, UInt64.sub_eq_add_neg, UInt64.add_assoc]

theorem sub_ofNat_add (a : UInt64) {x y : Nat} (h : y ≤ x) :
    a - UInt64.ofNat x + UInt64.ofNat y = a - UInt64.ofNat (x - y) := by
  obtain ⟨z, rfl⟩ := Nat.exists_eq_add_of_le h
  rw [Nat.add_sub_cancel_left, Nat.add_comm y, ← sub_ofNat_sub, UInt64.sub_add_cancel]

/-- How far an address is from two words of the stack. -/
theorem toNat_sub_below (a b : UInt64) {x y : Nat} (h : y ≤ x) :
    (b - (a - UInt64.ofNat x)).toNat =
      ((b - (a - UInt64.ofNat y)).toNat + (x - y)) % 2 ^ 64 := by
  simp only [UInt64.toNat_sub, UInt64.toNat_ofNat']
  omega

theorem rsp_push (m : Machine) (v : UInt64) :
    (m.push v).regs .rsp = m.regs .rsp - UInt64.ofNat 8 := rfl

theorem regs_push (m : Machine) (v : UInt64) (h : r ≠ .rsp) : (m.push v).regs r = m.regs r :=
  m.regs_setReg_of_ne h

/-- The word that was pushed is on top. -/
theorem load_push (m : Machine) (v : UInt64) :
    (m.push v).load .w64 (m.regs .rsp - UInt64.ofNat 8) = v :=
  load_store_self _ _ _

theorem mem_push (m : Machine) (v : UInt64) {b : UInt64}
    (h : 8 ≤ (b - (m.regs .rsp - UInt64.ofNat 8)).toNat) : (m.push v).mem b = m.mem b :=
  mem_store_of_outside _ h

theorem Pushed.nil (m : Machine) : Pushed [] m m :=
  ⟨(UInt64.sub_zero _).symm, fun _ _ => rfl, nofun, fun _ _ => rfl⟩

/-- A register that no push touches may be set before the row or after it. -/
theorem Pushed.setReg {x : UInt64} (h : Pushed vs (m.setReg .w64 r x) m') (hr : r ≠ .rsp)
    (hv : v = m.regs r) : Pushed vs m (m'.setReg .w64 r v) := by
  have hsp (m : Machine) (x : UInt64) : (m.setReg .w64 r x).regs .rsp = m.regs .rsp :=
    m.regs_setReg_of_ne hr.symm
  have hrsp := h.rsp
  have hwords := h.words
  rw [hsp] at hrsp hwords
  refine ⟨by rw [hsp, hrsp], fun s hs => ?_, hwords, fun b hb => h.mem b ?_⟩
  · by_cases hsr : s = r
    · rw [hsr, hv]
      exact m'.regs_setReg_self .w64 r _
    · rw [m'.regs_setReg_of_ne hsr, h.regs s hs]
      exact m.regs_setReg_of_ne hsr
  · rwa [hsp] at hb

/-- One more push before the others. -/
theorem Pushed.cons (hlen : 8 * (vs.length + 1) < 2 ^ 32) (h : Pushed vs (m.push v) m') :
    Pushed (v :: vs) m m' := by
  have hrsp : m'.regs .rsp = m.regs .rsp - UInt64.ofNat (8 + 8 * vs.length) := by
    rw [h.rsp, rsp_push, sub_ofNat_sub]
  refine ⟨?_, fun r hr => (h.regs r hr).trans (regs_push m v hr), fun i w hi => ?_, fun b hb => ?_⟩
  · rw [hrsp, List.length_cons, Nat.mul_succ, Nat.add_comm]
  · cases i with
    | zero =>
      obtain rfl := Option.some.inj hi
      -- The later words lie below the first one.
      refine (load_eq_of_bytes fun b hb => h.mem b ?_).trans (load_push m v)
      change (b - (m.regs .rsp - UInt64.ofNat 8)).toNat < 8 at hb
      rw [hrsp, toNat_sub_below (m.regs .rsp) b (Nat.le_add_right 8 _)]
      omega
    | succ i =>
      have hword := h.words i w hi
      rw [rsp_push, sub_ofNat_sub] at hword
      rwa [Nat.mul_succ, Nat.add_comm]
  · rw [List.length_cons] at hb
    refine (h.mem b (Nat.le_trans (by omega) hb)).trans (mem_push m v ?_)
    rw [hrsp, toNat_sub_below (m.regs .rsp) b (Nat.le_add_right 8 _)] at hb
    omega

/-- **A row of pops takes a row of words.** No register may occur twice in the row, or the first
word would be lost, and none may be the stack pointer. -/
theorem popped_pops (m : Machine) (hnodup : rs.Nodup) (hrsp : .rsp ∉ rs) :
    Popped rs m (afterAll (rs.map .pop) m) := by
  induction rs generalizing m with
  | nil => exact ⟨rfl, (UInt64.add_zero _).symm, nofun, fun _ _ _ => rfl⟩
  | cons r rs ih =>
    obtain ⟨hr, hrs⟩ := List.nodup_cons.mp hnodup
    have hne : Reg.rsp ≠ r := fun hcon => hrsp (hcon ▸ List.mem_cons_self)
    have h := ih (after (.pop r) m) hrs fun hcon => hrsp (List.mem_cons_of_mem _ hcon)
    have hsp : (after (.pop r) m).regs .rsp = m.regs .rsp + UInt64.ofNat 8 :=
      m.dropTop.regs_setReg_of_ne hne
    have hadd (n : Nat) : m.regs .rsp + UInt64.ofNat 8 + UInt64.ofNat (8 * n) =
        m.regs .rsp + UInt64.ofNat (8 * (n + 1)) := by
      rw [UInt64.add_assoc, ← UInt64.ofNat_add, Nat.mul_succ, Nat.add_comm 8]
    refine ⟨h.mem, ?_, fun i s hi => ?_, fun s hs hmem => ?_⟩
    · rw [List.map_cons, afterAll_cons, h.rsp, hsp, hadd, List.length_cons]
    · cases i with
      | zero =>
        obtain rfl := Option.some.inj hi
        rw [List.map_cons, afterAll_cons, h.regs _ hne.symm hr]
        refine (m.dropTop.regs_setReg_self .w64 r _).trans ?_
        exact congrArg (m.load .w64) (UInt64.add_zero _).symm
      | succ i =>
        rw [List.map_cons, afterAll_cons, h.words i s hi, hsp, hadd]
        exact load_congr rfl .w64 _
    · obtain ⟨hsr, hsrs⟩ := not_or.mp (mt List.mem_cons.mpr hmem)
      rw [List.map_cons, afterAll_cons, h.regs s hs hsrs]
      exact (m.dropTop.regs_setReg_of_ne hsr).trans (m.regs_setReg_of_ne hs)

end Rows

/-! ### Where the layout puts slots and registers -/

namespace Machine

/-- The word that the entry sequence saves in a slot: what its register holds, or zero. -/
def incoming (m : Machine) (s : Slot) : UInt64 :=
  match savedRegister s with
  | some r => m.regs r
  | none => 0

/-- The address at the offset of a slot from the frame pointer. -/
def slotAddress (m : Machine) (s : Slot) : Except Fault UInt64 :=
  (frameLayout.offset s).map fun o => m.address { base := fp, disp := o }

/-- The word in a slot. -/
def slot (m : Machine) (s : Slot) : Except Fault UInt64 := (m.slotAddress s).map (m.load .w64)

/-- The address at the offset of a capture register from the frame pointer. -/
def captureAddress (m : Machine) (i : Nat) : Except Fault UInt64 :=
  (frameLayout.registerOffset i).map fun o => m.address { base := fp, disp := o }

end Machine

section Places

variable {m : Machine} {s : Slot}

/-- A place of the frame is inside 32 bits. -/
theorem fits_frameLayout {p : Int} (hp : -2 ^ 28 ≤ p ∧ p < 2 ^ 28) : frameLayout.Fits p := by
  have hword : frameLayout.wordSize.toInt = 8 := rfl
  rw [Layout.Fits, hword]
  omega

/-- The offset of a slot is that of its place. -/
theorem exists_offset {p : Int} (hs : frameLayout.place? s = some p)
    (hp : -2 ^ 28 ≤ p ∧ p < 2 ^ 28) : ∃ o, frameLayout.offset s = .ok o ∧ o.toInt = 8 * p := by
  have hword : frameLayout.wordSize.toInt = 8 := rfl
  obtain ⟨o, ho, hvalue⟩ := (fits_frameLayout hp).tryOffset (by decide) hs
  refine ⟨o, ?_, by rw [hvalue, hword, Int.mul_comm]⟩
  rw [Layout.offset, ho]
  rfl

/-- So is the offset of a capture register. -/
theorem exists_registerOffset {i : Nat} (hi : i ≤ maxRegister) :
    ∃ o, frameLayout.registerOffset i = .ok o ∧ o.toInt = 8 * -((16 + i : Nat) : Int) := by
  have hmax : maxRegister = 65535 := rfl
  have hword : frameLayout.wordSize.toInt = 8 := rfl
  have hplace : frameLayout.registerPlace i = -((16 + i : Nat) : Int) := rfl
  have hfits : frameLayout.Fits (frameLayout.registerPlace i) := fits_frameLayout (by omega)
  obtain ⟨o, ho, hvalue⟩ := hfits.registerOffset (by decide)
  exact ⟨o, ho, by rw [hvalue, hword, hplace, Int.mul_comm]⟩

/-- An offset upward is the same number as a word. -/
theorem toUInt64_of_toInt_natCast {d : Int32} {n : Nat} (h : d.toInt = n) :
    d.toInt64.toUInt64 = UInt64.ofNat n := by
  have hword : d.toInt64 = Int64.ofNat n := by
    rw [← Int64.ofInt_toInt d.toInt64, Int32.toInt_toInt64, h]
    rfl
  rw [hword]
  rfl

theorem address_of_neg {o : Int32} {k : Nat} (ho : o.toInt = 8 * -(k : Int)) :
    m.address { base := fp, disp := o } = m.regs fp - UInt64.ofNat (8 * k) := by
  show m.regs fp + 0 + o.toInt64.toUInt64 = _
  rw [toUInt64_of_toInt (n := 8 * k) (by omega), UInt64.add_zero, UInt64.sub_eq_add_neg]

theorem address_of_pos {o : Int32} {k : Nat} (ho : o.toInt = 8 * (k : Int)) :
    m.address { base := fp, disp := o } = m.regs fp + UInt64.ofNat (8 * k) := by
  show m.regs fp + 0 + o.toInt64.toUInt64 = _
  rw [toUInt64_of_toInt_natCast (n := 8 * k) (by omega), UInt64.add_zero]

/-- A slot below the frame pointer. -/
theorem slotAddress_below {k : Nat} (hs : frameLayout.place? s = some (-(k : Int)))
    (hk : k ≤ 2 ^ 28) : m.slotAddress s = .ok (m.regs fp - UInt64.ofNat (8 * k)) := by
  obtain ⟨o, ho, hvalue⟩ := exists_offset hs (by omega)
  rw [slotAddress, ho, Except.map, address_of_neg hvalue]

/-- A slot above it. -/
theorem slotAddress_above {k : Nat} (hs : frameLayout.place? s = some (k : Int))
    (hk : k < 2 ^ 28) : m.slotAddress s = .ok (m.regs fp + UInt64.ofNat (8 * k)) := by
  obtain ⟨o, ho, hvalue⟩ := exists_offset hs (by omega)
  rw [slotAddress, ho, Except.map, address_of_pos hvalue]

/-- The capture registers follow the slots. -/
theorem captureAddress_eq {i : Nat} (hi : i ≤ maxRegister) :
    m.captureAddress i = .ok (m.regs fp - UInt64.ofNat (8 * (16 + i))) := by
  obtain ⟨o, ho, hvalue⟩ := exists_registerOffset hi
  rw [captureAddress, ho, Except.map, address_of_neg hvalue]

end Places

/-! ### The entry sequence builds the frame -/

/-- The frame stands: `m` is the machine at the entry, and `m'` the one with the frame of
`registers` capture registers. -/
structure Framed (registers : Nat) (m m' : Machine) : Prop where
  /-- The frame begins below the return address. -/
  framePointer : m'.regs fp = m.regs .rsp - UInt64.ofNat 8
  /-- The slots below have what was in their registers, or zero. -/
  below : ∀ s ∈ frameLayout.below, m'.slot s = .ok (m.incoming s)
  /-- The frame pointer of the caller is saved. -/
  savedFramePointer : m'.slot .savedFramePointer = .ok (m.regs fp)
  /-- The return address is where the layout has it. -/
  returnAddress : m'.slot .returnAddress = .ok m.top
  /-- So is the first argument on the stack. -/
  directCall : m'.slot .directCall = .ok (m.load .w64 (m.regs .rsp + UInt64.ofNat 8))
  /-- So is the second one. -/
  runtimeContext : m'.slot .runtimeContext = .ok (m.load .w64 (m.regs .rsp + UInt64.ofNat 16))
  /-- The last register is at the stack pointer. -/
  rsp : 0 < registers → m'.captureAddress (registers - 1) = .ok (m'.regs .rsp)
  /-- Every register has a word of its own between the stack pointer and the slots. -/
  captures : ∀ i < registers, m'.captureAddress i =
    .ok (m'.regs .rsp + UInt64.ofNat (8 * (registers - 1 - i)))
  /-- The lowest slot is right above them. -/
  lowest : ∀ s, frameLayout.below.getLast? = some s →
    m'.slotAddress s = .ok (m'.regs .rsp + UInt64.ofNat (8 * registers))
  /-- The other registers of the processor are as they were. -/
  regs : ∀ r, r ≠ .rsp → r ≠ fp → m'.regs r = m.regs r
  /-- So is the memory beside the slots. -/
  mem : ∀ b, 128 ≤ (b - (m.regs .rsp - UInt64.ofNat 128)).toNat → m'.mem b = m.mem b

section Build

variable {m m' : Machine} {s : Slot}

/-- The place of a slot below the frame pointer is its place in the list. -/
theorem place_below {i : Nat} (h : frameLayout.below[i]? = some s) :
    frameLayout.place? s = some (-((i + 1 : Nat) : Int)) := by
  have hall : ∀ p ∈ frameLayout.below.zipIdx,
      frameLayout.place? p.1 = some (-((p.2 + 1 : Nat) : Int)) := by decide
  exact hall (s, i) (List.mk_mem_zipIdx_iff_getElem?.mpr h)

theorem incoming_congr (h : ∀ r, savedRegister s = some r → m'.regs r = m.regs r) :
    m'.incoming s = m.incoming s := by
  unfold incoming
  split
  · next r hr => exact h r hr
  · rfl

/-- Saving a slot is a push of what came in for it. -/
theorem after_saveSlot (s : Slot) (m : Machine) : after (saveSlot s) m = m.push (m.incoming s) := by
  cases h : savedRegister s with
  | some r =>
    rw [saveSlot, incoming, h]
    rfl
  | none =>
    rw [saveSlot, incoming, h]
    rfl

/-- **Saving slots pushes what they are to have.** A slot is pushed from a register if it saves one,
and as a constant otherwise. -/
theorem pushed_saveSlots {slots : List Slot} (m : Machine)
    (hslots : ∀ s ∈ slots, savedRegister s ≠ some .rsp) (hlen : 8 * slots.length < 2 ^ 32) :
    Pushed (slots.map m.incoming) m (afterAll (slots.map saveSlot) m) := by
  induction slots generalizing m with
  | nil => exact .nil m
  | cons s slots ih =>
    rw [List.length_cons] at hlen
    have h := ih (m.push (m.incoming s)) (fun s' hs' => hslots s' (List.mem_cons_of_mem _ hs'))
      (by omega)
    have hsame : slots.map (m.push (m.incoming s)).incoming = slots.map m.incoming := by
      refine List.map_congr_left fun s' hs' => incoming_congr fun r hr => regs_push m _ ?_
      rintro rfl
      exact hslots s' (List.mem_cons_of_mem _ hs') hr
    rw [hsame] at h
    rw [List.map_cons, List.map_cons, afterAll_cons, after_saveSlot]
    exact h.cons (by rw [List.length_map]; omega)

/-- Making room for the capture registers moves the stack pointer. -/
theorem makeRoom {n : Nat} (hn : n ≤ maxRegister + 1) (m : Machine) :
    ∃ m', afterAll (if n = 0 then [] else [.aluImm .sub .w64 .rsp (Int32.ofNat (n * 8))]) m = m' ∧
      AgreesBeyond [.rsp] m m' ∧ m'.regs .rsp = m.regs .rsp - UInt64.ofNat (8 * n) := by
  have hmax : maxRegister = 65535 := rfl
  refine ⟨_, rfl, agreesBeyond_afterAll _ ?_, ?_⟩
  · split <;> rfl
  · split
    · next hzero =>
      rw [hzero]
      exact (UInt64.sub_zero _).symm
    · have himm : immediate .w64 (Int32.ofNat (n * 8)) = UInt64.ofNat (8 * n) := by
        rw [Nat.mul_comm n]
        exact toUInt64_of_toInt_natCast (Int32.toInt_ofNat_of_lt (by omega))
      change (subWords .w64 (m.regs .rsp) (immediate .w64 (Int32.ofNat (n * 8)))).1 = _
      rw [subWords_place, himm]

theorem slot_eq {a : UInt64} (h : m.slotAddress s = .ok a) : m.slot s = .ok (m.load .w64 a) := by
  rw [slot, h]
  rfl

/-- The words above the frame pointer are those above the stack pointer at the entry. -/
theorem slot_above {k : Nat} (hfp : m'.regs fp = m.regs .rsp - UInt64.ofNat 8)
    (hmem : ∀ b, 128 ≤ (b - (m.regs .rsp - UInt64.ofNat 128)).toNat → m'.mem b = m.mem b)
    (hs : frameLayout.place? s = some ((k + 1 : Nat) : Int)) (hk : k ≤ 2) :
    m'.slot s = .ok (m.load .w64 (m.regs .rsp + UInt64.ofNat (8 * k))) := by
  have haddress : m'.regs fp + UInt64.ofNat (8 * (k + 1)) =
      m.regs .rsp + UInt64.ofNat (8 * k) := by
    rw [hfp, Nat.mul_succ, Nat.add_comm, UInt64.ofNat_add, ← UInt64.add_assoc,
      UInt64.sub_add_cancel]
  rw [slot_eq (slotAddress_above hs (by omega)), haddress]
  refine congrArg Except.ok (load_eq_of_bytes fun b hb => hmem b ?_)
  revert hb
  simp only [UInt64.toNat_sub, UInt64.toNat_add, UInt64.toNat_ofNat']
  omega

/-- **The entry sequence pushes the caller's frame pointer and the slots**, makes room below them,
and sets the frame pointer. -/
theorem pushed_buildFrame {n : Nat} (hn : n ≤ maxRegister + 1) (m : Machine) :
    ∃ m' m₂, afterAll (buildFrame n) m = m' ∧
      Pushed (m.regs fp :: frameLayout.below.map m.incoming) m m₂ ∧ m'.mem = m₂.mem ∧
      m'.regs fp = m.regs .rsp - UInt64.ofNat 8 ∧
      m'.regs .rsp = m₂.regs .rsp - UInt64.ofNat (8 * n) ∧
      ∀ r, r ≠ .rsp → r ≠ fp → m'.regs r = m₂.regs r := by
  let m₁ := (m.push (m.regs fp)).setReg .w64 fp (m.regs .rsp - UInt64.ofNat 8)
  let m₂ := afterAll (frameLayout.below.map saveSlot) m₁
  obtain ⟨m', hm', hroom, hrsp⟩ := makeRoom hn m₂
  have hbuild : afterAll (buildFrame n) m = m' := by
    rw [buildFrame, afterAll_append, afterAll_append]
    exact hm'
  -- No slot saves the stack pointer, and none the frame pointer.
  have hslots : ∀ s ∈ frameLayout.below,
      savedRegister s ≠ some .rsp ∧ savedRegister s ≠ some fp := by decide
  have hpushed : Pushed (frameLayout.below.map m.incoming) m₁ m₂ := by
    have hincoming : frameLayout.below.map m₁.incoming = frameLayout.below.map m.incoming := by
      refine List.map_congr_left fun s hs => incoming_congr fun r hr => ?_
      have hsp : r ≠ .rsp := fun hcon => (hslots s hs).1 (hcon ▸ hr)
      have hfp : r ≠ fp := fun hcon => (hslots s hs).2 (hcon ▸ hr)
      exact ((m.push _).regs_setReg_of_ne hfp).trans (regs_push m _ hsp)
    rw [← hincoming]
    exact pushed_saveSlots m₁ (fun s hs => (hslots s hs).1) (by decide)
  have hrow : Pushed (m.regs fp :: frameLayout.below.map m.incoming) m
      (m₂.setReg .w64 fp (m.regs fp)) := by
    refine .cons (by rw [List.length_map]; decide) (hpushed.setReg (by decide) ?_)
    exact (regs_push m _ (by decide)).symm
  refine ⟨m', _, hbuild, hrow, hroom.mem, ?_, hrsp, fun r hr hf => ?_⟩
  · exact (hroom.regs fp (by decide)).trans (hpushed.regs fp (by decide))
  · exact (hroom.regs r (by simpa using hr)).trans (m₂.regs_setReg_of_ne hf).symm

/-- **The entry sequence builds the frame.** It is made of pushes for the slots and of a step of the
stack pointer for the capture registers, which are filled later. -/
theorem framed_buildFrame {n : Nat} (hn : n ≤ maxRegister + 1) (m : Machine) :
    Framed n m (afterAll (buildFrame n) m) := by
  have hmax : maxRegister = 65535 := rfl
  obtain ⟨m', m₂, hbuild, hpushed, hsame, hfp, hrsp, hregs⟩ := pushed_buildFrame hn m
  have hrsp₂ : m₂.regs .rsp = m.regs .rsp - UInt64.ofNat 128 := hpushed.rsp
  have hrsp' : m'.regs .rsp = m.regs .rsp - UInt64.ofNat (128 + 8 * n) := by
    rw [hrsp, hrsp₂, sub_ofNat_sub]
  have hword {i : Nat} {v : UInt64}
      (hi : (m.regs fp :: frameLayout.below.map m.incoming)[i]? = some v) :
      m'.load .w64 (m.regs .rsp - UInt64.ofNat (8 * (i + 1))) = v :=
    (load_congr hsame .w64 _).trans (hpushed.words i v hi)
  have hmem (b : UInt64) (hb : 128 ≤ (b - (m.regs .rsp - UInt64.ofNat 128)).toNat) :
      m'.mem b = m.mem b := by
    rw [hsame]
    exact hpushed.mem b (by rwa [hrsp₂])
  have hzero (a : UInt64) : a + UInt64.ofNat (8 * 0) = a := UInt64.add_zero a
  rw [hbuild]
  refine ⟨hfp, fun s hs => ?_, ?_, ?_, ?_, ?_, fun hpos => ?_, fun i hi => ?_, fun s hs => ?_,
    fun r hr hf => (hregs r hr hf).trans (hpushed.regs r hr), hmem⟩
  · obtain ⟨i, hi⟩ := List.getElem?_of_mem hs
    have hlt : i < 15 := (List.getElem?_eq_some_iff.mp hi).1
    rw [slot_eq (slotAddress_below (place_below hi) (by omega)), hfp, sub_ofNat_sub, Nat.add_comm]
    refine congrArg Except.ok (hword (i := i + 1) ?_)
    rw [List.getElem?_cons_succ, List.getElem?_map, hi]
    rfl
  · rw [slot_eq (slotAddress_above (k := 0) rfl (by decide)), hfp, hzero]
    exact congrArg Except.ok (hword (i := 0) rfl)
  · rw [slot_above (k := 0) hfp hmem rfl (by decide), hzero, top]
  · exact slot_above (k := 1) hfp hmem rfl (by decide)
  · exact slot_above (k := 2) hfp hmem rfl (by decide)
  · rw [captureAddress_eq (by omega), hfp, hrsp', sub_ofNat_sub]
    exact congrArg (fun x => Except.ok (m.regs .rsp - UInt64.ofNat x)) (by omega)
  · rw [captureAddress_eq (by omega), hfp, hrsp', sub_ofNat_sub, sub_ofNat_add _ (by omega)]
    exact congrArg (fun x => Except.ok (m.regs .rsp - UInt64.ofNat x)) (by omega)
  · obtain rfl := Option.some.inj hs
    rw [slotAddress_below (k := 15) rfl (by decide), hfp, hrsp', sub_ofNat_sub,
      sub_ofNat_add _ (by omega), Nat.add_sub_cancel]

theorem isPlain_buildFrame (n : Nat) : (buildFrame n).all isPlain = true := by
  rw [buildFrame, List.all_append]
  split <;> rfl

end Build

/-! ### The exit sequence takes it down -/

/-- The slot in which the entry sequence saves a register for the caller. -/
def Reg.savedSlot : Reg → Slot
  | .rbp => .savedFramePointer
  | r => .calleeSaved r.number.toNat

/-- The exit sequence up to its return, from where the status is in `rax`. -/
def leaveFrame : List Instr :=
  .leaAt .w64 .rsp fp (slotOffset (.calleeSaved 15)) :: calleeSaved.reverse.map .pop
    ++ [.mov .w64 .rsp .rbp, .pop .rbp]

/-- The frame has been taken down: `m'` is the machine in which the exit sequence returns. -/
structure Unframed (m m' : Machine) : Prop where
  /-- The registers of the caller have what their slots had. -/
  saved : ∀ r ∈ fp :: calleeSaved, m.slot r.savedSlot = .ok (m'.regs r)
  /-- The return address is on top of the stack. -/
  rsp : m'.regs .rsp = m.regs fp + UInt64.ofNat 8
  /-- The other registers are the same. -/
  regs : ∀ r, r ≠ .rsp → r ∉ fp :: calleeSaved → m'.regs r = m.regs r
  /-- So is the memory. -/
  mem : m'.mem = m.mem

section Leave

variable {m : Machine}

/-- Where the slots of the caller's registers are, from the last one that is pushed. -/
theorem place_savedSlot {i : Nat} {r : Reg} (h : calleeSaved.reverse[i]? = some r) :
    i < 5 ∧ frameLayout.place? r.savedSlot = some (-((11 - i : Nat) : Int)) := by
  have hall : ∀ p ∈ calleeSaved.reverse.zipIdx,
      p.2 < 5 ∧ frameLayout.place? p.1.savedSlot = some (-((11 - p.2 : Nat) : Int)) := by decide
  exact hall (r, i) (List.mk_mem_zipIdx_iff_getElem?.mpr h)

/-- The last steps: the stack pointer is set from the frame pointer, which is popped. -/
theorem unframed_pops {m₁ m₂ : Machine} (hrsp₁ : m₁.regs .rsp = m.regs fp - UInt64.ofNat (8 * 11))
    (hm₁ : AgreesBeyond [.rsp] m m₁) (hpopped : Popped calleeSaved.reverse m₁ m₂) :
    Unframed m (after (.pop .rbp) (after (.mov .w64 .rsp .rbp) m₂)) := by
  have hmem : m₂.mem = m.mem := hpopped.mem.trans hm₁.mem
  have hfp : m₂.regs fp = m.regs fp :=
    (hpopped.regs fp (by decide) (by decide)).trans (hm₁.regs fp (by decide))
  have htop : (after (.mov .w64 .rsp .rbp) m₂).top = m.load .w64 (m.regs fp) := by
    rw [← hfp]
    exact load_congr hmem .w64 _
  have hregs (r : Reg) (hr : r ≠ .rsp) (hf : r ≠ fp) :
      (after (.pop .rbp) (after (.mov .w64 .rsp .rbp) m₂)).regs r = m₂.regs r :=
    ((after (.mov .w64 .rsp .rbp) m₂).dropTop.regs_setReg_of_ne hf).trans
      ((Machine.regs_setReg_of_ne _ hr).trans (m₂.regs_setReg_of_ne hr))
  refine ⟨fun r hr => ?_, ?_, fun r hr hout => ?_, hmem⟩
  · rcases List.mem_cons.mp hr with rfl | hr
    · have hzero : m.regs fp + UInt64.ofNat (8 * 0) = m.regs fp := UInt64.add_zero _
      rw [slot_eq (slotAddress_above (k := 0) rfl (by decide)), hzero, ← htop]
      rfl
    · obtain ⟨i, hi⟩ := List.getElem?_of_mem (List.mem_reverse.mpr hr)
      obtain ⟨hlt, hplace⟩ := place_savedSlot hi
      have hne : ∀ r ∈ calleeSaved, r ≠ .rsp ∧ r ≠ fp := by decide
      rw [slot_eq (slotAddress_below hplace (by omega)), hregs r (hne r hr).1 (hne r hr).2,
        hpopped.words i r hi, hrsp₁, sub_ofNat_add _ (by omega), ← Nat.mul_sub]
      exact congrArg Except.ok (load_congr hm₁.mem .w64 _).symm
  · rw [← hfp]
    rfl
  · obtain ⟨hf, hout⟩ := not_or.mp (mt List.mem_cons.mpr hout)
    rw [hregs r hr hf, hpopped.regs r hr (mt List.mem_reverse.mp hout)]
    exact hm₁.regs r (by simpa using hr)

/-- **The exit sequence takes every register from its slot**, whatever the stack pointer is. -/
theorem unframed_leaveFrame (m : Machine) : Unframed m (afterAll leaveFrame m) := by
  let lea : Instr := .leaAt .w64 .rsp fp (slotOffset (.calleeSaved 15))
  have hrsp : (after lea m).regs .rsp = m.regs fp - UInt64.ofNat (8 * 11) :=
    (m.regs_setReg_self .w64 .rsp _).trans (address_of_neg (k := 11) (by decide))
  rw [leaveFrame, List.cons_append, afterAll_cons, afterAll_append]
  exact unframed_pops hrsp (agreesBeyond_after rfl) (popped_pops _ (by decide) (by decide))

/-- The exit sequence is executed from where the status is in `rax`. -/
theorem exits_exit (offset : Label → UInt32) (allowed : UInt64 → Prop) {items : List Item} {j : Nat}
    (g : GlobalMode) (hrow : Stands items j (exit g)) (m : Machine) :
    ∃ k, Exits offset allowed items (j + (exit g).findIdx (Item.binds Reserved.leave.label)) m
      (.transfer .ret k (afterAll leaveFrame m)) := by
  obtain ⟨front, hexit, hfront⟩ : ∃ front, exit g = front ++ (.bind Reserved.leave.label ::
      (leaveFrame.map .instr ++ [.instr .ret])) ∧
      (exit g).findIdx (Item.binds Reserved.leave.label) = front.length := by
    cases g with
    | notGlobal => exact ⟨[.bind Reserved.exit.label], rfl, rfl⟩
    | _ => exact ⟨[.bind Reserved.exit.label, .instr (loadSlot .rax .successfulCaptures)], rfl, rfl⟩
  rw [hfront]
  rw [hexit] at hrow
  have hleave := hrow.right
  have hret : Stands items (j + front.length + 1 + leaveFrame.length) [.instr .ret] := by
    simpa using hleave.tail.right
  exact ⟨_, (GoesTo.bind hleave.head).exits
    ((GoesTo.instrs hleave.tail.left rfl).exits (Exits.transfer hret.head rfl))⟩

end Leave

/-! ### The caller has everything back -/

/-- The exit sequence has undone the entry sequence. `m` is the machine at the entry, `m'` the one
with the frame, `m₂` the one in which the matcher leaves, and `m₃` the one in which it returns. -/
structure GivesBack (m m' m₂ m₃ : Machine) : Prop where
  /-- Every register of the caller whose slot is as it was is as it was. -/
  saved : ∀ r ∈ fp :: calleeSaved, m₂.slot r.savedSlot = m'.slot r.savedSlot →
    m₃.regs r = m.regs r
  /-- So is the stack pointer. -/
  rsp : m₃.regs .rsp = m.regs .rsp
  /-- The status is that with which the matcher leaves. -/
  rax : m₃.regs .rax = m₂.regs .rax
  /-- If the return address is still there, execution goes on in the caller. -/
  returns : m₂.slot .returnAddress = m'.slot .returnAddress →
    ∀ next, Instr.ret.exec next m₃ = (m₃.dropTop, m.top)

/-- The exit gives back what the entry took: the stack pointer in any case, and each saved register
and the return address if their slots are as the entry left them. -/
theorem givesBack {n : Nat} {m m' m₂ m₃ : Machine} (hframe : Framed n m m')
    (hfp : m₂.regs fp = m'.regs fp) (h : Unframed m₂ m₃) : GivesBack m m' m₂ m₃ := by
  have hrsp : m₃.regs .rsp = m.regs .rsp := by
    rw [h.rsp, hfp, hframe.framePointer, UInt64.sub_add_cancel]
  refine ⟨fun r hr hslot => ?_, hrsp, h.regs .rax (by decide) (by decide), fun hslot next => ?_⟩
  · have hsaved : m'.slot r.savedSlot = .ok (m.regs r) := by
      rcases List.mem_cons.mp hr with rfl | hr
      · exact hframe.savedFramePointer
      · have hslots : ∀ r ∈ calleeSaved,
            r.savedSlot ∈ frameLayout.below ∧ savedRegister r.savedSlot = some r := by decide
        obtain ⟨hmem, hregister⟩ := hslots r hr
        rw [hframe.below _ hmem, incoming, hregister]
    exact Except.ok.inj ((h.saved r hr).symm.trans (hslot.trans hsaved))
  · have htop : m₂.slot .returnAddress = .ok m₃.top := by
      rw [slot_eq (slotAddress_above (k := 1) rfl (by decide)), top, h.rsp, load_congr h.mem]
    have hreturn : m₃.top = m.top :=
      Except.ok.inj (htop.symm.trans (hslot.trans hframe.returnAddress))
    rw [← hreturn]
    rfl

/-- **The exit sequence undoes the entry sequence**, for every number of capture registers. From the
entry on the frame is built: every slot has at its offset in the layout what the layout says, and
the capture registers are the words between the slots and the stack pointer. And from any machine
with the frame pointer of the frame the exit sequence returns: with the caller's registers as they
were at the entry, as far as their slots have not changed, with the stack pointer as it was, and
with the status that it found. -/
theorem exit_undoes_entry {n : Nat} (hn : n ≤ maxRegister + 1) (mode : Mode) (next : Nat)
    (offset : Label → UInt32) (allowed : UInt64 → Prop) (m : Machine) :
    ∃ m', Framed n m m' ∧
      (∀ items i, Stands items i (entry mode n next) →
        GoesTo offset allowed items i m (i + 1 + (buildFrame n).length) m') ∧
      ∀ items j g, Stands items j (exit g) → ∀ m₂, m₂.regs fp = m'.regs fp →
        ∃ k m₃, Exits offset allowed items
          (j + (exit g).findIdx (Item.binds Reserved.leave.label)) m₂ (.transfer .ret k m₃) ∧
          GivesBack m m' m₂ m₃ := by
  refine ⟨_, framed_buildFrame hn m, fun items i hrow => ?_, fun items j g hrow m₂ hfp => ?_⟩
  · have hbuild : Stands items i
        (.bind Reserved.entry.label :: (buildFrame n ++ enterStack).map .instr) :=
      hrow.left.left.left.left.left.left.left
    rw [List.map_append] at hbuild
    exact (GoesTo.bind hbuild.head).trans (GoesTo.instrs hbuild.tail.left (isPlain_buildFrame n))
  · obtain ⟨k, hexits⟩ := exits_exit offset allowed g hrow m₂
    exact ⟨k, _, hexits, givesBack (framed_buildFrame hn m) hfp (unframed_leaveFrame m₂)⟩

end X64

/-- A machine at the entry. -/
def Sample.caller : X64.Machine where
  regs r := if r = .rsp then 140737488355320 else r.number.toUInt64
  mem _ := 0
  flags := {}

/-- It does so with the largest register file, and with the stack pointer anywhere. -/
theorem X64.exit_undoes_entry_largest :
    65536 ≤ maxRegister + 1 ∧ ∃ m', Framed 65536 Sample.caller m' ∧
      GoesTo (fun _ => 0) (fun _ => True) (entry .latin1 65536 12) 0 Sample.caller 19 m' ∧
      ∃ k m₃, Exits (fun _ => 0) (fun _ => True) (exit .global) 2
          ((m'.setReg .w64 .rsp 64).setReg .w64 .rax 1) (.transfer .ret k m₃) ∧
        (∀ r ∈ .rsp :: fp :: calleeSaved, m₃.regs r = Sample.caller.regs r) ∧
        m₃.regs .rax = 1 ∧ (Instr.ret.exec 0 m₃).2 = Sample.caller.top := by
  obtain ⟨m', hframe, hentry, hexit⟩ := exit_undoes_entry (n := 65536) (by decide) .latin1 12
    (fun _ => 0) (fun _ => True) Sample.caller
  obtain ⟨k, m₃, hexits, hback⟩ := hexit _ 0 .global (Stands.self _)
    ((m'.setReg .w64 .rsp 64).setReg .w64 .rax 1) rfl
  refine ⟨by decide, m', hframe, hentry _ 0 (Stands.self _), k, m₃, hexits, fun r hr => ?_,
    hback.rax, ?_⟩
  · rcases List.mem_cons.mp hr with rfl | hr
    · exact hback.rsp
    · exact hback.saved r hr rfl
  · rw [hback.returns rfl]

end NativeMatcher
