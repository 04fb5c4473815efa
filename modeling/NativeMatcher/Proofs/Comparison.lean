import NativeMatcher.Proofs.HostCalls
import NativeMatcher.Proofs.Repetition

/-!
# The code of a comparison

A reference to a capture loads the length of the capture and makes sure that there is room for it:
after the position by the sign of a sum, before it by a comparison with the place before the subject
(`NativeMatcher.goesTo_captureFits`). Then a loop walks through the capture and through the subject
at once, a character at a time, until two of them differ or the capture ends
(`NativeMatcher.goesTo_compareLoop`).

What carries the loop is that both pointers stay addresses of characters of the subject
(`NativeMatcher.Comparing`). So every character that is read lies in it, and the comparison with the
end of the capture, which is one of addresses, tells how many characters are left – provided that
the subject does not wrap around the address space.

The result is what such a reference does in code, `NativeMatcher.exits_backReference`.
-/

namespace NativeMatcher

open Assembly Code X64 X64.Machine

/-! ### The subject in memory -/

/-- The address of the character at an index. -/
def X64.Machine.charAddress (m : Machine) (s : Subject) (i : Nat) : UInt64 :=
  m.subjectAddress s.byteSize (i * s.mode.charSize)

/-- The bytes of the subject in memory. -/
def Task.InSubject (k : Task) (m : Machine) (b : UInt64) : Prop :=
  ∃ i < k.subject.byteSize, b = m.subjectAddress k.subject.byteSize i

section Address

variable {k : Task} {m : Machine} {i j : Nat}

theorem charAddress_succ (m : Machine) (s : Subject) (i : Nat) :
    m.charAddress s i + UInt64.ofNat s.mode.charSize = m.charAddress s (i + 1) := by
  rw [charAddress, charAddress, subjectAddress, subjectAddress, Nat.succ_mul, UInt64.ofNat_add,
    UInt64.add_assoc]

/-- The bytes of a character lie in the subject. -/
theorem inSubject_char (hi : i < k.subject.size) {b : Nat} (hb : b < k.subject.mode.charSize) :
    k.InSubject m (m.charAddress k.subject i + UInt64.ofNat b) := by
  have hle : (i + 1) * k.subject.mode.charSize ≤ k.subject.byteSize :=
    Nat.mul_le_mul_right _ hi
  rw [Nat.succ_mul] at hle
  refine ⟨i * k.subject.mode.charSize + b, by omega, ?_⟩
  rw [charAddress, subjectAddress, subjectAddress, UInt64.ofNat_add, UInt64.add_assoc]

section Order

variable (hend : k.subject.byteSize ≤ (m.regs inputEnd).toNat)

include hend

/-- Subject addresses do not wrap around, as the whole subject lies below its end. -/
theorem toNat_charAddress (hi : i ≤ k.subject.size) : (m.charAddress k.subject i).toNat =
    (m.regs inputEnd).toNat - k.subject.byteSize + i * k.subject.mode.charSize := by
  have hle : i * k.subject.mode.charSize ≤ k.subject.byteSize := Nat.mul_le_mul_right _ hi
  have hlt : (m.regs inputEnd).toNat < 2 ^ 64 := (m.regs inputEnd).toNat_lt
  rw [charAddress, subjectAddress, UInt64.toNat_add, UInt64.toNat_sub, UInt64.toNat_ofNat',
    UInt64.toNat_ofNat']
  omega

/-- Addresses are ordered as indices are. -/
theorem charAddress_lt_iff (hi : i ≤ k.subject.size) (hj : j ≤ k.subject.size) :
    m.charAddress k.subject i < m.charAddress k.subject j ↔ i < j := by
  rw [UInt64.lt_iff_toNat_lt, toNat_charAddress hend hi, toNat_charAddress hend hj]
  cases k.subject.mode <;> simp only [Mode.charSize] <;> omega

end Order

variable (hmode : k.subject.mode = k.mode) (hsize : k.subject.byteSize < 2 ^ 62)

include hmode hsize

/-- A position is a distance from the end, so that adding it to the end gives the address of the
character. -/
theorem charAddress_eq (hi : i ≤ k.subject.size) :
    m.regs inputEnd + (k.position i).toUInt64 = m.charAddress k.subject i := by
  have hmax : Memory.maxBlock = 9223372036854775807 := rfl
  rw [charAddress]
  refine subjectAddress_eq ?_
  rw [Task.toInt_position hmode (by omega) hi, hmode]
  omega

end Address

/-! ### Reading characters -/

/-- The widening load of one character. -/
def charExtend : Mode → Extend
  | .latin1 => .zeroByte
  | .uc16 => .zeroWord

theorem bytes_charExtend (mode : Mode) : (charExtend mode).bytes = mode.charSize := by
  cases mode <;> rfl

/-- It extends what it reads with zeros. -/
theorem after_charExtend_eq (mode : Mode) (m : Machine) (dst : Reg) (x : Mem) :
    after (.movExtend (charExtend mode) dst (.mem x)) m =
      m.setReg .w32 dst
        (UInt32.ofNat (ofBytes (m.bytesAt (m.address x) mode.charSize))).toUInt64 := by
  have hlt := ofBytes_lt (m.bytesAt (m.address x) mode.charSize)
  rw [length_bytesAt] at hlt
  cases mode with
  | latin1 => exact congrArg (m.setReg .w32 dst) (zeroByte_eq hlt)
  | uc16 => exact congrArg (m.setReg .w32 dst) (zeroWord_eq hlt)

section Read

variable {k : Task} {t : Thread} {m m' : Machine} {i : Nat}
  (hmode : k.subject.mode = k.mode) (h : Represents k t m) (hi : i < k.subject.size)

include hmode h hi

/-- A character of the subject, as a load takes it in. -/
theorem after_charExtend (hmem : m'.mem = m.mem) {x : Mem}
    (hx : m'.address x = m.charAddress k.subject i) :
    ∃ c, k.subject.char? i = some c ∧ ∀ dst,
      after (.movExtend (charExtend k.mode) dst (.mem x)) m' = m'.setReg .w32 dst c.toUInt64 := by
  have hmax : Memory.maxBlock = 9223372036854775807 := rfl
  have hbytes := h.byteSize
  have hle : (i + 1) * k.mode.charSize ≤ k.subject.byteSize := by
    rw [Subject.byteSize, hmode]
    exact Nat.mul_le_mul_right _ hi
  rw [Nat.succ_mul] at hle
  have hword := wordAt?_eq h hle
  rw [← Task.chars?_position hmode (by omega) hi, Task.chars?_position_eq hmode (by omega) hi,
    ← hmode, ← charAddress, ← hx] at hword
  refine ⟨_, hword, fun dst => ?_⟩
  have hsame : m'.bytesAt (m'.address x) k.subject.mode.charSize =
      m.bytesAt (m'.address x) k.subject.mode.charSize := bytesAt_congr fun _ _ => by rw [hmem]
  rw [after_charExtend_eq, ← hmode, hsame]

end Read

/-! ### Length and room -/

/-- The registers in which a reference computes. -/
def scratch : List Reg := [.rax, .rcx, .rdx, .r8, .r9]

/-- The start of a capture and its length have been taken; nothing else has changed. -/
structure Measured (reg : Nat) (t : Thread) (m m' : Machine) : Prop where
  /-- The memory and the other registers are the same. -/
  agrees : AgreesBeyond scratch m m'
  /-- The place where the capture starts. -/
  start : m'.regs .rdx = (t.reg reg).toUInt64
  /-- Its length in bytes. -/
  length : m'.regs .rax = (Task.captureLength reg t).toUInt64

section Measure

variable (offset : Label → UInt32) (allowed : UInt64 → Prop) {items : List Item} {i j : Nat}
  {k : Task} {t : Thread} {m m₁ : Machine} {reg : Nat}

/-- The length of a capture is taken. If it is zero, control goes to the end. It is the difference
of two registers, which the code leaves in a register of its own for the checks that follow. -/
theorem goesTo_captureLength (h : Represents k t m) (hreg : reg < t.regs.size)
    (hreg' : reg + 1 < t.regs.size) {done : Label}
    (hitems : Stands items i (captureLength reg done))
    (hdone : items.findIdx? (Item.binds done) = some j) :
    ∃ m', Measured reg t m m' ∧ GoesTo offset allowed items i m
      (if Task.captureLength reg t = 0 then j else i + (captureLength reg done).length) m' := by
  let is : List Instr := [.load .w64 .rdx fp (registerSlot reg),
    .load .w64 .rax fp (registerSlot (reg + 1)), .alu .sub .w64 .rax .rdx]
  have hsplit : captureLength reg done = is.map .instr ++ [Item.branch (.jcc .e) done] := rfl
  have hstart : (afterAll is m).regs .rdx = (t.reg reg).toUInt64 := load_registerSlot h hreg
  have hdifference : (afterAll is m).regs .rax =
      (subWords .w64 (t.reg (reg + 1)).toUInt64 (t.reg reg).toUInt64).1 := by
    rw [← load_registerSlot h hreg, ← load_registerSlot h hreg']
    rfl
  have hflags : (afterAll is m).flags =
      (subWords .w64 (t.reg (reg + 1)).toUInt64 (t.reg reg).toUInt64).2 := by
    rw [← load_registerSlot h hreg, ← load_registerSlot h hreg']
    rfl
  have hzero : Cond.e.holds (afterAll is m).flags = decide (Task.captureLength reg t = 0) := by
    have hiff : t.reg (reg + 1) - t.reg reg = 0 ↔ t.reg (reg + 1) = t.reg reg :=
      ⟨fun heq => by rw [← Int64.sub_add_cancel (t.reg (reg + 1)) (t.reg reg), heq, Int64.zero_add],
        fun heq => by rw [heq, Int64.sub_self]⟩
    rw [hflags, holds_e_place, Bool.beq_eq_decide_eq, Task.captureLength, decide_eq_decide, hiff]
  rw [hsplit] at hitems ⊢
  refine ⟨afterAll is m, ⟨agreesBeyond_afterAll is rfl, hstart, ?_⟩, ?_⟩
  · rw [hdifference, subWords_place]
    rfl
  · have hbranch := hitems.right.head
    rw [List.length_map] at hbranch
    refine (GoesTo.instrs hitems.left rfl).trans ?_
    split
    · next hlength => exact .jump hbranch (hzero.trans (decide_eq_true hlength)) hdone
    · next hlength => exact .skip hbranch (hzero.trans (decide_eq_false hlength))

/-- A capture that does not fit makes control leave for the target. One that fits lets control go on
with the length as it was measured, forward and backward alike. -/
theorem goesTo_captureFits (h : Represents k t m) (hm : Measured reg t m m₁) (backward : Bool)
    {dest : Target} (hitems : Stands items i (captureFits backward dest))
    (hdest : items.findIdx? (Item.binds (targetLabel dest)) = none) :
    ∃ m', Measured reg t m m' ∧
      (k.captureFits backward (Task.captureLength reg t) t = true →
        GoesTo offset allowed items i m₁ (i + (captureFits backward dest).length) m') ∧
      (k.captureFits backward (Task.captureLength reg t) t = false →
        Exits offset allowed items i m₁ (.jump (targetLabel dest) m')) := by
  have hpos : m₁.regs pos = t.pos.toUInt64 := (hm.agrees.regs pos (by decide)).trans h.pos
  have hbefore : m₁.load .w64 m₁.beforeAddress = k.before.toUInt64 := by
    have haddress : m₁.beforeAddress = m.beforeAddress := by
      show m₁.regs fp + 0 + _ = m.regs fp + 0 + _
      rw [hm.agrees.regs fp (by decide)]
    rw [haddress, load_congr hm.agrees.mem, h.before]
  -- Before the position the room is compared with, after it the sign of a sum tells.
  obtain ⟨is, c, hsplit, hplain, hwrites, hc⟩ :
      ∃ is c, captureFits backward dest = is.map .instr ++ [branchTo c dest] ∧
        is.all isPlain = true ∧ is.all (Instr.writesWithin [.rcx]) = true ∧
        c.holds (afterAll is m₁).flags =
          !k.captureFits backward (Task.captureLength reg t) t := by
    cases backward with
    | true =>
      refine ⟨[loadSlot .rcx .beforeStart, .alu .add .w64 .rcx .rax, .alu .cmp .w64 pos .rcx], .le,
        rfl, rfl, rfl, ?_⟩
      show Cond.le.holds (subWords .w64 (m₁.regs pos)
        (addWords .w64 (m₁.load .w64 m₁.beforeAddress) (m₁.regs .rax)).1).2 = _
      rw [addWords_place, hpos, hbefore, hm.length]
      refine (holds_le_place t.pos (k.before + Task.captureLength reg t)).trans ?_
      simp only [Task.captureFits, if_true, ← Int64.not_lt, decide_not]
    | false =>
      refine ⟨[.mov .w64 .rcx pos, .alu .add .w64 .rcx .rax], .g, rfl, rfl, rfl, ?_⟩
      show Cond.g.holds (addWords .w64 (m₁.regs pos) (m₁.regs .rax)).2 = _
      rw [hpos, hm.length, holds_g_add]
      simp only [Task.captureFits, Bool.false_eq_true, if_false, ← Int.not_le, decide_not]
  have hrest : AgreesBeyond [.rcx] m₁ (afterAll is m₁) := agreesBeyond_afterAll is hwrites
  have hm' : Measured reg t m (afterAll is m₁) :=
    ⟨hm.agrees.trans (hrest.mono (by decide)),
      (hrest.regs .rdx (by decide)).trans hm.start,
      (hrest.regs .rax (by decide)).trans hm.length⟩
  rw [hsplit] at hitems ⊢
  have hbranch := hitems.right.head
  rw [List.length_map] at hbranch
  have hgoes : GoesTo offset allowed items i m₁ (i + is.length) (afterAll is m₁) :=
    .instrs hitems.left hplain
  refine ⟨afterAll is m₁, hm', fun hfits => ?_, fun hfits => ?_⟩
  · have hskip : GoesTo offset allowed items (i + is.length) (afterAll is m₁)
        (i + is.length + 1) (afterAll is m₁) := .skip hbranch (by rw [hc, hfits]; rfl)
    simpa only [List.length_append, List.length_map, List.length_singleton, Nat.add_assoc] using
      hgoes.trans hskip
  · exact hgoes.exits (.jump hbranch (by rw [hc, hfits]; rfl) hdest)

end Measure

/-! ### Comparing characters -/

/-- A comparison stands at index `i` of a capture that ends at index `stop`, and at index `j`. -/
structure Comparing (k : Task) (m : Machine) (i j stop : Nat) (m' : Machine) : Prop where
  /-- The memory and the other registers are the same. -/
  agrees : AgreesBeyond scratch m m'
  /-- The next character of the capture. -/
  capture : m'.regs .rdx = m.charAddress k.subject i
  /-- The character to compare it with. -/
  here : m'.regs .r8 = m.charAddress k.subject j
  /-- The end of the capture. -/
  stop : m'.regs .r9 = m.charAddress k.subject stop

/-- What a comparison does with two characters: it takes them in and compares them. -/
def compareChars (mode : Mode) : List Instr :=
  [.movExtend (charExtend mode) .rax (.mem { base := .rdx }),
    .movExtend (charExtend mode) .rcx (.mem { base := .r8 }), .alu .cmp .w32 .rax .rcx]

/-- How it goes on to the next ones. -/
def compareNext (mode : Mode) : List Instr :=
  [.aluImm .add .w64 .r8 (Int32.ofNat mode.charSize),
    .aluImm .add .w64 .rdx (Int32.ofNat mode.charSize), .alu .cmp .w64 .rdx .r9]

/-- The loop of a comparison. -/
def compareLoop (mode : Mode) (l : Label) (dest : Target) : List Item :=
  .bind l :: ((compareChars mode).map .instr ++ (branchTo .ne dest ::
    ((compareNext mode).map .instr ++ [.branch (.jcc .b) l])))

theorem Subject.sameAt_succ {s : Subject} {i j : Nat} {c d : UInt32} (hc : s.char? i = some c)
    (hd : s.char? j = some d) (n : Nat) :
    s.sameAt i j (n + 1) = (c == d && s.sameAt (i + 1) (j + 1) n) := by
  rw [Bool.eq_iff_iff, sameAt_iff, charsFrom_succ hc, charsFrom_succ hd, List.cons.injEq,
    Bool.and_eq_true, beq_iff_eq, sameAt_iff]

section Compare

variable (offset : Label → UInt32) {k : Task} {t : Thread} {m m₁ : Machine} {i j stop : Nat}
  (hmode : k.subject.mode = k.mode) (h : Represents k t m) (hc : Comparing k m i j stop m₁)

include hc

omit hc in
theorem immediate_charSize (mode : Mode) :
    immediate .w64 (Int32.ofNat mode.charSize) = UInt64.ofNat mode.charSize := by
  cases mode <;> rfl

include hmode in
/-- Both pointers go on by one character. -/
theorem comparing_next :
    Comparing k m (i + 1) (j + 1) stop (afterAll (compareNext k.mode) m₁) := by
  have hnext (n : Nat) : (addWords .w64 (m.charAddress k.subject n)
      (immediate .w64 (Int32.ofNat k.mode.charSize))).1 = m.charAddress k.subject (n + 1) := by
    rw [immediate_charSize, addWords_place, ← hmode, charAddress_succ]
  refine ⟨hc.agrees.trans ((agreesBeyond_afterAll (compareNext k.mode) rfl)), ?_, ?_, hc.stop⟩
  · rw [← hnext, ← hc.capture]
    rfl
  · rw [← hnext, ← hc.here]
    rfl

include hmode in
/-- The capture is compared to its end. -/
theorem holds_compareNext (hend : k.subject.byteSize ≤ (m.regs inputEnd).toNat) (hi : i < stop)
    (hstop : stop ≤ k.subject.size) :
    Cond.b.holds (afterAll (compareNext k.mode) m₁).flags = decide (i + 1 < stop) := by
  have hnext := comparing_next hmode hc
  have hflags : (afterAll (compareNext k.mode) m₁).flags =
      (subWords .w64 ((afterAll (compareNext k.mode) m₁).regs .rdx)
        ((afterAll (compareNext k.mode) m₁).regs .r9)).2 := rfl
  rw [hflags, hnext.capture, hnext.stop, holds_b_address, decide_eq_decide,
    charAddress_lt_iff hend (by omega) hstop]

omit hc in
theorem address_base (m : Machine) (r : Reg) : m.address { base := r } = m.regs r := by
  show m.regs r + 0 + 0 = _
  rw [UInt64.add_zero, UInt64.add_zero]

variable {items : List Item} {x : Nat}

include hmode h in
omit hc in
/-- A character is taken in from the subject. -/
theorem goesTo_takeIn (hmem : m₁.mem = m.mem) (hi : i < k.subject.size) {dst r : Reg}
    (hget : items[x]? = some (.instr (.movExtend (charExtend k.mode) dst (.mem { base := r }))))
    (hr : m₁.regs r = m.charAddress k.subject i) :
    ∃ c : UInt32, k.subject.char? i = some c ∧
      GoesTo offset (k.InSubject m) items x m₁ (x + 1) (m₁.setReg .w32 dst c.toUInt64) := by
  have haddress := (address_base m₁ r).trans hr
  obtain ⟨c, hchar, hafter⟩ := after_charExtend hmode h hi hmem haddress
  refine ⟨c, hchar, ?_⟩
  rw [← hafter dst]
  refine .takeIn hget fun b hb => ?_
  rw [bytes_charExtend, ← hmode] at hb
  rw [haddress]
  exact inSubject_char hi hb

include hmode h in
/-- The two characters are taken in and compared. -/
theorem goesTo_compareChars (hi : i < k.subject.size) (hj : j < k.subject.size)
    (hitems : Stands items x ((compareChars k.mode).map .instr)) :
    ∃ c d m₂, k.subject.char? i = some c ∧ k.subject.char? j = some d ∧
      Comparing k m i j stop m₂ ∧ Cond.ne.holds m₂.flags = (c != d) ∧
      GoesTo offset (k.InSubject m) items x m₁ (x + 3) m₂ := by
  obtain ⟨c, hchar, hread⟩ := goesTo_takeIn offset hmode h hc.agrees.mem hi
    hitems.head hc.capture
  have hmem : (m₁.setReg .w32 .rax c.toUInt64).mem = m.mem := hc.agrees.mem
  obtain ⟨d, hchar', hread'⟩ := goesTo_takeIn offset hmode h hmem hj hitems.tail.head hc.here
  let m₂ := (m₁.setReg .w32 .rax c.toUInt64).setReg .w32 .rcx d.toUInt64
  have hcompare : GoesTo offset (k.InSubject m) items (x + 2) m₂ (x + 3)
      (after (.alu .cmp .w32 .rax .rcx) m₂) := .plain hitems.tail.tail.head rfl
  have hwrites : AgreesBeyond scratch m₁ (after (.alu .cmp .w32 .rax .rcx) m₂) :=
    ⟨rfl, fun r hr => by
      have hrax : r ≠ .rax := fun heq => hr (heq ▸ by decide)
      have hrcx : r ≠ .rcx := fun heq => hr (heq ▸ by decide)
      exact (regs_setReg_of_ne _ hrcx).trans (regs_setReg_of_ne _ hrax)⟩
  refine ⟨c, d, _, hchar, hchar', ⟨hc.agrees.trans hwrites, hc.capture, hc.here, hc.stop⟩, ?_,
    (hread.trans hread').trans hcompare⟩
  show Cond.ne.holds (subWords .w32 (Width.w32.trunc (Width.w32.trunc c.toUInt64))
    (Width.w32.trunc (Width.w32.trunc d.toUInt64))).2 = _
  rw [trunc_char, trunc_char, trunc_char, trunc_char, holds_ne_char]

end Compare

section Loop

variable (offset : Label → UInt32) {k : Task} {t : Thread} {m m₁ : Machine} {i j stop : Nat}
  (hmode : k.subject.mode = k.mode) (h : Represents k t m)
  (hend : k.subject.byteSize ≤ (m.regs inputEnd).toNat)
  {items : List Item} {x : Nat} {l : Label} {dest : Target}
  (hitems : Stands items x (compareLoop k.mode l dest))
  (hloop : items.findIdx? (Item.binds l) = some x)
  (hdest : items.findIdx? (Item.binds (targetLabel dest)) = none)

include hmode h hend hitems hloop hdest

/-- One round of the loop: it leaves for the target at different characters, and goes on with the
next ones or to its end at equal ones. -/
theorem goesTo_compareRound (hc : Comparing k m i j stop m₁) (hi : i < stop)
    (hstop : stop ≤ k.subject.size) (hj : j < k.subject.size) :
    ∃ c d m₂, k.subject.char? i = some c ∧ k.subject.char? j = some d ∧
      AgreesBeyond scratch m m₂ ∧
      (c = d → Comparing k m (i + 1) (j + 1) stop m₂ ∧ GoesTo offset (k.InSubject m) items x m₁
        (if i + 1 < stop then x else x + (compareLoop k.mode l dest).length) m₂) ∧
      (c ≠ d → Exits offset (k.InSubject m) items x m₁ (.jump (targetLabel dest) m₂)) := by
  have hlabel : GoesTo offset (k.InSubject m) items x m₁ (x + 1) m₁ := .bind hitems.head
  have hbody := hitems.tail
  obtain ⟨c, d, m₂, hchar, hchar', hc₂, hne, hread⟩ :=
    goesTo_compareChars offset hmode h hc (by omega) hj hbody.left
  have hbranch := hbody.right.head
  have hrest := hbody.right.tail
  have hback := hrest.right.head
  simp only [List.length_map, compareChars, compareNext, List.length_cons, List.length_nil]
    at hbranch hrest hback
  have hnext : GoesTo offset (k.InSubject m) items (x + 5) m₂ (x + 8)
      (afterAll (compareNext k.mode) m₂) := .instrs hrest.left rfl
  have hjump := holds_compareNext hmode hc₂ hend hi hstop
  by_cases hcd : c = d
  · refine ⟨c, d, _, hchar, hchar', (comparing_next hmode hc₂).agrees, fun _ =>
      ⟨comparing_next hmode hc₂, ?_⟩, fun hcon => absurd hcd hcon⟩
    have hskip : GoesTo offset (k.InSubject m) items (x + 4) m₂ (x + 5) m₂ :=
      .skip hbranch (by simp [hne, hcd])
    refine (((hlabel.trans hread).trans hskip).trans hnext).trans ?_
    split
    · next hlt => exact .jump hback (hjump.trans (decide_eq_true hlt)) hloop
    · next hlt => exact .skip hback (hjump.trans (decide_eq_false hlt))
  · exact ⟨c, d, m₂, hchar, hchar', hc₂.agrees, fun hcon => absurd hcon hcd, fun _ =>
      (hlabel.trans hread).exits (.jump hbranch (by simp [hne, hcd]) hdest)⟩

/-- **The loop compares texts.** It leaves for the target if they differ, and goes on behind
them if they are the same. -/
theorem goesTo_compareLoop {n : Nat} (hc : Comparing k m i j stop m₁) (hn : i + (n + 1) = stop)
    (hstop : stop ≤ k.subject.size) (hj : j + (n + 1) ≤ k.subject.size) :
    ∃ m₂, AgreesBeyond scratch m m₂ ∧
      (k.subject.sameAt i j (n + 1) = true →
        Comparing k m stop (j + (n + 1)) stop m₂ ∧ GoesTo offset (k.InSubject m) items x m₁
          (x + (compareLoop k.mode l dest).length) m₂) ∧
      (k.subject.sameAt i j (n + 1) = false →
        Exits offset (k.InSubject m) items x m₁ (.jump (targetLabel dest) m₂)) := by
  induction n generalizing i j m₁ with
  | zero =>
    obtain ⟨c, d, m₂, hchar, hchar', hagrees, hsame, hdiffer⟩ :=
      goesTo_compareRound offset hmode h hend hitems hloop hdest hc (by omega) hstop (by omega)
    have hempty := k.subject.sameAt_zero (i + 1) (j + 1)
    refine ⟨m₂, hagrees, fun heq => ?_, fun hne => hdiffer fun heq => ?_⟩
    · rw [Subject.sameAt_succ hchar hchar', hempty, Bool.and_true, beq_iff_eq] at heq
      obtain ⟨hc₂, hgoes⟩ := hsame heq
      rw [if_neg (by omega)] at hgoes
      rw [hn] at hc₂
      exact ⟨hc₂, hgoes⟩
    · simp [Subject.sameAt_succ hchar hchar', hempty, heq] at hne
  | succ n ih =>
    obtain ⟨c, d, m₂, hchar, hchar', hagrees, hsame, hdiffer⟩ :=
      goesTo_compareRound offset hmode h hend hitems hloop hdest hc (by omega) hstop (by omega)
    rw [Subject.sameAt_succ hchar hchar']
    by_cases hcd : c = d
    · obtain ⟨hc₂, hgoes⟩ := hsame hcd
      rw [if_pos (by omega)] at hgoes
      obtain ⟨m₃, hagrees', hrest, hrest'⟩ := ih hc₂ (by omega) (by omega)
      rw [beq_iff_eq.mpr hcd, Bool.true_and]
      refine ⟨m₃, hagrees', fun heq => ?_, fun hne => hgoes.exits (hrest' hne)⟩
      obtain ⟨hc₃, hgoes'⟩ := hrest heq
      rw [Nat.add_right_comm, Nat.add_assoc j] at hc₃
      exact ⟨hc₃, hgoes.trans hgoes'⟩
    · rw [beq_false_of_ne hcd, Bool.false_and]
      exact ⟨m₂, hagrees, fun hcon => absurd hcon Bool.false_ne_true, fun _ => hdiffer hcd⟩

end Loop

/-! ### What a reference finds -/

section Found

variable (offset : Label → UInt32) (allowed : UInt64 → Prop) {items : List Item} {i j : Nat}
  {k : Task} {t : Thread} {m : Machine} {reg s e p : Nat}
  (hmode : k.subject.mode = k.mode) (h : Represents k t m)
  (hse : s ≤ e) (he : e ≤ k.subject.size) (hp : p ≤ k.subject.size) (hpos : t.pos = k.position p)
  (hcap : k.HoldsCapture t reg s e)

include hmode h hse he hp hpos hcap

/-- Before anything is compared an empty capture is passed over, and one without room makes control
leave for the target. -/
theorem measured_cases (hreg : reg < t.regs.size) (hreg' : reg + 1 < t.regs.size) (backward : Bool)
    {done : Label} {dest : Target}
    (hitems : Stands items i (captureLength reg done ++ captureFits backward dest))
    (hdone : items.findIdx? (Item.binds done) = some j)
    (hdest : items.findIdx? (Item.binds (targetLabel dest)) = none) :
    (s = e ∧ ∃ m₁, Measured reg t m m₁ ∧ GoesTo offset allowed items i m j m₁) ∨
      (s < e ∧ ¬k.Roomy backward s e p ∧ ∃ m₁, Measured reg t m m₁ ∧
        Exits offset allowed items i m (.jump (targetLabel dest) m₁)) ∨
      (s < e ∧ k.Roomy backward s e p ∧ k.Captured t reg s e p ∧ ∃ m₁, Measured reg t m m₁ ∧
        GoesTo offset allowed items i m
          (i + (captureLength reg done ++ captureFits backward dest).length) m₁) := by
  obtain ⟨m₁, hm₁, hlength⟩ :=
    goesTo_captureLength offset allowed h hreg hreg' hitems.left hdone
  rcases hcap with ⟨hstart, hstop⟩ | ⟨hstart, hstop, rfl⟩
  · have hcap := Task.captured_of_set hse he hp hpos hstart hstop
    have hzero := hcap.length_eq_zero_iff hmode h.byteSize
    rcases Nat.eq_or_lt_of_le hse with rfl | hlt
    · rw [if_pos (hzero.mpr rfl)] at hlength
      exact .inl ⟨rfl, m₁, hm₁, hlength⟩
    · rw [if_neg (fun hcon => by have := hzero.mp hcon; omega)] at hlength
      have hroom := hcap.captureFits_iff hmode h.byteSize backward
      obtain ⟨m₂, hm₂, hgoes, hleaves⟩ :=
        goesTo_captureFits offset allowed h hm₁ backward hitems.right hdest
      by_cases hfits : k.captureFits backward (Task.captureLength reg t) t = true
      · refine .inr (.inr ⟨hlt, hroom.mp hfits, hcap, m₂, hm₂, ?_⟩)
        rw [List.length_append, ← Nat.add_assoc]
        exact hlength.trans (hgoes hfits)
      · exact .inr (.inl ⟨hlt, fun hcon => hfits (hroom.mpr hcon), m₂, hm₂,
          hlength.exits (hleaves (Bool.eq_false_iff.mpr hfits))⟩)
  · have hzero : Task.captureLength reg t = 0 := by
      rw [Task.captureLength, hstart, hstop, Int64.sub_self]
    rw [if_pos hzero] at hlength
    exact .inl ⟨rfl, m₁, hm₁, hlength⟩

end Found

/-! ### Moving over a repetition -/

/-- Moves the position over the length of a capture. -/
def skipInstrs (reg : Nat) (backward : Bool) : List Instr :=
  [.load .w64 .rax fp (registerSlot (reg + 1)), .aluLoad .sub .w64 .rax fp (registerSlot reg),
    .alu (if backward then .sub else .add) .w64 pos .rax]

section Skip

variable {k : Task} {t : Thread} {m : Machine} {reg s e p : Nat}

/-- The place where a repetition begins. -/
theorem opening_eq (hse : s ≤ e) (hcap : k.Captured t reg s e p) {backward : Bool}
    (hroom : k.Roomy backward s e p) :
    (if backward then t.pos - Task.captureLength reg t else t.pos) =
      k.position (Task.opening backward p (e - s)) := by
  rw [hcap.here_eq, Task.placeAt_opening hse hroom]

/-- The position after a repetition. -/
theorem skip_eq (hse : s ≤ e) (hcap : k.Captured t reg s e p) {backward : Bool}
    (hroom : k.Roomy backward s e p) :
    (if backward then t.pos - Task.captureLength reg t else t.pos + Task.captureLength reg t) =
      k.position (Task.landing backward p (e - s)) := by
  rw [← Task.placeAt_landing hse hroom, hcap.pos, hcap.length_eq, Task.placeAt_sub_ofInt,
    Task.placeAt_add]
  split <;> rfl

/-- Moving over a capture takes its length from the registers once more. The sum stays in the
subject because there was room for the capture. -/
theorem carries_skip (h : Represents k t m) (hreg : reg < t.regs.size)
    (hreg' : reg + 1 < t.regs.size) (hse : s ≤ e) (hcap : k.Captured t reg s e p) {backward : Bool}
    (hroom : k.Roomy backward s e p) :
    Carries k (k.behind backward s e p t) m (afterAll (skipInstrs reg backward) m) := by
  have hfree : AgreesBeyond [.rax, pos] m (afterAll (skipInstrs reg backward) m) := by
    cases backward <;> exact agreesBeyond_afterAll _ rfl
  refine h.carries_moved hfree (by decide) ?_ (t.pc + 1)
  -- The length is computed again from the registers.
  let length := (subWords .w64
    (m.load .w64 (m.address { base := fp, disp := registerSlot (reg + 1) }))
    (m.load .w64 (m.address { base := fp, disp := registerSlot reg }))).1
  have hlength : length = (Task.captureLength reg t).toUInt64 := by
    simp only [length]
    rw [load_registerSlot h hreg, load_registerSlot h hreg', subWords_place]
    rfl
  rw [← skip_eq hse hcap hroom]
  cases backward with
  | true =>
    have hmoved : (afterAll (skipInstrs reg true) m).regs pos =
        (subWords .w64 (m.regs pos) length).1 := rfl
    rw [hmoved, hlength, h.pos, subWords_place]
    rfl
  | false =>
    have hmoved : (afterAll (skipInstrs reg false) m).regs pos =
        (addWords .w64 (m.regs pos) length).1 := rfl
    rw [hmoved, hlength, h.pos, addWords_place]
    rfl

end Skip

/-! ### References that compare characters -/

/-- Sets the pointers of a comparison. -/
def compareSetup (backward : Bool) : List Instr :=
  leaSum .r8 inputEnd pos :: ((if backward then [.alu .sub .w64 .r8 .rax] else []) ++
    [.alu .add .w64 .rdx inputEnd, leaSum .r9 .rdx .rax])

/-- Moves the position to where a comparison ended. -/
def compareEnd (reg : Nat) (backward : Bool) : List Instr :=
  if backward then skipInstrs reg true else [.mov .w64 pos .r8, .alu .sub .w64 pos inputEnd]

/-- The parts of a reference that compares characters. -/
theorem stands_backReference (mode : Mode) (next reg : Nat) (backward : Bool) (dest : Target) :
    Stands (backReference mode next reg backward dest) 0
      ([Item.declare, .declare] ++ ((captureLength reg ⟨next⟩ ++ captureFits backward dest) ++
        ((compareSetup backward).map .instr ++ (compareLoop mode ⟨next + 1⟩ dest ++
          ((compareEnd reg backward).map .instr ++ [Item.bind ⟨next⟩]))))) := by
  cases mode <;> cases backward <;> exact Stands.self _

/-- Where its loop stands. -/
def compareLoopIndex (reg next : Nat) (backward : Bool) (dest : Target) : Nat :=
  2 + (captureLength reg ⟨next⟩ ++ captureFits backward dest).length +
    (compareSetup backward).length

/-- Where it ends. -/
def compareDoneIndex (mode : Mode) (reg next : Nat) (backward : Bool) (dest : Target) : Nat :=
  compareLoopIndex reg next backward dest + (compareLoop mode ⟨next + 1⟩ dest).length +
    (compareEnd reg backward).length

theorem length_backReference (mode : Mode) (next reg : Nat) (backward : Bool) (dest : Target) :
    (backReference mode next reg backward dest).length =
      compareDoneIndex mode reg next backward dest + 1 := by
  cases mode <;> cases backward <;> rfl

section Labels

variable (mode : Mode) (next reg : Nat) (backward : Bool) (dest : Target)

theorem findIdx?_binds_done : (backReference mode next reg backward dest).findIdx?
    (Item.binds ⟨next⟩) = some (compareDoneIndex mode reg next backward dest) := by
  cases backward <;>
    simp [backReference, captureLength, captureFits, skipCapture, branchTo, Item.binds,
      List.findIdx?_cons, compareDoneIndex, compareLoopIndex, compareSetup, compareLoop,
      compareChars, compareNext, compareEnd, skipInstrs]

theorem findIdx?_binds_loop : (backReference mode next reg backward dest).findIdx?
    (Item.binds ⟨next + 1⟩) = some (compareLoopIndex reg next backward dest) := by
  cases backward <;>
    simp [backReference, captureLength, captureFits, skipCapture, branchTo, Item.binds,
      List.findIdx?_cons, compareLoopIndex, compareSetup]

/-- The target of a comparison is bound outside of it: labels below the next local one are not those
it declares. -/
theorem findIdx?_binds_dest {l : Label} (hl : l.index < next) :
    (backReference mode next reg backward dest).findIdx? (Item.binds l) = none := by
  obtain ⟨x⟩ := l
  have hx : x < next := hl
  have hdone : next ≠ x := by omega
  have hloop : next + 1 ≠ x := by omega
  cases backward <;>
    simp [backReference, captureLength, captureFits, skipCapture, branchTo, Item.binds,
      List.findIdx?_cons, hdone, hloop]

end Labels

section Pointers

variable {k : Task} {t : Thread} {m m₁ : Machine} {reg s e p : Nat}
  (hmode : k.subject.mode = k.mode) (h : Represents k t m)

theorem address_sum (m : Machine) (base index : Reg) :
    m.address { base := base, index := some (index, 0) } = m.regs base + m.regs index := by
  have hshift : m.regs index <<< (0 : UInt8).toUInt64 = m.regs index := by simp
  show m.regs base + m.regs index <<< (0 : UInt8).toUInt64 + 0 = _
  rw [hshift, UInt64.add_zero]

include hmode h

/-- The pointers are set to the start of the capture and to where its text is looked for. From here
on the loop knows of two pointers and an end, and no longer of captures. -/
theorem comparing_setup (hm : Measured reg t m m₁) (hse : s ≤ e) (he : e ≤ k.subject.size)
    (hp : p ≤ k.subject.size) (hcap : k.Captured t reg s e p) {backward : Bool}
    (hroom : k.Roomy backward s e p) :
    Comparing k m s (Task.opening backward p (e - s)) e (afterAll (compareSetup backward) m₁) := by
  have hsize := h.byteSize
  have hinput : m₁.regs inputEnd = m.regs inputEnd := hm.agrees.regs inputEnd (by decide)
  have hpos : m₁.regs pos = t.pos.toUInt64 := (hm.agrees.regs pos (by decide)).trans h.pos
  have hstart : t.reg reg = k.position s := by rw [hcap.start, Task.placeAt_natCast]
  have hstop : t.reg (reg + 1) = k.position e := by rw [hcap.stop, Task.placeAt_natCast]
  have hopening := Task.opening_add_le hse hp hroom
  have hhere := opening_eq hse hcap hroom
  have hcapture : m₁.regs .rdx + m₁.regs inputEnd = m.charAddress k.subject s := by
    rw [hm.start, hinput, hstart, UInt64.add_comm, charAddress_eq hmode hsize (by omega)]
  have hend : m.charAddress k.subject s + m₁.regs .rax = m.charAddress k.subject e := by
    rw [hm.length, ← charAddress_eq hmode hsize (by omega), ← charAddress_eq hmode hsize he,
      Task.captureLength, hstart, hstop, UInt64.add_assoc]
    congr 1
    show (k.position s + (k.position e - k.position s)).toUInt64 = _
    rw [Int64.add_comm, Int64.sub_add_cancel]
  have hwrites : AgreesBeyond scratch m₁ (afterAll (compareSetup backward) m₁) := by
    cases backward <;> exact agreesBeyond_afterAll _ rfl
  have hcaptureAfter : (afterAll (compareSetup backward) m₁).regs .rdx =
      m.charAddress k.subject s := by
    rw [← hcapture, ← addWords_place]
    cases backward <;> rfl
  refine ⟨hm.agrees.trans hwrites, hcaptureAfter, ?_, ?_⟩
  · rw [← charAddress_eq hmode hsize (by omega), ← hhere]
    cases backward with
    | true =>
      have hafter : (afterAll (compareSetup true) m₁).regs .r8 = (subWords .w64
          (m₁.address { base := inputEnd, index := some (pos, 0) }) (m₁.regs .rax)).1 := rfl
      rw [hafter, subWords_place, address_sum, hinput, hpos, hm.length, UInt64.sub_eq_add_neg,
        UInt64.add_assoc, ← UInt64.sub_eq_add_neg]
      rfl
    | false =>
      have hafter : (afterAll (compareSetup false) m₁).regs .r8 =
          m₁.address { base := inputEnd, index := some (pos, 0) } := rfl
      rw [hafter, address_sum, hinput, hpos]
      rfl
  · have hafter : (afterAll (compareSetup backward) m₁).regs .r9 =
        (afterAll (compareSetup backward) m₁).address
          { base := .rdx, index := some (.rax, 0) } := by
      cases backward <;> rfl
    have hlength : (afterAll (compareSetup backward) m₁).regs .rax = m₁.regs .rax := by
      cases backward <;> rfl
    rw [hafter, address_sum, hcaptureAfter, hlength, hend]

/-- A comparison that comes to its end moves the position behind what it has found. Forward that is
where the second pointer has come to; backward it is where it started. -/
theorem carries_compareEnd (hreg : reg < t.regs.size) (hreg' : reg + 1 < t.regs.size) (hse : s ≤ e)
    (hp : p ≤ k.subject.size) (hcap : k.Captured t reg s e p) {backward : Bool}
    (hroom : k.Roomy backward s e p)
    (hc : Comparing k m e (Task.opening backward p (e - s) + (e - s)) e m₁) :
    Carries k (k.behind backward s e p t) m (afterAll (compareEnd reg backward) m₁) := by
  cases backward with
  | true =>
    have hthread := (h.carries_moved hc.agrees (by decide)
      ((hc.agrees.regs pos (by decide)).trans h.pos) t.pc).thread
    obtain ⟨hmoved, hpointers⟩ := carries_skip hthread hreg hreg' hse hcap hroom
    exact ⟨hmoved, fun r hr => (hpointers r hr).trans (hc.agrees.regs r (by revert r; decide))⟩
  | false =>
    have hfree : AgreesBeyond [pos] m₁ (afterAll (compareEnd reg false) m₁) :=
      agreesBeyond_afterAll _ rfl
    have hwrites : AgreesBeyond (pos :: scratch) m (afterAll (compareEnd reg false) m₁) :=
      (hc.agrees.mono (by decide)).trans (hfree.mono (by decide))
    refine h.carries_moved hwrites (by decide) ?_ (t.pc + 1)
    have hafter : (afterAll (compareEnd reg false) m₁).regs pos =
        (subWords .w64 (m₁.regs .r8) (m₁.regs inputEnd)).1 := rfl
    have hend : p + (e - s) ≤ k.subject.size := Task.opening_add_le hse hp hroom
    have hhere : m₁.regs .r8 = m.charAddress k.subject (p + (e - s)) := hc.here
    rw [hafter, subWords_place, hhere, hc.agrees.regs inputEnd (by decide),
      ← charAddress_eq hmode h.byteSize hend, UInt64.add_comm, UInt64.add_sub_cancel]
    rfl

end Pointers

/-- **What a reference does that compares characters, in code.** It goes past if it finds the text
of the capture, and leaves for its target otherwise; it reads no byte outside of the subject. -/
theorem exits_backReference (offset : Label → UInt32) {k : Task} {t : Thread} {m : Machine}
    {next reg s e p : Nat} {backward : Bool} {dest : Target} (hmode : k.subject.mode = k.mode)
    (h : Represents k t m) (hend : k.subject.byteSize ≤ (m.regs inputEnd).toNat) (hse : s ≤ e)
    (he : e ≤ k.subject.size) (hp : p ≤ k.subject.size) (hpos : t.pos = k.position p)
    (hcap : k.HoldsCapture t reg s e) (hreg : reg < t.regs.size) (hreg' : reg + 1 < t.regs.size)
    (hdest : (targetLabel dest).index < next) :
    (k.Repeats k.subject.sameAt backward s e p → ∃ m',
      Exits offset (k.InSubject m) (backReference k.mode next reg backward dest) 0 m (.past m') ∧
        Carries k (k.behind backward s e p t) m m') ∧
    (¬k.Repeats k.subject.sameAt backward s e p → ∃ m',
      Exits offset (k.InSubject m) (backReference k.mode next reg backward dest) 0 m
        (.jump (targetLabel dest) m') ∧ Carries k t m m') := by
  have hitems := stands_backReference k.mode next reg backward dest
  have hdone := findIdx?_binds_done k.mode next reg backward dest
  have hloop := findIdx?_binds_loop k.mode next reg backward dest
  have hout := findIdx?_binds_dest k.mode next reg backward dest hdest
  have hlength := length_backReference k.mode next reg backward dest
  generalize backReference k.mode next reg backward dest = items at *
  have hbegin : GoesTo offset (k.InSubject m) items 0 m 2 m :=
    (GoesTo.declare hitems.left.head).trans (.declare hitems.left.tail.head)
  have hlast : items[compareDoneIndex k.mode reg next backward dest]? = some (.bind ⟨next⟩) := by
    have h := hitems.right.right.right.right.right.head
    rwa [List.length_map, List.length_map] at h
  have hpast (m' : Machine) : Exits offset (k.InSubject m) items
      (compareDoneIndex k.mode reg next backward dest) m' (.past m') :=
    (GoesTo.bind hlast).exits (.past (List.getElem?_eq_none (Nat.le_of_eq hlength)))
  rcases measured_cases offset (k.InSubject m) hmode h hse he hp hpos hcap hreg hreg' backward
      hitems.right.left hdone hout with
    ⟨rfl, m₁, hm₁, hgoes⟩ | ⟨hlt, hroom, m₁, hm₁, hleaves⟩ |
    ⟨hlt, hroom, hcaptured, m₁, hm₁, hgoes⟩
  · refine ⟨fun _ => ⟨m₁, hbegin.exits (hgoes.exits (hpast m₁)), ?_⟩,
      fun hcon => absurd (Task.repeats_empty hp k.subject.sameAt_zero backward) hcon⟩
    refine h.carries_moved hm₁.agrees (by decide) ?_ (t.pc + 1)
    rw [hm₁.agrees.regs pos (by decide), h.pos, hpos, Task.landing_self]
  · exact ⟨fun hcon => absurd hcon.1 hroom, fun _ => ⟨m₁, hbegin.exits hleaves,
      h.carries_moved hm₁.agrees (by decide) ((hm₁.agrees.regs pos (by decide)).trans h.pos) t.pc⟩⟩
  · have hsetup : GoesTo offset (k.InSubject m) items (2 + (captureLength reg ⟨next⟩ ++
        captureFits backward dest).length) m₁ (compareLoopIndex reg next backward dest)
        (afterAll (compareSetup backward) m₁) :=
      .instrs hitems.right.right.left (by cases backward <;> rfl)
    have hc := comparing_setup hmode h hm₁ hse he hp hcaptured hroom
    have hloopItems := hitems.right.right.right.left
    have hendItems := hitems.right.right.right.right.left
    rw [List.length_map] at hloopItems hendItems
    obtain ⟨n, hn⟩ : ∃ n, e - s = n + 1 := ⟨e - s - 1, by omega⟩
    have hopening := Task.opening_add_le hse hp hroom
    rw [hn] at hopening
    obtain ⟨m₂, hm₂, hsame, hdiffer⟩ := goesTo_compareLoop offset hmode h hend
      hloopItems hloop hout hc (n := n) (by omega) he (by rw [hn]; exact hopening)
    rw [← hn] at hsame hdiffer
    have hfront := (hbegin.trans hgoes).trans hsetup
    refine ⟨fun hfound => ?_, fun hfails => ⟨m₂, hfront.exits (hdiffer ?_), ?_⟩⟩
    · obtain ⟨hc₂, hgoes₂⟩ := hsame hfound.2
      have hskip : GoesTo offset (k.InSubject m) items (compareLoopIndex reg next backward dest +
          (compareLoop k.mode ⟨next + 1⟩ dest).length) m₂
          (compareDoneIndex k.mode reg next backward dest)
          (afterAll (compareEnd reg backward) m₂) :=
        .instrs hendItems (by cases backward <;> rfl)
      exact ⟨_, ((hfront.trans hgoes₂).trans hskip).exits (hpast _),
        carries_compareEnd hmode h hreg hreg' hse hp hcaptured hroom hc₂⟩
    · exact Bool.eq_false_iff.mpr fun hcon => hfails ⟨hroom, hcon⟩
    · exact h.carries_moved hm₂ (by decide) ((hm₂.regs pos (by decide)).trans h.pos) t.pc

end NativeMatcher
