import NativeMatcher.Proofs.Recorded
import NativeMatcher.Proofs.Widening

/-!
# References to captures that are not set

A reference to a capture compares it with the text at the position. A register that is not set
holds the place before the subject, which is the place of index `-1`
(`NativeMatcher.Task.placeAt`); so a capture is a pair of indices from `-1` on, whether it is set or
not, and what a reference to it does is said in these indices
(`NativeMatcher.Task.backReference_eq`, `NativeMatcher.Task.backReferenceIgnoreCase_eq`).

The only thing that is looked at before characters are compared is whether the two indices are the
same. So a capture with neither end set is repeated everywhere. A capture with one end set is not:
with its end missing it has a negative length, which fits everywhere and is compared for one
character, and with its start missing the comparison begins before the subject
(`NativeMatcher.Task.backReference_of_unset`).
-/

namespace NativeMatcher

namespace Task

variable {k : Task} {t : Thread}

/-! ### Places by their indices -/

/-- The place of an index; that of `-1` is the place before the subject. -/
def placeAt (k : Task) (i : Int) : Int64 := Int64.ofInt (i * k.mode.charSize - k.subject.byteSize)

theorem placeAt_natCast (i : Nat) : k.placeAt i = k.position i := by
  rw [placeAt, position, length, Int64.ofInt_sub, ← Int.natCast_mul, Int64.ofInt_eq_ofNat,
    Int64.ofInt_eq_ofNat]

theorem placeAt_neg_one : k.placeAt (-1) = k.before := by
  have hsum : -1 * (k.mode.charSize : Int) - k.subject.byteSize =
      -(k.subject.byteSize : Int) - k.mode.charSize := by omega
  rw [placeAt, before, length, unit, hsum, Int64.ofInt_sub, Int64.ofInt_neg, Int64.ofInt_eq_ofNat,
    Int64.ofInt_eq_ofNat]

theorem placeAt_sub (i j : Int) :
    k.placeAt i - k.placeAt j = Int64.ofInt ((i - j) * k.mode.charSize) := by
  rw [placeAt, placeAt, ← Int64.ofInt_sub, Int.sub_mul]
  congr 1
  omega

theorem placeAt_add (i n : Int) :
    k.placeAt i + Int64.ofInt (n * k.mode.charSize) = k.placeAt (i + n) := by
  rw [placeAt, placeAt, ← Int64.ofInt_add, Int.add_mul]
  congr 1
  omega

theorem placeAt_sub_ofInt (i n : Int) :
    k.placeAt i - Int64.ofInt (n * k.mode.charSize) = k.placeAt (i - n) := by
  rw [placeAt, placeAt, ← Int64.ofInt_sub, Int.sub_mul]
  congr 1
  omega

section Within

variable (hmode : k.subject.mode = k.mode) (hsize : k.subject.byteSize < 2 ^ 62)

include hmode hsize

/-- Nothing wraps around at the places of these indices. -/
theorem toInt_placeAt {i : Int} (hlow : -(k.subject.size + 2 : Int) ≤ i)
    (hhigh : i ≤ k.subject.size + 1) :
    (k.placeAt i).toInt = (i - k.subject.size) * k.mode.charSize := by
  rw [Subject.byteSize, hmode] at hsize
  rw [placeAt, Subject.byteSize, hmode, Int.natCast_mul, ← Int.sub_mul]
  cases hm : k.mode <;> simp only [hm, Mode.charSize] at hsize ⊢ <;>
    rw [Int64.toInt_ofInt_of_le (by omega) (by omega)]

/-- Nor does the distance of two of them. -/
theorem toInt_ofInt_mul {n : Int} (hlow : -(k.subject.size + 1 : Int) ≤ n)
    (hhigh : n ≤ k.subject.size + 1) :
    (Int64.ofInt (n * k.mode.charSize)).toInt = n * k.mode.charSize := by
  rw [Subject.byteSize, hmode] at hsize
  cases hm : k.mode <;> simp only [hm, Mode.charSize] at hsize ⊢ <;>
    rw [Int64.toInt_ofInt_of_le (by omega) (by omega)]

/-- Addresses on the model's heap do not wrap around, from one character before the subject to its
end. -/
theorem toNat_address_placeAt {i : Int} (hlow : -1 ≤ i) (hhigh : i ≤ k.subject.size) :
    ((k.address (k.placeAt i)).toNat : Int) = Memory.heap + i * k.mode.charSize := by
  have hheap : Memory.heap = 0x600000000000 := rfl
  have hplace := toInt_placeAt hmode hsize (i := i) (by omega) (by omega)
  have hword := toNat_toUInt64_cases (k.placeAt i)
  rw [Subject.byteSize, hmode] at hsize
  rw [address, Memory.address, Subject.byteSize, hmode, UInt64.toNat_add,
    UInt64.toNat_ofNat_of_lt' (by simp only [UInt64.size]; omega)]
  cases hm : k.mode <;> simp only [hm, Mode.charSize] at hsize hplace ⊢ <;> omega

end Within

/-! ### What a reference does -/

/-- The thread is at index `p`, and the capture at a register goes from index `a` to index `b`,
where `-1` stands for an end that is not set. -/
structure Captured (k : Task) (t : Thread) (reg : Nat) (a b p : Int) : Prop where
  /-- The register of the start. -/
  start : t.reg reg = k.placeAt a
  /-- The register of the end. -/
  stop : t.reg (reg + 1) = k.placeAt b
  /-- The position. -/
  pos : t.pos = k.placeAt p
  /-- The start is not before the place of an unset register. -/
  start_ge : -1 ≤ a
  /-- It is not past the subject. -/
  start_le : a ≤ k.subject.size
  /-- The end is not before the place of an unset register. -/
  stop_ge : -1 ≤ b
  /-- It is not past the subject. -/
  stop_le : b ≤ k.subject.size
  /-- The position is in the subject. -/
  pos_ge : 0 ≤ p
  /-- It is not past it. -/
  pos_le : p ≤ k.subject.size

/-- There is room before or after index `p` for a capture from `a` to `b`. -/
def Roomy (k : Task) (backward : Bool) (a b p : Int) : Prop :=
  if backward then b - a ≤ p else p + (b - a) ≤ k.subject.size

instance (backward : Bool) (a b p : Int) : Decidable (k.Roomy backward a b p) :=
  inferInstanceAs (Decidable (if backward then b - a ≤ p else p + (b - a) ≤ k.subject.size))

/-- What becomes of a thread that has compared characters, to go on at another place if they are
the same. -/
def compared (k : Task) (same : Option Bool) (dest : Target) (pos : Int64) (t : Thread) : Outcome :=
  match same with
  | none => .stray
  | some false => k.branch dest t
  | some true => .next { t with pos := pos, pc := t.pc + 1 }

namespace Captured

variable {reg : Nat} {a b p : Int} (h : k.Captured t reg a b p)

include h

theorem length_eq : captureLength reg t = Int64.ofInt ((b - a) * k.mode.charSize) := by
  rw [captureLength, h.start, h.stop, placeAt_sub]

/-- Where a comparison begins. -/
theorem here_eq (backward : Bool) : (if backward then t.pos - captureLength reg t else t.pos) =
    k.placeAt (if backward then p - (b - a) else p) := by
  rw [h.length_eq, h.pos, placeAt_sub_ofInt]
  split <;> rfl

variable (hmode : k.subject.mode = k.mode) (hsize : k.subject.byteSize < 2 ^ 62)

include hmode hsize

theorem toInt_length : (captureLength reg t).toInt = (b - a) * k.mode.charSize := by
  have ⟨_, _, _, ha, ha', hb, hb', _, _⟩ := h
  rw [h.length_eq, toInt_ofInt_mul hmode hsize (by omega) (by omega)]

theorem length_eq_zero_iff : captureLength reg t = 0 ↔ b = a := by
  rw [← Int64.toInt_inj, h.toInt_length hmode hsize, Int64.toInt_zero]
  cases k.mode <;> simp only [Mode.charSize] <;> omega

/-- A comparison looks at the characters of the capture, but at one at least. -/
theorem compareCount_eq :
    k.compareCount (k.placeAt a) (k.placeAt b) = max 1 (b - a).toNat := by
  have hfirst := toNat_address_placeAt hmode hsize h.start_ge h.start_le
  have hlast := toNat_address_placeAt hmode hsize h.stop_ge h.stop_le
  rw [compareCount]
  cases hm : k.mode <;> simp only [hm, Mode.charSize] at hfirst hlast ⊢ <;> omega

/-- A capture fits if there is room for it; one of a negative length always fits. -/
theorem captureFits_iff (backward : Bool) :
    k.captureFits backward (captureLength reg t) t = true ↔ k.Roomy backward a b p := by
  have ⟨_, _, _, ha, ha', hb, hb', hp, hp'⟩ := h
  have hhere := toInt_placeAt hmode hsize (i := p) (by omega) (by omega)
  rw [captureFits, Roomy, h.pos]
  cases backward with
  | true =>
    have hfar := toInt_placeAt hmode hsize (i := -1 + (b - a)) (by omega) (by omega)
    simp only [if_true, h.length_eq, ← placeAt_neg_one, placeAt_add, Int64.lt_iff_toInt_lt, hfar,
      hhere, decide_eq_true_eq]
    cases k.mode <;> simp only [Mode.charSize] <;> omega
  | false =>
    simp only [Bool.false_eq_true, if_false, h.toInt_length hmode hsize, hhere, decide_eq_true_eq]
    cases k.mode <;> simp only [Mode.charSize] <;> omega

/-- **What a reference to a capture does.** All places are indices into the subject, with `-1` for
an end that is not set. Nothing is assumed about the order of the two ends. -/
theorem backReference_eq (backward : Bool) (dest : Target) :
    k.backReference reg backward dest t =
      if b = a then .next t.advance
      else if k.Roomy backward a b p then
        k.compared (k.sameChars (max 1 (b - a).toNat) (k.placeAt a)
            (k.placeAt (if backward then p - (b - a) else p))) dest
          (k.placeAt (if backward then p - (b - a) else p + (max 1 (b - a).toNat : Nat))) t
      else k.branch dest t := by
  have hfits := h.captureFits_iff hmode hsize backward
  have hskip (n : Nat) : t.pos + Int64.ofNat (n * k.mode.charSize) = k.placeAt (p + n) := by
    rw [h.pos, ← placeAt_add, ← Int64.ofInt_eq_ofNat, Int.natCast_mul]
  simp only [backReference, h.length_eq_zero_iff hmode hsize, h.compareCount_eq hmode hsize,
    h.here_eq, hskip, h.start, h.stop]
  split
  · rfl
  · by_cases hfit : k.captureFits backward (captureLength reg t) t = true
    · rw [if_neg (by simp [hfit]), if_pos (hfits.mp hfit)]
      unfold compared
      cases backward <;> rfl
    · rw [if_pos (by simp [hfit]), if_neg fun hcon => hfit (hfits.mpr hcon)]

/-- **What a reference to a capture does that ignores case.** Here the host compares two slices, so
a capture that ends before it starts leads astray. -/
theorem backReferenceIgnoreCase_eq (backward unicode : Bool) (dest : Target) :
    k.backReferenceIgnoreCase reg backward unicode dest t =
      if b = a then .next t.advance
      else if k.Roomy backward a b p then
        if b < a then .stray
        else k.compared (k.sameCharsIgnoreCase unicode (b - a).toNat (k.placeAt a)
            (k.placeAt (if backward then p - (b - a) else p))) dest
          (k.placeAt (if backward then p - (b - a) else p + (b - a))) t
      else k.branch dest t := by
  have hfits := h.captureFits_iff hmode hsize backward
  have hskip : t.pos + captureLength reg t = k.placeAt (p + (b - a)) := by
    rw [h.pos, h.length_eq, placeAt_add]
  have hneg : captureLength reg t < 0 ↔ b < a := by
    rw [Int64.lt_iff_toInt_lt, h.toInt_length hmode hsize, Int64.toInt_zero]
    cases k.mode <;> simp only [Mode.charSize] <;> omega
  have hcount : (captureLength reg t).toInt.toNat / k.mode.charSize = (b - a).toNat := by
    rw [h.toInt_length hmode hsize]
    cases k.mode <;> simp only [Mode.charSize] <;> omega
  simp only [backReferenceIgnoreCase, h.length_eq_zero_iff hmode hsize, hneg, h.here_eq, hskip,
    h.start, hcount]
  split
  · rfl
  · by_cases hfit : k.captureFits backward (captureLength reg t) t = true
    · rw [if_neg (by simp [hfit]), if_pos (hfits.mp hfit)]
      unfold compared
      cases backward <;> rfl
    · rw [if_pos (by simp [hfit]), if_neg fun hcon => hfit (hfits.mpr hcon)]

end Captured

/-! ### Captures that are not set -/

section Unset

variable (hmode : k.subject.mode = k.mode) (hsize : k.subject.byteSize < 2 ^ 62) {p : Nat}
  (hp : p ≤ k.subject.size) (hpos : t.pos = k.position p) {reg : Nat} {backward : Bool}
  (unicode : Bool) {dest : Target}

/-- A reference to a capture of which neither end is set does nothing. -/
theorem perform_of_unset (hstart : t.reg reg = k.before) (hstop : t.reg (reg + 1) = k.before) :
    k.perform (.checkNotBackReference reg backward dest) t = .next t.advance ∧
      k.perform (.checkNotBackReferenceIgnoreCase reg backward unicode dest) t =
        .next t.advance := by
  have hlength : captureLength reg t = 0 := by
    rw [captureLength, hstart, hstop, Int64.sub_self]
  constructor
  · rw [perform, backReference, if_pos hlength]
  · rw [perform, backReferenceIgnoreCase, if_pos hlength]

include hmode hsize hp hpos

/-- One to a capture of which only the start is set compares one character. -/
theorem perform_of_open {s : Nat} (hs : s ≤ k.subject.size) (hstart : t.reg reg = k.position s)
    (hstop : t.reg (reg + 1) = k.before) :
    k.perform (.checkNotBackReference reg backward dest) t =
        k.compared (k.sameChars 1 (k.position s)
            (k.position (if backward then p + s + 1 else p))) dest
          (k.position (if backward then p + s + 1 else p + 1)) t ∧
      k.perform (.checkNotBackReferenceIgnoreCase reg backward unicode dest) t = .stray := by
  have hcap : k.Captured t reg s (-1) p := by
    refine ⟨?_, ?_, ?_, ?_, ?_, ?_, ?_, ?_, ?_⟩
    · rw [hstart, placeAt_natCast]
    · rw [hstop, placeAt_neg_one]
    · rw [hpos, placeAt_natCast]
    all_goals omega
  have hne : ¬(-1 : Int) = s := by omega
  -- The length is negative.
  have hroom : k.Roomy backward s (-1) p := by
    unfold Roomy
    split <;> omega
  have hcount : max 1 ((-1 : Int) - s).toNat = 1 := by omega
  have hhere : (if backward then (p : Int) - (-1 - s) else p) =
      ((if backward then p + s + 1 else p : Nat) : Int) := by
    split <;> omega
  have hafter : (if backward then (p : Int) - (-1 - s) else p + (1 : Nat)) =
      ((if backward then p + s + 1 else p + 1 : Nat) : Int) := by
    split <;> omega
  constructor
  · rw [perform, hcap.backReference_eq hmode hsize, if_neg hne, if_pos hroom, hcount, hhere,
      hafter, placeAt_natCast, placeAt_natCast, placeAt_natCast]
  · rw [perform, hcap.backReferenceIgnoreCase_eq hmode hsize, if_neg hne, if_pos hroom,
      if_pos (by omega)]

section Close

variable {e : Nat} (he : e ≤ k.subject.size) (hstart : t.reg reg = k.before)
  (hstop : t.reg (reg + 1) = k.position e)

include he hstart hstop

omit hmode hsize in
theorem captured_of_close : k.Captured t reg (-1) e p := by
  refine ⟨?_, ?_, ?_, ?_, ?_, ?_, ?_, ?_, ?_⟩
  · rw [hstart, placeAt_neg_one]
  · rw [hstop, placeAt_natCast]
  · rw [hpos, placeAt_natCast]
  all_goals omega

omit hmode hsize hp hpos he hstart hstop in
theorem roomy_of_close : k.Roomy backward (-1) e p ↔
    if backward then e < p else p + e < k.subject.size := by
  unfold Roomy
  split <;> omega

/-- One to a capture of which only the end is set compares as many characters as there are up to
it, and one more. -/
theorem perform_of_close (hroom : if backward then e < p else p + e < k.subject.size) :
    k.perform (.checkNotBackReference reg backward dest) t =
        k.compared (k.sameChars (e + 1) k.before
            (k.position (if backward then p - (e + 1) else p))) dest
          (k.position (if backward then p - (e + 1) else p + (e + 1))) t ∧
      k.perform (.checkNotBackReferenceIgnoreCase reg backward unicode dest) t =
        k.compared (k.sameCharsIgnoreCase unicode (e + 1) k.before
            (k.position (if backward then p - (e + 1) else p))) dest
          (k.position (if backward then p - (e + 1) else p + (e + 1))) t := by
  have hcap := captured_of_close hp hpos he hstart hstop
  have hne : ¬(e : Int) = -1 := by omega
  have hroomy := roomy_of_close.mpr hroom
  have hspan : (e : Int) - -1 = (e + 1 : Nat) := by omega
  have hcount : max 1 (e + 1) = e + 1 := by omega
  have hback (n : Nat) : (if backward then (p : Int) - (e + 1 : Nat) else n) =
      ((if backward then p - (e + 1) else n : Nat) : Int) := by
    cases backward with
    | false => rfl
    | true =>
      have hlt : e < p := hroom
      simp only [if_true]
      omega
  constructor
  · rw [perform, hcap.backReference_eq hmode hsize, if_neg hne, if_pos hroomy, hspan,
      Int.toNat_natCast, hcount, hback, ← Int.natCast_add, hback, placeAt_neg_one,
      placeAt_natCast, placeAt_natCast]
  · rw [perform, hcap.backReferenceIgnoreCase_eq hmode hsize, if_neg hne, if_pos hroomy,
      if_neg (by omega), hspan, Int.toNat_natCast, hback, ← Int.natCast_add, hback,
      placeAt_neg_one, placeAt_natCast, placeAt_natCast]

/-- It branches if there is no room for so many. -/
theorem branch_of_close (hfull : ¬if backward then e < p else p + e < k.subject.size) :
    k.perform (.checkNotBackReference reg backward dest) t = k.branch dest t ∧
      k.perform (.checkNotBackReferenceIgnoreCase reg backward unicode dest) t =
        k.branch dest t := by
  have hcap := captured_of_close hp hpos he hstart hstop
  have hne : ¬(e : Int) = -1 := by omega
  have hnot : ¬k.Roomy backward (-1) e p := fun hroom => hfull (roomy_of_close.mp hroom)
  constructor
  · rw [perform, hcap.backReference_eq hmode hsize, if_neg hne, if_neg hnot]
  · rw [perform, hcap.backReferenceIgnoreCase_eq hmode hsize, if_neg hne, if_neg hnot]

end Close

variable (reg backward dest) in
/-- **A reference to a capture that is not set.** Only a capture with neither end set is repeated
everywhere, without a look at the subject:

* with neither end set, the reference goes on where it is;
* with the start set to index `s`, it compares one character there with one at the position, or
  backward with the one `s + 1` characters on, and moves on past it if they are the same; ignoring
  case, it goes astray;
* with the end set to index `e`, it compares `e + 1` characters from the place before the subject
  on if there is room for them, and branches otherwise. -/
theorem backReference_of_unset :
    (t.reg reg = k.before → t.reg (reg + 1) = k.before →
        k.perform (.checkNotBackReference reg backward dest) t = .next t.advance ∧
        k.perform (.checkNotBackReferenceIgnoreCase reg backward unicode dest) t =
          .next t.advance) ∧
      (∀ s ≤ k.subject.size, t.reg reg = k.position s → t.reg (reg + 1) = k.before →
        k.perform (.checkNotBackReference reg backward dest) t =
          k.compared (k.sameChars 1 (k.position s)
              (k.position (if backward then p + s + 1 else p))) dest
            (k.position (if backward then p + s + 1 else p + 1)) t ∧
        k.perform (.checkNotBackReferenceIgnoreCase reg backward unicode dest) t = .stray) ∧
      ∀ e ≤ k.subject.size, t.reg reg = k.before → t.reg (reg + 1) = k.position e →
        ((if backward then e < p else p + e < k.subject.size) →
          k.perform (.checkNotBackReference reg backward dest) t =
            k.compared (k.sameChars (e + 1) k.before
                (k.position (if backward then p - (e + 1) else p))) dest
              (k.position (if backward then p - (e + 1) else p + (e + 1))) t ∧
          k.perform (.checkNotBackReferenceIgnoreCase reg backward unicode dest) t =
            k.compared (k.sameCharsIgnoreCase unicode (e + 1) k.before
                (k.position (if backward then p - (e + 1) else p))) dest
              (k.position (if backward then p - (e + 1) else p + (e + 1))) t) ∧
        (¬(if backward then e < p else p + e < k.subject.size) →
          k.perform (.checkNotBackReference reg backward dest) t = k.branch dest t ∧
          k.perform (.checkNotBackReferenceIgnoreCase reg backward unicode dest) t =
            k.branch dest t) :=
  ⟨perform_of_unset unicode,
    fun _ hs hstart hstop => perform_of_open hmode hsize hp hpos unicode hs hstart hstop,
    fun _ he hstart hstop => ⟨perform_of_close hmode hsize hp hpos unicode he hstart hstop,
      branch_of_close hmode hsize hp hpos unicode he hstart hstop⟩⟩

end Unset

end Task

/-! ### A group that is open -/

namespace Sample

/-- Opens a group before the first character, and refers to it before the second. -/
def unclosed : Program where
  opcodes := #[.writePosition 2 0, .advance 1, .checkNotBackReference 2 false (some ⟨0⟩),
    .writePosition 0 0, .writePosition 1 0, .succeed, .bind ⟨0⟩, .fail]
  labels := 1
  saved := 2

theorem exists_compile_unclosed :
    ∃ m, unclosed.compile { mode := .latin1 } "" Sample.heap = .ok m ∧ m.object.registers = 4 := by
  obtain ⟨m, hm, hregs, -⟩ := Program.exists_compile (p := unclosed) (o := { mode := .latin1 })
    (n := 121) (by decide +kernel) (by decide) (by simp [unclosed, Opcode.InRange, InReach])
    (by decide) "" Sample.heap
  exact ⟨m, hm, hregs⟩

section Run

variable {k : Task} (hprogram : k.matcher.program = unclosed) {t₀ : Thread}

include hprogram

/-- The run comes to the reference with the start of the group set to the place where it began, and
the position one character on. -/
theorem trail_unclosed (hpc : t₀.pc = 0) (hpos : t₀.pos = k.position 0)
    (hregs : t₀.regs = Array.replicate 4 k.before) :
    ∃ past t, k.Trail t₀ past t ∧ t.pc = 2 ∧ t.pos = k.position 1 ∧ t.reg 2 = k.position 0 ∧
      t.reg 3 = k.before := by
  let t₁ := (t₀.setReg 2 (t₀.pos + k.bytes 0)).advance
  let t₂ : Thread := { t₁ with pos := t₁.pos + k.bytes 1, pc := t₁.pc + 1 }
  have h₁ : k.step t₀ = .next t₁ := by
    simp only [Task.step, hprogram, hpc]
    rfl
  have h₂ : k.step t₁ = .next t₂ := by
    have hpc₁ : t₁.pc = 1 := congrArg (· + 1) hpc
    simp only [Task.step, hprogram, hpc₁]
    rfl
  refine ⟨_, t₂, (Task.Trail.start.step h₁).step h₂, congrArg (· + 2) hpc, ?_, ?_, ?_⟩
  · have hone : k.bytes 1 = k.unit := by
      rw [Task.bytes, Task.unit, ← Int64.ofInt_eq_ofNat]
      exact congrArg Int64.ofInt (Int.one_mul _)
    change t₀.pos + k.bytes 1 = _
    rw [hpos, hone, Task.position_succ]
  · rw [← hpos]
    refine (t₀.reg_setReg_self _ (by simp [hregs])).trans ?_
    rw [Task.bytes_zero, Int64.add_zero]
  · refine (t₀.reg_setReg_of_ne _ (by decide)).trans ?_
    simp [Thread.reg, hregs]

end Run

/-- The characters of a text that begins with `a` are the same if the second is `a`, too. -/
theorem sameChars_pair {k : Task} (hmode : k.mode = .latin1) {c : UInt8}
    (hsubject : k.subject = .latin1 #[97, c]) :
    k.sameChars 1 (k.position 0) (k.position 1) = some (decide (97 = c)) := by
  have hmodes : k.subject.mode = k.mode := by
    rw [hsubject, hmode]
    rfl
  have hbytes : k.subject.byteSize ≤ Memory.maxBlock := by
    rw [hsubject]
    exact Nat.le_of_ble_eq_true rfl
  have hchar (i : Nat) (hi : i < #[97, c].size) :
      k.chars? (k.position i) 1 = some #[97, c][i].toUInt32 := by
    rw [Task.chars?_position hmodes hbytes (by rw [hsubject]; exact hi), hsubject, hmode]
    simp only [Mode.charSize, Nat.mul_one]
    exact Subject.wordAt?_latin1 hi
  have hfirst : k.chars? (k.position 0) 1 = some (97 : UInt8).toUInt32 :=
    hchar 0 Nat.two_pos
  have hsecond : k.chars? (k.position 1) 1 = some c.toUInt32 := hchar 1 Nat.one_lt_two
  simp only [Task.sameChars, hfirst, hsecond, Option.bind_eq_bind, Option.bind_some,
    UInt8.toUInt32_inj]
  split <;> simp_all

/-- A thread that has come to the reference, in a text of two characters that begins with `a`. -/
structure Referring (c : UInt8) (k : Task) (t : Thread) : Prop where
  /-- The encoding. -/
  mode : k.mode = .latin1
  /-- The subject. -/
  subject : k.subject = .latin1 #[97, c]
  /-- The reference is the next opcode. -/
  opcode : k.opcode? t = some (.checkNotBackReference 2 false (some ⟨0⟩))
  /-- It is the third one. -/
  pc : t.pc = 2
  /-- The place of its label. -/
  place : k.place? ⟨0⟩ = some 6
  /-- The position is before the second character. -/
  pos : t.pos = k.position 1
  /-- The group begins at the first one. -/
  start : t.reg 2 = k.position 0
  /-- It has no end. -/
  stop : t.reg 3 = k.before

namespace Referring

variable {c : UInt8} {k : Task} {t : Thread} (h : Referring c k t)

include h

theorem mode_eq : k.subject.mode = k.mode := by
  rw [h.subject, h.mode]
  rfl

theorem byteSize_lt : k.subject.byteSize < 2 ^ 62 := by
  rw [h.subject]
  change 2 < 2 ^ 62
  decide

theorem one_le_size : 1 ≤ k.subject.size := by
  rw [h.subject]
  change 1 ≤ 2
  decide

theorem step_eq : k.step t = k.perform (.checkNotBackReference 2 false (some ⟨0⟩)) t := by
  have hop : k.matcher.program.opcodes[t.pc]? = _ := h.opcode
  simp only [Task.step, hop]

end Referring

/-- A new engine comes to the reference with the group open. -/
theorem exists_referring (c : UInt8) :
    ∃ (e : Engine) (m : Matcher), e.Reachable {} ∧
      e.check ⟨0⟩ (.latin1 #[97, c]) 0 2 = .ok m ∧
      ∃ a ∈ e.tries ⟨0⟩ m (.latin1 #[97, c]) 0 #[7, 7], ∃ past t, a.Trail past t ∧
        Referring c a.task t := by
  obtain ⟨m, hm, hregs⟩ := exists_compile_unclosed
  obtain ⟨comp, hs⟩ := Compiled.shape_of_compile hm
  obtain ⟨e, he, hgap, hquiet, -, hcheck⟩ := exists_engine_of_compile hm
  have hmode : (Subject.latin1 #[97, c]).mode = m.options.mode := by
    rw [hs.options]
    rfl
  have hroom : nativeLimit e.gap e.config.nativeBudget < nativePointer m.object.registers := by
    rw [hgap, he.sane.config, hregs]
    decide
  have hbytes : (Subject.latin1 #[97, c]).byteSize ≤ Memory.maxBlock := by
    change 2 ≤ Memory.maxBlock
    decide
  let a := e.nextAttempt m (.latin1 #[97, c]) 0 .direct #[7, 7]
  have ha : a ∈ e.tries ⟨0⟩ m (.latin1 #[97, c]) 0 #[7, 7] := by
    rw [Engine.tries, Engine.history.eq_1]
    exact List.mem_cons_self
  have hb : a.begin = .next (a.task.afresh 0 a.entry) :=
    (Engine.begin_of_room #[7, 7] hmode hbytes (Nat.zero_le _) hquiet hroom).1
  have hprogram : a.task.matcher.program = unclosed := hs.program
  have hentry : (a.task.afresh 0 a.entry).pc = 0 := rfl
  obtain ⟨past, t, htrail, hpc, hpos, hstart, hstop⟩ :=
    trail_unclosed hprogram hentry rfl (congrArg (Array.replicate · _) hregs)
  refine ⟨e, m, he, hcheck _ 0 2 rfl (Nat.zero_le _) (Nat.le_refl 2), a, ha, past, t,
    ⟨_, hb, htrail⟩, hmode.symm, rfl, ?_, hpc, ?_, hpos, hstart, hstop⟩
  · rw [Task.opcode?, hprogram, hpc]
    rfl
  · have hplaces : a.task.places = unclosed.places := congrArg Program.places hs.program
    rw [Task.place?, hplaces]
    decide +kernel

end Sample

namespace Task

/-- On `aa` the reference to the open group moves on past the second character. -/
theorem backReference_of_unset_unclosed :
    ∃ (e : Engine) (m : Matcher), e.Reachable {} ∧
      e.check ⟨0⟩ (.latin1 #[97, 97]) 0 2 = .ok m ∧
      ∃ a ∈ e.tries ⟨0⟩ m (.latin1 #[97, 97]) 0 #[7, 7], ∃ past t, a.Trail past t ∧
        t.pos = a.task.position 1 ∧ t.reg 2 = a.task.position 0 ∧ t.reg 3 = a.task.before ∧
        a.task.step t = .next { t with pos := a.task.position 2, pc := 3 } := by
  obtain ⟨e, m, he, hcheck, a, ha, past, t, htrail, hr⟩ := Sample.exists_referring 97
  obtain ⟨hreference, -⟩ := (backReference_of_unset hr.mode_eq hr.byteSize_lt hr.one_le_size
    hr.pos 2 false false (some ⟨0⟩)).2.1 0 (Nat.zero_le _) hr.start hr.stop
  refine ⟨e, m, he, hcheck, a, ha, past, t, htrail, hr.pos, hr.start, hr.stop, ?_⟩
  rw [hr.step_eq, hreference]
  simp only [Bool.false_eq_true, if_false]
  rw [Sample.sameChars_pair hr.mode hr.subject]
  simp only [compared, decide_true, hr.pc]

/-- **A reference to an open group can fail.** On `ab` it branches, though only one end of the
group is set. -/
theorem branches_of_unclosed :
    ∃ (e : Engine) (m : Matcher), e.Reachable {} ∧
      e.check ⟨0⟩ (.latin1 #[97, 98]) 0 2 = .ok m ∧
      ∃ a ∈ e.tries ⟨0⟩ m (.latin1 #[97, 98]) 0 #[7, 7], ∃ past t, a.Trail past t ∧
        a.task.opcode? t = some (.checkNotBackReference 2 false (some ⟨0⟩)) ∧
        t.reg 3 = a.task.before ∧ a.task.step t = .next { t with pc := 6 } ∧
        a.task.step t ≠ .next t.advance := by
  obtain ⟨e, m, he, hcheck, a, ha, past, t, htrail, hr⟩ := Sample.exists_referring 98
  have hstep : a.task.step t = .next { t with pc := 6 } := by
    rw [hr.step_eq, (perform_of_open hr.mode_eq hr.byteSize_lt hr.one_le_size hr.pos false
      (Nat.zero_le _) hr.start hr.stop).1]
    simp only [Bool.false_eq_true, if_false]
    rw [Sample.sameChars_pair hr.mode hr.subject]
    simp only [compared, branch, jump, hr.place]
    rfl
  refine ⟨e, m, he, hcheck, a, ha, past, t, htrail, hr.opcode, hr.stop, hstep, fun hnext => ?_⟩
  have hpc := congrArg Thread.pc (Outcome.next.inj (hstep.symm.trans hnext))
  simp only [Thread.advance, hr.pc] at hpc
  omega

end Task

end NativeMatcher
