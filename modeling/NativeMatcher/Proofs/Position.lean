import Mathlib.Algebra.Group.Nat.Defs
import NativeMatcher.Proofs.Move

/-!
# Positions and indices

A thread counts bytes from the end of the subject; everything that is said to the outside
counts characters from its start. This file goes from the one to the other. The position of a
character index is `NativeMatcher.Task.position`; within a subject that fits into memory it is
the distance it is meant to be, so indices can be told from their positions
(`NativeMatcher.Task.position_inj`).

What follows is the part of starting over that has to find its way in the subject: after an
empty match the next try is one character on, and not between the halves of a surrogate pair.
Generated code looks at the two units around the place it is about to go to
(`NativeMatcher.Task.positionAfterEmpty`), a search from outside at the two units from the
match on (`NativeMatcher.Subject.step`). They agree
(`NativeMatcher.Task.positionAfterEmpty_position`).
-/

namespace NativeMatcher

/-! ### Reading a subject -/

namespace Subject

/-- Every byte of a subject can be read. -/
theorem exists_byteAt? {s : Subject} {i : Nat} (h : i < s.byteSize) :
    ∃ b, s.byteAt? i = some b := by
  rw [byteAt?_of_lt h]
  cases s with
  | latin1 bytes =>
    have hi : i < bytes.size := by simpa [byteSize, size, mode, Mode.charSize] using h
    exact ⟨bytes[i], by simp only [byte?, Array.getElem?_eq_getElem hi]⟩
  | uc16 units =>
    have hi : i / 2 < units.size := by
      have : i < units.size * 2 := by simpa [byteSize, size, mode, Mode.charSize] using h
      omega
    exact ⟨_, by simp only [byte?, Array.getElem?_eq_getElem hi, Option.map_some]; rfl⟩

/-- Every word up to the margin after a subject can be read. -/
theorem exists_wordAt?_of_le_margin {s : Subject} {count i : Nat}
    (h : i + count ≤ s.byteSize + margin) : ∃ w, s.wordAt? i count = some w := by
  induction count generalizing i with
  | zero => exact ⟨0, rfl⟩
  | succ n ih =>
    obtain ⟨b, hb⟩ : ∃ b, s.byteAt? i = some b := by
      rcases Nat.lt_or_ge i s.byteSize with hlt | hge
      · exact exists_byteAt? hlt
      · refine ⟨0, ?_⟩
        rw [byteAt?, if_neg (by omega), if_pos (by omega)]
    obtain ⟨w, hw⟩ := ih (i := i + 1) (by omega)
    refine ⟨b.toUInt32 + (w <<< 8), ?_⟩
    have hcast : ((i + 1 : Nat) : Int) = (i : Int) + 1 := rfl
    rw [hcast] at hw
    simp only [wordAt?, hb, hw]
    rfl

/-- Every word inside a subject can be read. -/
theorem exists_wordAt? {s : Subject} {count i : Nat} (h : i + count ≤ s.byteSize) :
    ∃ w, s.wordAt? i count = some w :=
  exists_wordAt?_of_le_margin (Nat.le_trans h (Nat.le_add_right _ _))

/-- The two bytes of a unit make up the unit. -/
theorem wordAt?_uc16 {units : Array UInt16} {i : Nat} (h : i < units.size) :
    (uc16 units).wordAt? (2 * i : Nat) 2 = some units[i].toUInt32 := by
  have hbytes : (uc16 units).byteSize = units.size * 2 := rfl
  have hlow : (uc16 units).byteAt? (2 * i : Nat) = some units[i].toUInt8 := by
    rw [byteAt?_of_lt (by omega)]
    have hdiv : 2 * i / 2 = i := by omega
    have hmod : 2 * i % 2 = 0 := by omega
    simp only [byte?, hdiv, hmod, Array.getElem?_eq_getElem h, Option.map_some, if_true]
  have hhigh : (uc16 units).byteAt? ((2 * i : Nat) + 1) = some (units[i] >>> 8).toUInt8 := by
    have hcast : ((2 * i : Nat) : Int) + 1 = ((2 * i + 1 : Nat) : Int) := rfl
    rw [hcast, byteAt?_of_lt (by omega)]
    have hdiv : (2 * i + 1) / 2 = i := by omega
    have hmod : (2 * i + 1) % 2 ≠ 0 := by omega
    simp only [byte?, hdiv, if_neg hmod, Array.getElem?_eq_getElem h, Option.map_some]
  have hword : units[i].toUInt8.toUInt32 +
      (((units[i] >>> 8).toUInt8.toUInt32 + ((0 : UInt32) <<< 8)) <<< 8) = units[i].toUInt32 := by
    apply UInt32.toNat_inj.mp
    have := units[i].toNat_lt
    simp [Nat.shiftRight_eq_div_pow, Nat.shiftLeft_eq]
    omega
  rw [← hword]
  simp only [wordAt?, hlow, hhigh]
  rfl

/-- The index at which a search goes on after a match: at its end, or one character on if it
is empty. -/
def indexAfter (s : Subject) (unicode : Bool) (first stop : Nat) : Nat :=
  if stop = first then s.step stop unicode else stop

/-- A search goes on. -/
theorem lt_indexAfter {s : Subject} {unicode : Bool} {first stop : Nat} (h : first ≤ stop) :
    first < s.indexAfter unicode first stop := by
  unfold indexAfter
  split
  · next heq => exact heq ▸ s.lt_step stop unicode
  · omega

/-- One character on from inside a subject is not past its end. -/
theorem step_le {s : Subject} {j : Nat} (h : j < s.size) (unicode : Bool) :
    s.step j unicode ≤ s.size := by
  cases s with
  | latin1 bytes => exact h
  | uc16 units =>
    simp only [step]
    split
    · next hpair =>
      rcases Nat.lt_or_ge (j + 1) units.size with hlt | hge
      · exact hlt
      · rw [Array.getElem?_eq_none hge] at hpair
        simp at hpair
    · exact h

end Subject

/-! ### Characters in bytes -/

theorem mul_charSize_bounds (count : Int32) (mode : Mode) :
    -4294967296 ≤ count.toInt * mode.charSize ∧ count.toInt * mode.charSize < 4294967296 := by
  have hlow := count.le_toInt
  have hhigh := count.toInt_lt
  cases mode <;> simp only [Mode.charSize] <;> omega

theorem Task.toInt_bytes (k : Task) (count : Int32) :
    (k.bytes count).toInt = count.toInt * k.mode.charSize := by
  obtain ⟨hlow, hhigh⟩ := mul_charSize_bounds count k.mode
  rw [Task.bytes, Int64.toInt_ofInt_of_le (by omega) (by omega)]

theorem Task.bytes_zero (k : Task) : k.bytes 0 = 0 := by
  rw [Task.bytes, Int32.toInt_zero, Int.zero_mul]
  rfl

theorem Task.toInt_unit (k : Task) : k.unit.toInt = k.mode.charSize := by
  rw [Task.unit]
  cases k.mode <;> rfl

theorem Mode.charSize_le (mode : Mode) : mode.charSize ≤ 2 := by
  cases mode <;> decide

/-! ### Positions -/

namespace Task

variable (k : Task)

/-- The position of a character index. -/
def position (i : Nat) : Int64 := Int64.ofNat (i * k.mode.charSize) - k.length

/-- The character before a position, a line feed at the start of the subject. -/
def charBefore? (pos : Int64) : Option UInt32 :=
  if pos - k.unit = k.before then some 10 else k.chars? (pos - k.unit) 1

/-- A start depends on the subject through the character before the position, and resets everything
that a match has of its own. -/
theorem restart_eq_charBefore? (t : Thread) :
    k.restart t = match k.charBefore? t.pos with
      | none => .stray
      | some c => .next { t with
          char := c
          regs := Array.replicate k.matcher.object.registers k.before
          pc := 0 } := rfl

/-- The thread that tries anew from character `i` on. -/
def afresh (i : Nat) (t : Thread) : Thread :=
  { t with
    pos := k.position i
    char := (k.charBefore? (k.position i)).getD 0
    regs := Array.replicate k.matcher.object.registers k.before
    pc := 0 }

variable {k} {i j : Nat}

theorem SameCode.position_eq {k' : Task} (h : SameCode k k') : k.position = k'.position := by
  funext i
  rw [position, position, h.mode, h.length_eq]

theorem SameCode.charBefore?_eq {k' : Task} (h : SameCode k k') :
    k.charBefore? = k'.charBefore? := by
  funext pos
  rw [charBefore?, charBefore?, h.unit_eq, h.before_eq, h.chars?_eq]

theorem position_succ : k.position (i + 1) = k.position i + k.unit := by
  simp only [position, unit, Nat.succ_mul, Int64.ofNat_add]
  rw [Int64.sub_eq_add_neg, Int64.sub_eq_add_neg, Int64.add_assoc,
    Int64.add_comm (Int64.ofNat _) (-k.length), ← Int64.add_assoc]

/-- A shift to the right by one halves a word. -/
theorem toInt_shiftRight_one (y : Int64) : (y >>> 1).toInt = y.toInt / 2 := by
  have hone : ((1 : Int64).toBitVec.smod 64).toNat = 1 := by decide
  rw [← Int64.toInt_toBitVec, Int64.toBitVec_shiftRight, BitVec.sshiftRight', hone,
    BitVec.toInt_sshiftRight, Int.shiftRight_eq_div_pow, Int64.toInt_toBitVec]
  rfl

/-- In a subject of fewer than `2 ^ 31` characters every index is reported as what it is. -/
theorem toInt_captureIndex_position (hsize : k.subject.size < 2 ^ 31) (hi : i ≤ k.subject.size) :
    (k.captureIndex (k.position i)).toInt = i := by
  have hbyte : k.position i + k.length = Int64.ofNat (i * k.mode.charSize) := by
    rw [position, Int64.sub_add_cancel]
  simp only [captureIndex, hbyte]
  cases hm : k.mode with
  | latin1 =>
    simp only [Mode.charSize, Nat.mul_one]
    rw [Int64.toInt_toInt32, Int64.toInt_ofNat_of_lt (by omega),
      Int.bmod_eq_of_le (by omega) (by omega)]
  | uc16 =>
    have hshift : (Int64.ofNat (i * 2) >>> 1).toInt = i := by
      rw [toInt_shiftRight_one, Int64.toInt_ofNat_of_lt (by omega)]
      omega
    simp only [Mode.charSize]
    rw [Int64.toInt_toInt32, hshift, Int.bmod_eq_of_le (by omega) (by omega)]

section Within

variable (hmode : k.subject.mode = k.mode) (hbytes : k.subject.byteSize ≤ Memory.maxBlock)

include hmode hbytes

/-- The position of a character as a number: its distance from the end, which no subject makes too
large for a word. -/
theorem toInt_position (hi : i ≤ k.subject.size) :
    (k.position i).toInt = (i * k.mode.charSize : Nat) - (k.subject.byteSize : Int) := by
  have hmax : Memory.maxBlock = 9223372036854775807 := rfl
  have hle : i * k.mode.charSize ≤ k.subject.byteSize := by
    rw [Subject.byteSize, hmode]
    exact Nat.mul_le_mul_right _ hi
  rw [position, Int64.toInt_sub, length, Int64.toInt_ofNat_of_lt (by omega),
    Int64.toInt_ofNat_of_lt (by omega), Int.bmod_eq_of_le (by omega) (by omega)]

/-- **An index can be told from its position.** Positions are machine words, counted in bytes from
the end; up to the size of the subject they do not wrap around. -/
theorem position_inj (hi : i ≤ k.subject.size) (hj : j ≤ k.subject.size) :
    k.position i = k.position j ↔ i = j := by
  constructor
  · intro h
    have hint := congrArg Int64.toInt h
    rw [toInt_position hmode hbytes hi, toInt_position hmode hbytes hj] at hint
    have hmul : i * k.mode.charSize = j * k.mode.charSize := by omega
    exact Nat.eq_of_mul_eq_mul_right k.mode.charSize_pos hmul
  · rintro rfl
    rfl

theorem position_eq_zero_iff (hi : i ≤ k.subject.size) :
    k.position i = 0 ↔ i = k.subject.size := by
  have hzero : k.position k.subject.size = 0 := by
    rw [position, length, Subject.byteSize, hmode, Int64.sub_self]
  rw [← hzero]
  exact position_inj hmode hbytes hi (Nat.le_refl _)

/-- Every character can be read at its position. -/
theorem chars?_position (hi : i < k.subject.size) :
    k.chars? (k.position i) 1 = k.subject.wordAt? (i * k.mode.charSize : Nat) k.mode.charSize := by
  rw [chars?, Subject.wordFromEnd?, toInt_position hmode hbytes (Nat.le_of_lt hi), Nat.one_mul]
  congr 1
  omega

theorem exists_chars?_position (hi : i < k.subject.size) :
    ∃ w, k.chars? (k.position i) 1 = some w := by
  rw [chars?_position hmode hbytes hi]
  refine Subject.exists_wordAt? ?_
  rw [Subject.byteSize, hmode, ← Nat.succ_mul]
  exact Nat.mul_le_mul_right _ hi

/-- There is a character before every position. -/
theorem exists_charBefore?_position (hi : i ≤ k.subject.size) :
    ∃ c, k.charBefore? (k.position i) = some c := by
  unfold charBefore?
  split
  · exact ⟨10, rfl⟩
  · next hne =>
    cases i with
    | zero =>
      refine absurd ?_ hne
      rw [position, Nat.zero_mul, before]
      rfl
    | succ i =>
      rw [position_succ, Int64.add_sub_cancel]
      exact exists_chars?_position hmode hbytes hi

/-- A start at an index tries anew from there. -/
theorem restart_position {t : Thread} (hi : i ≤ k.subject.size) (hpos : t.pos = k.position i) :
    k.restart t = .next (k.afresh i t) := by
  obtain ⟨c, hc⟩ := exists_charBefore?_position hmode hbytes hi
  simp only [restart_eq_charBefore?, hpos, hc, afresh, Option.getD_some]

/-- The test for a surrogate pair around an index inside a subject. The code looks at the units
before and behind the place. At the end of the subject there is none behind, and it does not
look. -/
theorem splitsPair_position {units : Array UInt16} (hunits : k.subject = .uc16 units)
    (hj : j < k.subject.size) :
    k.splitsPair (k.position (j + 1)) =
      some ((units[j]?.map Text.isLead).getD false &&
        (units[j + 1]?.map Text.isTrail).getD false) := by
  have hsize : k.subject.size = units.size := by
    rw [hunits]
    rfl
  have hcs : k.mode.charSize = 2 := by
    rw [← hmode, hunits]
    rfl
  -- Generated code reads words of two bytes, the subject has code units.
  have hread : ∀ i (hi : i < units.size), ∃ w, k.chars? (k.position i) 1 = some w ∧
      w.toUInt16 = units[i] := by
    intro i hi
    refine ⟨units[i].toUInt32, ?_, UInt16.toUInt16_toUInt32 _⟩
    rw [chars?_position hmode hbytes (by omega), hcs, hunits, Nat.mul_comm]
    exact Subject.wordAt?_uc16 hi
  have hint := toInt_position hmode hbytes (i := j + 1) (by omega)
  have hbsize : k.subject.byteSize = k.subject.size * 2 := by
    rw [Subject.byteSize, hmode, hcs]
  rw [hcs, hbsize] at hint
  have hnonneg : 0 ≤ k.position (j + 1) ↔ k.subject.size ≤ j + 1 := by
    rw [Int64.le_iff_toInt_le, hint, Int64.toInt_zero]
    omega
  unfold splitsPair
  by_cases hend : k.subject.size ≤ j + 1
  · -- At the end there is no trailing half.
    have hnone : units[j + 1]? = none := Array.getElem?_eq_none (by omega)
    rw [if_pos (hnonneg.mpr hend), hnone]
    simp only [Option.map_none, Option.getD_none, Bool.and_false]
  · obtain ⟨lead, hlead, hleadeq⟩ := hread j (by omega)
    obtain ⟨trail, htrail, htraileq⟩ := hread (j + 1) (by omega)
    rw [if_neg (fun hcon => hend (hnonneg.mp hcon)), position_succ, Int64.add_sub_cancel, hlead,
      ← position_succ, htrail, Array.getElem?_eq_getElem (by omega),
      Array.getElem?_eq_getElem (by omega)]
    simp only [Option.bind_eq_bind, Option.bind_some, hleadeq, htraileq, Option.map_some,
      Option.getD_some, Option.pure_def]
    cases Text.isLead units[j] <;> rfl

/-- **After an empty match generated code goes on where a search from outside does.** In unicode
mode that is one code point farther on, which both find by looking at the two units around the
place. -/
theorem positionAfterEmpty_position (hj : j < k.subject.size) :
    k.positionAfterEmpty (k.position j) = some (k.position
      (k.subject.step j (k.matcher.options.globalMode = .unicode))) := by
  unfold positionAfterEmpty
  simp only [← position_succ]
  cases hs : k.subject with
  | latin1 bytes =>
    have hlatin : k.mode ≠ .uc16 := by
      rw [← hmode, hs]
      intro hcon
      cases hcon
    rw [if_neg (fun hcon => hlatin hcon.2)]
    rfl
  | uc16 units =>
    have huc : k.mode = .uc16 := by
      rw [← hmode, hs]
      rfl
    by_cases hunicode : k.matcher.options.globalMode = .unicode
    · rw [if_pos ⟨hunicode, huc⟩, splitsPair_position hmode hbytes hs hj, Subject.step]
      simp only [hunicode, decide_true, Bool.true_and, Option.bind_eq_bind, Option.bind_some]
      split <;> rfl
    · rw [if_neg (fun hcon => hunicode hcon.1), Subject.step]
      simp only [hunicode, decide_false, Bool.false_and, Bool.false_eq_true, if_false]

/-- **Starting over after a match from index `i` to index `j`** is a new try from the index
after it, or the end if that lies past the subject. -/
theorem startOver_position {t : Thread} {next : Nat} (hij : i ≤ j) (hj : j ≤ k.subject.size)
    (hpos : t.pos = k.position j)
    (hglobal : k.matcher.options.globalMode.checksZeroLength = true)
    (hnext : k.subject.indexAfter (k.matcher.options.globalMode = .unicode) i j = next) :
    k.startOver (k.position i) t =
      if k.subject.size < next then k.exit t else .next (k.afresh next t) := by
  have hi : i ≤ k.subject.size := Nat.le_trans hij hj
  simp only [startOver, hglobal, Bool.true_and, hpos, beq_iff_eq]
  unfold Subject.indexAfter at hnext
  by_cases heq : j = i
  · -- An empty match: the end of the subject is position zero, and there is no character there
    -- to step over.
    rw [if_pos heq] at hnext
    rw [if_pos (congrArg k.position heq)]
    rcases Nat.lt_or_ge j k.subject.size with hlt | hge
    · have hne : k.position j ≠ 0 := by
        rw [Ne, position_eq_zero_iff hmode hbytes hj]
        omega
      have hstep := Subject.step_le hlt (k.matcher.options.globalMode = .unicode)
      rw [if_neg hne, positionAfterEmpty_position hmode hbytes hlt, hnext, if_neg (by omega)]
      exact restart_position hmode hbytes (by omega) rfl
    · have hzero : k.position j = 0 :=
        (position_eq_zero_iff hmode hbytes hj).mpr (Nat.le_antisymm hj hge)
      have hstep := k.subject.lt_step j (k.matcher.options.globalMode = .unicode)
      rw [if_pos hzero, if_pos (by omega)]
  · rw [if_neg heq] at hnext
    have hne : k.position j ≠ k.position i := by
      rw [Ne, position_inj hmode hbytes hj hi]
      exact heq
    rw [if_neg hne, if_neg (by omega), ← hnext]
    exact restart_position hmode hbytes hj hpos

end Within

end Task

end NativeMatcher
