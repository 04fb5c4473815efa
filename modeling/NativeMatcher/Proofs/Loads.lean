import NativeMatcher.Proofs.Emission
import NativeMatcher.Proofs.Lowering
import NativeMatcher.Proofs.Recorded

/-!
# Checked loads

A load takes in one, two or four characters at once, from a place relative to the position. A
checked one first makes sure that they lie in the subject, with a single comparison: a load that
goes on is tested at its last character, since its first one cannot lie before the subject, and one
that goes back at its first character.

The second half is right only for loads of one character. A load that begins before the position
and reaches past the end of the subject *overhangs* (`NativeMatcher.Task.Overhangs`); its test
succeeds, and it reads what lies beside the subject. For all the others the test says exactly
whether the characters lie in the subject (`NativeMatcher.Task.placeHolds_last_iff`). What this
means for a thread and for its machine is `NativeMatcher.Assembler.checkedLoad_of_emit`, for a whole
match `NativeMatcher.Engine.exec_of_overhanging_load`.
-/

namespace NativeMatcher

open Assembly Code X64 X64.Machine

namespace Task

/-! ### Loads by index -/

/-- The `count` characters from `o` characters after index `p` on all lie in the subject. -/
def Covered (k : Task) (p : Nat) (o : Int32) (count : Nat) : Prop :=
  0 ≤ p + o.toInt ∧ p + o.toInt + count ≤ k.subject.size

/-- They begin in the subject, before index `p`, and do not all lie in it. -/
def Overhangs (k : Task) (p : Nat) (o : Int32) (count : Nat) : Prop :=
  o.toInt < 0 ∧ 0 ≤ p + o.toInt ∧ k.subject.size < p + o.toInt + count

instance (k : Task) (p : Nat) (o : Int32) (count : Nat) : Decidable (k.Covered p o count) :=
  inferInstanceAs (Decidable (_ ∧ _))

instance (k : Task) (p : Nat) (o : Int32) (count : Nat) : Decidable (k.Overhangs p o count) :=
  inferInstanceAs (Decidable (_ ∧ _))

variable {k : Task} {t : Thread} {p : Nat} {o last : Int32} {count : Nat} {dest : Target}

/-- What a checked load tests is its last character if it goes on and its first one if it goes
back. -/
theorem lastOffset_of_ok (hcount : count < 2 ^ 31)
    (hlast : Assembly.lastOffset o count = .ok last) :
    last = lastOffset o count ∧
      last.toInt = if 0 ≤ o.toInt then o.toInt + count - 1 else o.toInt := by
  have hzero : 0 ≤ o ↔ 0 ≤ o.toInt := Int32.le_iff_toInt_le
  have hn : (Int32.ofNat count).toInt = count := Int32.toInt_ofNat_of_lt hcount
  have hone : (1 : Int32).toInt = 1 := rfl
  unfold Assembly.lastOffset at hlast
  unfold lastOffset
  split at hlast
  · next ho =>
    obtain ⟨sum, hsum, hlast⟩ := Assembler.bind_eq_ok.mp hlast
    obtain ⟨⟨hlow, hhigh⟩, rfl⟩ := Checked.word_eq_ok_iff.mp hsum
    obtain ⟨⟨hlow', hhigh'⟩, rfl⟩ := Checked.word_eq_ok_iff.mp hlast
    have hsum : (Int32.ofInt (o.toInt + (Int32.ofNat count).toInt)).toInt = o.toInt + count := by
      rw [hn] at hlow hhigh ⊢
      exact Int32.toInt_ofInt_of_le (by omega) (by omega)
    rw [if_pos ho, if_pos (hzero.mp ho)]
    constructor
    · simp only [Int32.ofInt_sub, Int32.ofInt_add, Int32.ofInt_toInt]
    · rw [hsum, hone] at hlow' hhigh' ⊢
      exact Int32.toInt_ofInt_of_le (by omega) (by omega)
  · next ho =>
    obtain rfl := Except.ok.inj hlast
    rw [if_neg ho, if_neg (fun h => ho (hzero.mpr h))]
    exact ⟨rfl, rfl⟩

section Within

variable (hmode : k.subject.mode = k.mode) (hbytes : k.subject.byteSize < 2 ^ 62)
  (hp : p ≤ k.subject.size) (hpos : t.pos = k.position p)

include hmode hbytes hp hpos

/-- How far a place relative to an index is from the end of the subject. -/
theorem distance_eq : k.distance t o = (p + o.toInt - k.subject.size) * k.mode.charSize := by
  have hmax : Memory.maxBlock = 9223372036854775807 := rfl
  rw [distance, hpos, toInt_position hmode (by omega) hp, Subject.byteSize, hmode]
  cases k.mode <;> simp only [Mode.charSize] <;> omega

/-- At a position of the subject the address of a load is computed without wrapping around. -/
theorem toInt_pos_add : (t.pos + k.bytes o).toInt = k.distance t o := by
  have hmax : Memory.maxBlock = 9223372036854775807 := rfl
  obtain ⟨hlow, hhigh⟩ := mul_charSize_bounds o k.mode
  have hint := toInt_position hmode (by omega) hp
  have hle : p * k.mode.charSize ≤ k.subject.byteSize := by
    rw [Subject.byteSize, hmode]
    exact Nat.mul_le_mul_right _ hp
  rw [distance, Int64.toInt_add, toInt_bytes, hpos, hint, Int.bmod_eq_of_le (by omega) (by omega)]

/-- The test of a checked load fails on the loads that lie in the subject, and on those that
overhang. -/
theorem placeHolds_last_iff (hpositive : 1 ≤ count) (hcount : count < 2 ^ 31)
    (hlast : Assembly.lastOffset o count = .ok last) :
    k.placeHolds t (.outside last) = true ↔ ¬k.Covered p o count ∧ ¬k.Overhangs p o count := by
  obtain ⟨-, hint⟩ := lastOffset_of_ok hcount hlast
  have hsize : k.subject.byteSize = k.subject.size * k.mode.charSize := by
    rw [Subject.byteSize, hmode]
  rw [← met_outside_iff hbytes hmode hp hpos, PlaceTest.Met, distance_eq hmode hbytes hp hpos,
    hsize, hint]
  unfold Covered Overhangs
  cases k.mode <;> simp only [Mode.charSize] <;> split <;> omega

/-- Where a load reads, in bytes from the start of the subject. -/
theorem chars?_pos_add :
    k.chars? (t.pos + k.bytes o) count =
      k.subject.wordAt? ((p + o.toInt) * k.mode.charSize) (count * k.mode.charSize) := by
  rw [chars?, Subject.wordFromEnd?, toInt_pos_add hmode hbytes hp hpos,
    distance_eq hmode hbytes hp hpos]
  congr 1
  rw [Subject.byteSize, hmode, Int.sub_mul]
  omega

/-- A load that lies in the subject finds its characters there. -/
theorem inside_of_covered (hcovered : k.Covered p o count) :
    k.Inside (t.pos + k.bytes o) count := by
  obtain ⟨hlow, hhigh⟩ := hcovered
  rw [Inside, toInt_pos_add hmode hbytes hp hpos, distance_eq hmode hbytes hp hpos,
    Subject.byteSize, hmode]
  cases k.mode <;> simp only [Mode.charSize] <;> omega

/-- What overhangs is read from beside the subject. -/
theorem exists_chars?_of_overhangs (hwidth : count * k.mode.charSize ≤ Subject.margin)
    (hover : k.Overhangs p o count) : ∃ c, k.chars? (t.pos + k.bytes o) count = some c := by
  obtain ⟨hneg, hnonneg, -⟩ := hover
  have hfirst : (p + o.toInt) * k.mode.charSize =
      ((p + o.toInt).toNat * k.mode.charSize : Nat) := by
    rw [Int.natCast_mul, Int.toNat_of_nonneg hnonneg]
  rw [chars?_pos_add hmode hbytes hp hpos, hfirst]
  refine Subject.exists_wordAt?_of_le_margin ?_
  have hbefore : (p + o.toInt).toNat ≤ k.subject.size := by omega
  have hle := Nat.mul_le_mul_right k.mode.charSize hbefore
  rw [Subject.byteSize, hmode]
  omega

end Within

end Task

/-! ### The code of a checked load -/

namespace Assembler

variable {a b : Assembler}

/-- An execution of the code of an opcode comes to an exit. -/
def Runs (a : Assembler) (offset : Label → UInt32) (op : Opcode) (m : Machine) (e : Exit) : Prop :=
  ∃ fuel, execute offset (a.opItems op) fuel 0 m = e

theorem mode_placeBlock {bl : Block} (h : a.placeBlock bl = .ok b) : b.mode = a.mode := by
  obtain ⟨registers, error, tables, lists, hnote⟩ := note_eq a bl
  have hmode := (sameShape_placeAll (show (a.note bl).placeAll bl.items = .ok b from h)).mode
  rw [hnote] at hmode
  exact hmode

/-- A checked load is emitted as a test of a place and a load. The test looks at one place only,
although there may be four characters to load; which one is what the theorem about checked loads
turns on. -/
theorem exists_items_of_load {o : Int32} {dest : Target} {count : Nat}
    (hemit : a.emit (.load o dest true count) = .ok b) (herror : b.error = none) :
    ∃ last bl disp i, Assembly.lastOffset o count = .ok last ∧
      lowerPlace a.mode dest (.outside last) = .ok bl ∧ scale a.mode o = .ok disp ∧
      loadChars? a.mode disp count = some i ∧
      a.opItems (.load o dest true count) = bl.items ++ [Item.instr i] := by
  obtain ⟨ops, hstages, hemit⟩ := bind_eq_ok.mp (show (stages (.load o dest true count) >>=
    a.emitStages) = .ok b from hemit)
  obtain ⟨last, hlast, hops⟩ := bind_eq_ok.mp hstages
  obtain rfl := Except.ok.inj hops
  obtain ⟨c, hc, hemit⟩ := bind_eq_ok.mp hemit
  obtain ⟨d, hd, hemit⟩ := bind_eq_ok.mp hemit
  obtain rfl := Except.ok.inj hemit
  obtain ⟨bl, hbl, hplace⟩ := bind_eq_ok.mp (show (lowerPlace a.mode dest (.outside last) >>=
    a.placeBlock) = .ok c from hc)
  obtain ⟨bl', hbl', hplace'⟩ := bind_eq_ok.mp (show (lower c.mode c.labels.size c.nextTable
    c.isBound (.load o dest false count) >>= c.placeBlock) = .ok d from hd)
  obtain ⟨hnone, -⟩ := of_placeBlock hplace' herror
  obtain ⟨disp, hdisp, hload⟩ := bind_eq_ok.mp hbl'
  rw [mode_placeBlock hplace] at hdisp hload
  have hitems : a.opItems (.load o dest true count) = bl.items ++ bl'.items := by
    have hrefuses : a.refuses (.load o dest true count) = false := rfl
    have hfirst : a.stageItems (.onPlace (.outside last) dest) = bl.items := by
      simp only [stageItems, lower, hbl]
    have hsecond : c.stageItems (.load o dest false count) = bl'.items := by
      simp only [stageItems, hbl']
    simp only [opItems, hrefuses, Bool.false_eq_true, if_false, hstages, stagesItems, hfirst, hc,
      hsecond, hd, List.append_nil]
  cases hi : loadChars? a.mode disp count with
  | none =>
    rw [hi] at hload
    obtain rfl := Except.ok.inj hload
    cases hnone
  | some i =>
    rw [hi] at hload
    obtain rfl := Except.ok.inj hload
    exact ⟨last, bl, disp, i, hlast, hbl, hdisp, hi, hitems⟩

end Assembler

/-- A load takes in four bytes at most. -/
theorem width_of_loadChars? {mode : Mode} {disp : Int32} {count : Nat} {i : Instr}
    (hi : loadChars? mode disp count = some i) :
    1 ≤ count ∧ count ≤ 4 ∧ count * mode.charSize ≤ Subject.margin := by
  unfold loadChars? at hi
  split at hi
  all_goals first | decide | cases hi

section Code

variable (offset : Label → UInt32) {k : Task} {t : Thread} {m : Machine} {o last : Int32}
  {count : Nat} {dest : Target} {bl : Block} {disp : Int32} {i : Instr}
  (h : Represents k t m) (hbl : lowerPlace k.mode dest (.outside last) = .ok bl)
  (hi : loadChars? k.mode disp count = some i)

include h hbl hi

/-- A test of a place and a load: if the test holds control leaves before the load, and past it
otherwise. -/
theorem execute_checkedLoad :
    ∃ m₁, Agrees m m₁ ∧ ∃ fuel,
      execute offset (bl.items ++ [Item.instr i]) fuel 0 m =
        if k.placeHolds t (.outside last) then .jump (targetLabel dest) m₁
        else .past (after i m₁) := by
  obtain ⟨is, c, hitems, hquiet, hc⟩ := exists_outsideTest h hbl
  have htransfers := transfers_loadChars hi
  have hlist : bl.items ++ [Item.instr i] =
      (is.map Item.instr ++ [branchTo c dest, .instr i]) ++ closing none := by
    rw [hitems, List.append_assoc]
    exact (List.append_nil _).symm
  refine ⟨afterAll is m, agrees_afterAll is hquiet, ?_⟩
  have hsteps : (is.map Item.instr ++ [branchTo c dest, .instr i]).all Item.isStep = true := by
    rw [List.all_append, List.all_map, Bool.and_eq_true]
    refine ⟨List.all_eq_true.mpr fun j hj => ?_, by simp [branchTo, Item.isStep, htransfers]⟩
    have hj := List.all_eq_true.mp hquiet j hj
    simp [Item.isStep, transfers_of_isQuiet hj]
  obtain ⟨fuel, hwalk⟩ := exists_execute_eq_walk offset m hlist hsteps
  refine ⟨fuel, hwalk.trans ?_⟩
  rw [walk_instrs]
  cases hholds : k.placeHolds t (.outside last) with
  | true => simp [branchTo, walk, hc, hholds]
  | false => simp [branchTo, walk, hc, hholds]

end Code

/-- The word of the `count` characters in memory from index `i` of a subject on. -/
def X64.Machine.charsAt (m : Machine) (s : Subject) (i count : Nat) : UInt32 :=
  UInt32.ofNat (ofBytes (m.bytesAt (m.subjectAddress s.byteSize (i * s.mode.charSize))
    (count * s.mode.charSize)))

/-- **What a checked load does, and its code.** If its characters all lie in the subject, it goes on
with them. Otherwise it leaves for its target, and the machine is as it was – unless it overhangs:
then it goes on with what it finds at the end of the subject and beside it. -/
theorem Assembler.checkedLoad_of_emit {a b : Assembler} (offset : Label → UInt32)
    {f : Label → Label} (o : Int32) (dest : Target) (count : Nat) {k : Task} {t : Thread}
    {m : Machine}
    (hemit : a.emit ((Opcode.load o dest true count).mapLabels f) = .ok b)
    (herror : b.error = none) (hmode : k.mode = a.mode) (hsubject : k.subject.mode = k.mode)
    (h : Represents k t m) {p : Nat} (hp : p ≤ k.subject.size) (hpos : t.pos = k.position p) :
    (k.Covered p o count → ∃ c m',
      k.subject.wordAt? ((p + o.toInt) * k.mode.charSize) (count * k.mode.charSize) = some c ∧
      k.perform (.load o dest true count) t = .next { t with char := c, pc := t.pc + 1 } ∧
      a.Runs offset (.load o (dest.map f) true count) m (.past m') ∧
      Represents k { t with char := c, pc := t.pc + 1 } m' ∧ Spares t.regs.size m m') ∧
    (¬k.Covered p o count → ¬k.Overhangs p o count → ∃ m',
      k.perform (.load o dest true count) t = k.branch dest t ∧
      a.Runs offset (.load o (dest.map f) true count) m
        (.jump (targetLabel (dest.map f)) m') ∧ Agrees m m') ∧
    (k.Overhangs p o count → ∃ c m',
      k.perform (.load o dest true count) t = .next { t with char := c, pc := t.pc + 1 } ∧
      a.Runs offset (.load o (dest.map f) true count) m (.past m') ∧
      Spares t.regs.size m m' ∧
      m'.regs chr = (m.charsAt k.subject (p + o.toInt).toNat count).toUInt64) := by
  have hbytes := h.byteSize
  obtain ⟨last, bl, disp, i, hlast, hbl, hdisp, hi, hitems⟩ := exists_items_of_load hemit herror
  rw [← hmode] at hbl hdisp hi
  obtain ⟨hcount, hle, hwidth⟩ := width_of_loadChars? hi
  have htest := Task.placeHolds_last_iff hsubject hbytes hp hpos hcount (by omega) hlast
  obtain ⟨hlastEq, -⟩ := Task.lastOffset_of_ok (by omega) hlast
  obtain ⟨m₁, hm₁, hrun⟩ := execute_checkedLoad offset h hbl hi
  rw [← hitems] at hrun
  have hdisp := toInt64_of_scale rfl hdisp
  have hperform : k.perform (.load o dest true count) t =
      if k.placeHolds t (.outside last) then k.branch dest t else k.load o count t := by
    simp only [Task.perform, Bool.true_and, hlastEq]
  refine ⟨fun hcovered => ?_, fun hout hover => ?_, fun hover => ?_⟩
  · have hfails : k.placeHolds t (.outside last) = false :=
      Bool.eq_false_iff.mpr fun hcon => (htest.mp hcon).1 hcovered
    have hinside := Task.inside_of_covered hsubject hbytes hp hpos hcovered
    rw [← hdisp] at hinside
    obtain ⟨c, hc, hafter⟩ := after_loadChars (h.of_agrees hm₁ t.pc) hi hinside
    obtain ⟨hr, hs⟩ := (h.of_agrees hm₁ t.pc).setChar c (t.pc + 1)
    rw [← hafter] at hr hs
    rw [hdisp] at hc
    simp only [hfails, Bool.false_eq_true, if_false] at hrun hperform
    refine ⟨c, _, ?_, ?_, hrun, hr, Spares.trans (.of_agrees hm₁) hs⟩
    · rw [← Task.chars?_pos_add hsubject hbytes hp hpos]
      exact hc
    · simp only [hperform, Task.load, hc]
  · have hholds := htest.mpr ⟨hout, hover⟩
    simp only [hholds, if_true] at hrun hperform
    exact ⟨m₁, hperform, hrun, hm₁⟩
  · have hfails : k.placeHolds t (.outside last) = false :=
      Bool.eq_false_iff.mpr fun hcon => (htest.mp hcon).2 hover
    simp only [hfails, Bool.false_eq_true, if_false] at hrun hperform
    have hr := h.of_agrees hm₁ t.pc
    have hplace : (k.subject.byteSize : Int) + (t.pos + disp.toInt64).toInt =
        ((p + o.toInt).toNat * k.subject.mode.charSize : Nat) := by
      rw [hdisp, Task.toInt_pos_add hsubject hbytes hp hpos,
        Task.distance_eq hsubject hbytes hp hpos, Subject.byteSize, hsubject]
      have hnonneg := hover.2.1
      cases k.mode <;> simp only [Mode.charSize] <;> omega
    have hafter := after_loadChars_eq (m := m₁) hi
    rw [address_loadChars hr, subjectAddress_eq hplace] at hafter
    obtain ⟨c, hc⟩ := Task.exists_chars?_of_overhangs hsubject hbytes hp hpos hwidth hover
    refine ⟨c, _, ?_, hrun, Spares.trans (.of_agrees hm₁) ?_, ?_⟩
    · simp only [hperform, Task.load, hc]
    · rw [hafter]
      exact .of_mem_eq rfl fun r _ _ _ hr => m₁.regs_setReg_of_ne hr
    · rw [hafter, regs_setReg_self, trunc_char, charsAt, subjectAddress, subjectAddress, hsubject,
        hm₁.regs inputEnd (by decide) (by decide)]
      exact congrArg (fun bs => (UInt32.ofNat (ofBytes bs)).toUInt64)
        (bytesAt_congr fun _ _ => by rw [hm₁.mem])

/-! ### Loads of two characters -/

/-- Before the second of two characters, a load of two leaves for the backtrack routine, unless it
begins with the first. -/
theorem Assembler.checkedLoad_of_emit_pair :
    (∃ a m', Assembler.new .latin1 2 Sample.heap = .ok a ∧
      a.Runs (fun _ => 0) (.load 0 none true 2) Sample.machine
        (.jump Reserved.backtrack.label m')) ∧
    ∃ a m', Assembler.new .latin1 2 Sample.heap = .ok a ∧
      a.Runs (fun _ => 0) (.load (-1) none true 2) Sample.machine (.past m') ∧
      Represents Sample.task { Sample.thread with char := 0x6261, pc := 1 } m' := by
  have hp : 1 ≤ Sample.task.subject.size := by decide
  have hpos : Sample.thread.pos = Sample.task.position 1 := by decide
  have hrun : Sample.emits (.load 0 none true 2) = true := by decide +kernel
  have hrun' : Sample.emits (.load (-1) none true 2) = true := by decide +kernel
  constructor
  · obtain ⟨a, b, ha, hb, herror, -, hmode, -⟩ := Sample.exists_emit hrun
    obtain ⟨m', -, hrun, -⟩ := (checkedLoad_of_emit (fun _ => 0) (f := id) 0 none 2
      (k := Sample.task) hb herror hmode.symm rfl Sample.represents_machine hp hpos).2.1
      (by decide) (by decide)
    exact ⟨a, m', ha, hrun⟩
  · obtain ⟨a, b, ha, hb, herror, -, hmode, -⟩ := Sample.exists_emit hrun'
    obtain ⟨c, m', hc, -, hrun, hr, -⟩ := (checkedLoad_of_emit (fun _ => 0) (f := id) (-1) none 2
      (k := Sample.task) hb herror hmode.symm rfl Sample.represents_machine hp hpos).1 (by decide)
    obtain rfl : 0x6261 = c := Option.some.inj hc
    exact ⟨a, m', ha, hrun, hr⟩

/-! ### A load that overhangs -/

namespace Sample

/-- Loads two characters from the one before the position on, and reports the position. -/
def rearward : Program where
  opcodes := #[.load (-1) (some ⟨0⟩) true 2, .writePosition 0 0, .writePosition 1 0, .succeed,
    .bind ⟨0⟩, .fail]
  labels := 1
  saved := 2

theorem exists_compile_rearward :
    ∃ m, rearward.compile { mode := .latin1 } "" Sample.heap = .ok m := by
  obtain ⟨m, hm, -⟩ := Program.exists_compile (p := rearward) (o := { mode := .latin1 })
    (n := 47) (by decide +kernel) (by decide) (by simp [rearward, Opcode.InRange, InReach])
    (by decide) "" Sample.heap
  exact ⟨m, hm⟩

/-- Once past the load it has a match. -/
theorem run_rearward {k : Task} {t : Thread} (hprogram : k.matcher.program = rearward)
    (hglobal : k.matcher.options.globalMode = .notGlobal) (hpc : t.pc = 1) :
    ∃ u, k.run t = some (.done (.success 1) u) := by
  let t₁ := (t.setReg 0 (t.pos + k.bytes 0)).advance
  let t₂ := (t₁.setReg 1 (t₁.pos + k.bytes 0)).advance
  have h₁ : k.step t = .next t₁ := by
    simp only [Task.step, hprogram, hpc]
    rfl
  have h₂ : k.step t₁ = .next t₂ := by
    have hpc₁ : t₁.pc = 2 := congrArg (· + 1) hpc
    simp only [Task.step, hprogram, hpc₁]
    rfl
  have h₃ : ∃ u, k.step t₂ = .done (.success 1) u := by
    have hpc₂ : t₂.pc = 3 := congrArg (· + 2) hpc
    simp only [Task.step, hprogram, hpc₂]
    exact ⟨_, by simp only [rearward, Task.perform, Task.succeed, hglobal]; rfl⟩
  obtain ⟨u, hu⟩ := h₃
  refine ⟨u, ?_⟩
  rw [Task.run_eq, h₁, Outcome.ending, Task.run_eq, h₂, Outcome.ending, Task.run_eq, hu]
  rfl

end Sample

/-- **A checked load can read past the end of the subject.** At the end of a text of two characters,
one of two that begins with the last of them goes past, and the program finds a match. -/
theorem Engine.exec_of_overhanging_load :
    ∃ (e : Engine) (m : Matcher), e.Reachable {} ∧
      e.check ⟨0⟩ (.latin1 #[97, 98]) 2 2 = .ok m ∧
      (∃ a ∈ e.tries ⟨0⟩ m (.latin1 #[97, 98]) 2 #[7, 7], ∃ past t, a.Trail past t ∧
        t.pos = a.task.position 2 ∧
        a.task.opcode? t = some (.load (-1) (some ⟨0⟩) true 2) ∧ ¬a.task.Covered 2 (-1) 2 ∧
        ∃ c, a.task.step t = .next { t with char := c, pc := t.pc + 1 }) ∧
      ∃ r, e.exec ⟨0⟩ (.latin1 #[97, 98]) 2 #[7, 7] = some r ∧ r.answer = .ok 1 := by
  obtain ⟨m, hm⟩ := Sample.exists_compile_rearward
  obtain ⟨e, a, h⟩ := Sample.exists_firstTry hm (.latin1 #[97, 98]) 2 #[7, 7] rfl
    (Nat.le_refl 2) (by decide) (Nat.le_refl 2) (by decide)
  let t := a.task.afresh 2 a.entry
  have hbytes : a.task.subject.byteSize < 2 ^ 62 := by
    rw [h.text]
    change 2 < 2 ^ 62
    decide
  have hsize : a.task.subject.size = 2 := congrArg Subject.size h.text
  have hover : a.task.Overhangs 2 (-1) 2 := by
    rw [Task.Overhangs, hsize]
    decide
  have hchars : a.task.chars? (t.pos + a.task.bytes (-1)) 2 = some 98 := by
    rw [Task.chars?_pos_add h.subject_mode hbytes (Nat.le_of_eq hsize.symm) rfl, h.text, h.mode_eq]
    rfl
  have hstep : a.task.step t = .next { t with char := 98, pc := t.pc + 1 } := by
    have hfails : a.task.placeHolds t (.outside (Task.lastOffset (-1) 2)) = false :=
      Bool.eq_false_iff.mpr fun hcon => ((Task.placeHolds_last_iff h.subject_mode hbytes
        (Nat.le_of_eq hsize.symm) rfl (Nat.le_succ 1) (by decide) rfl).mp hcon).2 hover
    have hperform : a.task.step t = a.task.perform (.load (-1) (some ⟨0⟩) true 2) t := by
      simp only [Task.step, h.program_eq]
      rfl
    rw [hperform, Task.perform, hfails]
    simp only [Bool.and_false, Bool.false_eq_true, if_false, Task.load, hchars]
  obtain ⟨u, hu⟩ := Sample.run_rearward (k := a.task)
    (t := { t with char := 98, pc := t.pc + 1 }) h.program_eq (by rw [h.matcher, h.options]) rfl
  refine ⟨e, m, h.reachable, h.check, ⟨a, h.mem, [], t, ⟨t, h.begins, .start⟩, rfl, ?_, ?_, _,
    hstep⟩, ?_⟩
  · rw [Task.opcode?, h.program_eq]
    rfl
  · rintro ⟨-, hhigh⟩
    rw [hsize] at hhigh
    exact absurd hhigh (by decide)
  · obtain ⟨r, hr, hanswer, -⟩ := h.exec_of_run (n := 1) (u := u) (by decide) (by
      rw [Task.run_eq, hstep]
      exact hu)
    exact ⟨r, hr, hanswer⟩

end NativeMatcher
