import NativeMatcher.Proofs.Outcome

/-!
# Where a resumption point leads

A resumption point on the backtrack stack is a code offset, and a thread that takes one goes on
with the opcode whose code lies there. Code depends on the encoding of the subject, and so do
code offsets. Which opcode they lead to does not
(`NativeMatcher.Compiled.opcodeAt?_offset`).

What makes this more than looking an offset up is that some opcodes have no code
(`NativeMatcher.Opcode.isSilent`): a label, an advance by nothing, a class that holds every
character. They share their offset with the opcode after them, so an offset leads to the first
opcode of a silent row (`NativeMatcher.Program.landing`), and it has to be the same opcodes that
are silent in either encoding. Offsets have 32 bits on the stack. That is enough for all of them,
since the code begins with a jump over the opcodes and a jump spans no more than that
(`NativeMatcher.Program.size_lt_of_placeRoutines`).
-/

namespace NativeMatcher

open Assembly X64

/-! ### Opcodes without code -/

/-- No more than one character is loaded at a time. -/
def Opcode.LoadsOne : Opcode → Prop
  | .load _ _ _ count => count ≤ 1
  | _ => True

/-- Whether an opcode that loads no more than one character has no code. -/
def Opcode.isSilent : Opcode → Bool
  | .bind _ | .onChar (.notInClass .everything) _ => true
  | .advance count | .advanceRegister _ count => count == 0
  | .load _ _ checked count => !checked && count == 0
  | _ => false

/-- Whether an opcode has code does not depend on its labels. -/
theorem Opcode.isSilent_mapLabels (op : Opcode) (f : Label → Label) :
    (op.mapLabels f).isSilent = op.isSilent := by
  cases op with
  | onChar test dest =>
    cases test with
    | notInClass cls => cases cls <;> rfl
    | _ => rfl
  | _ => rfl

theorem Opcode.loadsOne_mapLabels {op : Opcode} (h : op.LoadsOne) (f : Label → Label) :
    (op.mapLabels f).LoadsOne := by
  cases op <;> exact h

namespace Assembly

/-- Whether an item is no code but a mark in it. -/
def Item.isMark : Item → Bool
  | .declare | .bind _ => true
  | _ => false

/-- An instruction takes at least one byte, also one that has no encoding of its own. -/
theorem encode_instr_ne_nil (i : Instr) : i.encode ≠ [] := by
  have hrm : ∀ (o : OpByte) (field : UInt8) (src : Operand), o.withRm field src ≠ [] := by
    intro o field src
    cases src <;> simp [OpByte.withRm, o.bytes_ne_nil]
  have hreg : ∀ (o : OpByte) (r : Reg), o.withReg r ≠ [] := fun o r => OpByte.bytes_ne_nil _ _ _ _
  cases i with
  | aluRmImm op w dst imm | shiftImm op w dst imm =>
    simp only [Instr.encode]
    split <;> simp [hrm]
  | pushImm imm =>
    simp only [Instr.encode]
    split <;> simp
  | branch b disp => cases b <;> simp [Instr.encode, Branch.bytes]
  | _ => simp [Instr.encode, hrm, hreg]

theorem Item.size_eq_zero_iff (i : Item) : i.size = 0 ↔ i.isMark = true := by
  cases i <;> simp [Item.size, Item.head, Item.field?, Item.isMark, encode_instr_ne_nil]

/-- Items without code are those that only mark a place. -/
theorem codeSize_eq_zero_iff (items : List Item) :
    codeSize items = 0 ↔ items.all Item.isMark = true := by
  induction items with
  | nil => simp
  | cons i items ih =>
    rw [codeSize_cons, List.all_cons, Bool.and_eq_true, ← ih, ← i.size_eq_zero_iff]
    omega

/-- A stage of an opcode has no code exactly if the opcode is silent. The case analysis over opcodes
for the sizes of their blocks: all but the silent ones have an instruction in every branch of their
lowering. -/
theorem codeSize_lower {mode : Mode} {next : Nat} {table : UInt64} {isBound : Label → Bool}
    {op : Opcode} {bl : Block} (h : lower mode next table isBound op = .ok bl) (hload : op.LoadsOne)
    (hstage : ∀ offset dest count, op ≠ .load offset dest true count) :
    codeSize bl.items = 0 ↔ op.isSilent = true := by
  rw [codeSize_eq_zero_iff]
  cases op with
  | bind l =>
    obtain rfl := Except.ok.inj h
    exact ⟨fun _ => rfl, fun _ => rfl⟩
  | advance count =>
    simp only [lower] at h
    by_cases hcount : count = 0
    · rw [if_pos hcount] at h
      obtain rfl := Except.ok.inj h
      simp [Opcode.isSilent, hcount]
    · rw [if_neg hcount] at h
      obtain ⟨disp, -, h⟩ := Assembler.bind_eq_ok.mp h
      obtain rfl := Except.ok.inj h
      simp [Opcode.isSilent, hcount, Block.ofInstrs, Item.isMark]
  | advanceRegister reg delta =>
    obtain rfl := Except.ok.inj h
    by_cases hdelta : delta = 0 <;> simp [Opcode.isSilent, hdelta, Item.isMark]
  | onChar test dest =>
    obtain rfl := Except.ok.inj h
    cases test with
    | notInClass cls =>
      cases cls <;> cases mode <;> simp [lowerTest, lowerClass, rangeTest, lineEndTest, branchTo,
        Opcode.isSilent, Item.isMark]
    | equalAfterAnd c mask | notEqualAfterAnd c mask =>
      simp [lowerTest, branchTo, Opcode.isSilent, Item.isMark]
    | _ => simp [lowerTest, rangeLookup, rangeTest, branchTo, Opcode.isSilent, Item.isMark]
  | onPlace test dest =>
    obtain ⟨is, c, hitems, -⟩ := exists_items_of_lowerPlace h
    rw [hitems]
    simp [branchTo, Opcode.isSilent, Item.isMark]
  | onRegister test dest =>
    obtain rfl := Except.ok.inj h
    cases test <;> simp [lowerRegister, Opcode.isSilent, Item.isMark]
  | checkNotBackReference reg backward dest =>
    obtain ⟨_, -, h⟩ := Assembler.bind_eq_ok.mp h
    obtain rfl := Except.ok.inj h
    simp [backReference, captureLength, Opcode.isSilent, Item.isMark]
  | checkNotBackReferenceIgnoreCase reg backward unicode dest =>
    obtain ⟨_, -, h⟩ := Assembler.bind_eq_ok.mp h
    obtain rfl := Except.ok.inj h
    simp [backReferenceIgnoreCase, captureLength, Opcode.isSilent, Item.isMark]
  | goTo dest =>
    cases dest <;> obtain rfl := Except.ok.inj h <;> simp [Opcode.isSilent, Item.isMark]
  | load offset dest checked count =>
    obtain ⟨disp, -, hblock⟩ := Assembler.bind_eq_ok.mp h
    obtain rfl : checked = false := by
      cases checked with
      | false => rfl
      | true => exact absurd rfl (hstage offset dest count)
    have hwidth := loadChars?_eq_none_iff mode disp count
    have hcount : count = 0 ∨ count = 1 := Nat.le_one_iff_eq_zero_or_eq_one.mp hload
    rcases hcount with rfl | rfl
    · have hnone : loadChars? mode disp 0 = none := hwidth.mpr (by simp)
      rw [hnone] at hblock
      obtain rfl := Except.ok.inj hblock
      simp [Opcode.isSilent]
    · split at hblock
      · obtain rfl := Except.ok.inj hblock
        simp [Opcode.isSilent, Block.ofInstrs, Item.isMark]
      · next hnone =>
        refine absurd (hwidth.mp hnone) ?_
        cases mode <;> simp [Mode.charSize]
  | setPositionFromEnd count =>
    obtain ⟨neg, -, h⟩ := Assembler.bind_eq_ok.mp h
    obtain ⟨limit, -, h⟩ := Assembler.bind_eq_ok.mp h
    obtain rfl := Except.ok.inj h
    simp [Opcode.isSilent, Item.isMark]
  | writePosition reg offset =>
    simp only [lower] at h
    split at h
    · obtain rfl := Except.ok.inj h
      simp [Opcode.isSilent, Item.isMark]
    · obtain ⟨disp, -, h⟩ := Assembler.bind_eq_ok.mp h
      obtain rfl := Except.ok.inj h
      simp [Opcode.isSilent, Item.isMark]
  | _ =>
    obtain rfl := Except.ok.inj h
    simp [Opcode.isSilent, Item.isMark, Block.ofInstrs, popEntry, pushEntry, loadStackBase]

end Assembly

/-! ### The offsets of a compilation -/

namespace Assembler

variable {a b : Assembler} {op : Opcode}

/-- A stage has no code exactly if its opcode is silent. A load of one character is required, since
wider ones record an error and no code. -/
theorem codeSize_stageItems (hb : a.emitStage op = .ok b) (hload : op.LoadsOne)
    (hstage : ∀ offset dest count, op ≠ .load offset dest true count) :
    codeSize (a.stageItems op) = 0 ↔ op.isSilent = true := by
  cases op with
  | bind l =>
    refine ⟨fun _ => rfl, fun _ => ?_⟩
    rw [codeSize_eq_zero_iff, stageItems]
    split <;> rfl
  | _ =>
    obtain ⟨bl, hbl, -⟩ := bind_eq_ok.mp hb
    simp only [stageItems, hbl]
    exact codeSize_lower hbl hload hstage

/-- **An opcode has no code exactly if it is silent**, whatever the encoding is. So the offsets of
two opcodes are equal exactly if all between them are silent. -/
theorem codeSize_opItems (hb : a.emit op = .ok b) (hrefuses : a.refuses op = false)
    (hload : op.LoadsOne) : codeSize (a.opItems op) = 0 ↔ op.isSilent = true := by
  simp only [emit, hrefuses, Bool.false_eq_true, if_false] at hb
  obtain ⟨ops, hops, hb⟩ := bind_eq_ok.mp hb
  simp only [opItems, hrefuses, Bool.false_eq_true, if_false, hops]
  rcases stages_cases hops with ⟨rfl, hstage⟩ | ⟨offset, dest, count, last, rfl, rfl⟩
  · obtain ⟨a', ha', -⟩ := bind_eq_ok.mp hb
    simp only [stagesItems, ha', List.append_nil]
    exact codeSize_stageItems ha' hload hstage
  · -- The check of the bounds has code.
    obtain ⟨a', ha', -⟩ := bind_eq_ok.mp hb
    have hcheck := codeSize_stageItems ha' trivial (by simp)
    rw [stagesItems, codeSize_append]
    simp only [Opcode.isSilent, Bool.not_true, Bool.false_and, Bool.false_eq_true,
      iff_false] at hcheck ⊢
    omega

end Assembler

namespace Compilation

open Assembler

/-- The code offsets of the opcodes so far, and the offset of the next one. -/
def bounds (c : Compilation) : Array Nat := c.offsets.push c.assembler.buffer.size

/-- The offsets go up from opcode to opcode, and stay where an opcode is silent. -/
structure Rises (done : List Opcode) (bounds : Array Nat) : Prop where
  /-- There is an offset for each opcode and for the next one. -/
  size : bounds.size = done.length + 1
  /-- From one to the next. -/
  step : ∀ i x y, bounds[i]? = some x → bounds[i + 1]? = some y →
    x ≤ y ∧ (x = y ↔ done[i]?.any Opcode.isSilent = true)

namespace Rises

variable {done : List Opcode} {bounds : Array Nat}

/-- One more opcode keeps the offsets rising, if they go up by the size of its code. -/
theorem push (h : Rises done bounds) {op : Opcode} {x y : Nat}
    (hx : bounds[done.length]? = some x) (hle : x ≤ y) (hsilent : x = y ↔ op.isSilent = true) :
    Rises (done ++ [op]) (bounds.push y) := by
  have hsize := h.size
  refine ⟨by simp [hsize], fun i u v hu hv => ?_⟩
  have hlt : i + 1 < bounds.size + 1 := by
    obtain ⟨hlt, -⟩ := Array.getElem?_eq_some_iff.mp hv
    simpa using hlt
  rw [Array.getElem?_push, if_neg (by omega)] at hu
  by_cases hi : i + 1 = bounds.size
  · obtain rfl : i = done.length := by omega
    rw [Array.getElem?_push, if_pos hi] at hv
    obtain rfl := Option.some.inj hv
    obtain rfl := Option.some.inj (hx.symm.trans hu)
    simpa using ⟨hle, hsilent⟩
  · rw [Array.getElem?_push, if_neg hi] at hv
    rw [List.getElem?_append_left (by omega)]
    exact h.step i u v hu hv

/-- A later opcode lies at the same offset or at a larger one. -/
theorem le_of_le (h : Rises done bounds) {i j x y : Nat} (hij : i ≤ j)
    (hx : bounds[i]? = some x) (hy : bounds[j]? = some y) : x ≤ y := by
  induction hij generalizing y with
  | refl => exact Nat.le_of_eq (Option.some.inj (hx.symm.trans hy))
  | @step j _ ih =>
    obtain ⟨hlt, -⟩ := Array.getElem?_eq_some_iff.mp hy
    obtain ⟨z, hz⟩ : ∃ z, bounds[j]? = some z :=
      ⟨_, Array.getElem?_eq_getElem (Nat.lt_of_succ_lt hlt)⟩
    exact Nat.le_trans (ih hz) (h.step j z y hz hy).1

end Rises

end Compilation

/-- The first opcode of the silent row before an opcode, or the opcode itself if the one before it
has code. -/
def Program.landing (p : Program) : Nat → Nat
  | 0 => 0
  | i + 1 => if p.opcodes[i]?.any Opcode.isSilent then p.landing i else i + 1

/-- Landing goes back over silent opcodes, and never forward. -/
theorem Program.landing_le (p : Program) (i : Nat) : p.landing i ≤ i := by
  induction i with
  | zero => exact Nat.le_refl 0
  | succ i ih =>
    rw [landing]
    split
    · exact Nat.le_succ_of_le ih
    · exact Nat.le_refl _

namespace Compilation

open Assembler

/-- Where control lands at an offset: at the first of the opcodes there. Those before it in the row
are silent, and one that is not would have moved the offset on. -/
theorem Rises.landing {p : Program} {bounds : Array Nat} (h : Rises p.opcodes.toList bounds)
    {i x : Nat} (hx : bounds[i]? = some x) :
    bounds[p.landing i]? = some x ∧ ∀ j y, j < p.landing i → bounds[j]? = some y → y ≠ x := by
  induction i generalizing x with
  | zero => exact ⟨hx, fun j y hj => absurd hj (Nat.not_lt_zero j)⟩
  | succ i ih =>
    obtain ⟨hlt, -⟩ := Array.getElem?_eq_some_iff.mp hx
    obtain ⟨w, hw⟩ : ∃ w, bounds[i]? = some w :=
      ⟨_, Array.getElem?_eq_getElem (Nat.lt_of_succ_lt hlt)⟩
    obtain ⟨hle, hsilent⟩ := h.step i w x hw hx
    rw [Array.getElem?_toList] at hsilent
    rw [Program.landing]
    split
    · next hs =>
      obtain rfl := hsilent.mpr hs
      exact ih hw
    · next hs =>
      refine ⟨hx, fun j y hj hy => ?_⟩
      have hne : w ≠ x := fun heq => hs (hsilent.mp heq)
      have := h.le_of_le (Nat.le_of_lt_succ hj) hy hw
      omega

/-- Compiling opcodes makes their offsets rise. By induction on the opcodes that are left. An offset
is noted before its opcode is emitted, so it is at most the next one, and equal to it only for a
silent opcode. -/
theorem rises_steps {p : Program} {n : Nat} {c d : Compilation} {done ops : List Opcode}
    {items : List Item} (hlaid : Laid n items c.assembler) (h : Rises done c.bounds)
    (hd : c.steps p ops = .ok d) (hloads : ∀ op ∈ ops, op.LoadsOne) :
    Rises (done ++ ops) d.bounds := by
  induction ops generalizing c done items with
  | nil =>
    obtain rfl := Except.ok.inj hd
    simpa using h
  | cons op ops ih =>
    obtain ⟨c', hc', hd⟩ := bind_eq_ok.mp hd
    rw [List.forall_mem_cons] at hloads
    have hlaid' := Program.laid_step hlaid hc'
    obtain ⟨hnone, hoffsets, hemit⟩ := step_eq_ok hc'
    have hbounds : c'.bounds = c.bounds.push c'.assembler.buffer.size := by
      rw [bounds, hoffsets, bounds]
    have hsilent : codeSize (c.assembler.opItems (op.mapLabels Label.shifted)) = 0 ↔
        op.isSilent = true := by
      rw [← Opcode.isSilent_mapLabels op Label.shifted]
      exact codeSize_opItems hemit
        ((Opcode.refuses_mapLabels _ _ _).trans (Program.refuses_eq_false hnone))
        (Opcode.loadsOne_mapLabels hloads.1 _)
    have hsize : c.offsets.size = done.length := by simpa [bounds] using h.size
    rw [List.append_cons]
    refine ih hlaid' ?_ hd hloads.2
    rw [hbounds]
    refine h.push (x := c.assembler.buffer.size) ?_ ?_ ?_
    · rw [bounds, ← hsize, Array.getElem?_push_size]
    · rw [hlaid.size_buffer, hlaid'.size_buffer, codeSize_append]
      omega
    · rw [hlaid.size_buffer, hlaid'.size_buffer, codeSize_append, ← hsilent]
      omega

end Compilation

/-! ### A jump spans all opcodes -/

namespace Program

open Assembler Compilation

/-- If all uses of a label were patched, each of them had a value to be patched with. -/
theorem exists_resolve_of_patchUses {b c : Code.Buffer} {target : Nat} {uses : List Label.Use}
    (h : patchUses b target uses = .ok c) {u : Label.Use} (hu : u ∈ uses) :
    ∃ v, u.kind.resolve u.offset target = .ok v := by
  induction uses generalizing b with
  | nil => cases hu
  | cons w uses ih =>
    obtain ⟨v, hv, h⟩ := bind_eq_ok.mp h
    obtain ⟨d, -, h⟩ := bind_eq_ok.mp h
    rcases List.mem_cons.mp hu with rfl | hu
    · exact ⟨v, hv⟩
    · exact ih h hu

/-- A jump from near the start of the code spans less than `2 ^ 32` bytes. -/
theorem lt_of_resolve {target : Nat} {v : UInt32}
    (h : Label.FieldKind.rel32.resolve 1 target = .ok v) (hmax : target ≤ Memory.maxBlock) :
    target < 2 ^ 32 := by
  have hlt : target < 9223372036854775808 := Nat.lt_succ_of_le hmax
  have hsigned : Label.signed64 target = target := Int.bmod_eq_of_le (by omega) (by omega)
  obtain ⟨next, hnext, h⟩ := bind_eq_ok.mp h
  obtain ⟨d, hd, h⟩ := bind_eq_ok.mp h
  obtain rfl : next = 5 := (Except.ok.inj hnext).symm
  obtain rfl : d = target - 5 := by
    rw [Label.distance, hsigned, Label.word64] at hd
    split at hd
    · exact (Except.ok.inj hd).symm
    · cases hd
  split at h
  · omega
  · cases h

/-- **The opcodes of compiled code lie below `2 ^ 32`**, if the code is in memory at all: the
entry sequence comes after them, and the code begins with a jump there. -/
theorem size_lt_of_placeRoutines {n : Nat} {a b : Assembler} {rest : List Item}
    (hlaid : Laid n (opening ++ rest) a) (h : a.placeRoutines = .ok b)
    (hmax : a.buffer.size ≤ Memory.maxBlock) : a.buffer.size < 2 ^ 32 := by
  obtain ⟨c, hc, -⟩ := bind_eq_ok.mp h
  simp only [entry, List.cons_append] at hc
  obtain ⟨d, hd, -⟩ := bind_eq_ok.mp hc
  obtain ⟨e, buffer, he, hnone, hpatch, -⟩ := Laid.eq_of_bindLabel hd
  have huses := hlaid.uses _ e he
  rw [hnone] at huses
  have hmem : ⟨1, .rel32⟩ ∈ e.uses.toList := by
    rw [huses]
    simp [fieldsOf, opening, placed, Item.use?, Item.field?, Item.head, Branch.bytes]
  obtain ⟨v, hv⟩ := exists_resolve_of_patchUses hpatch hmem
  exact lt_of_resolve hv hmax

/-- The code offsets of a compiled program rise from opcode to opcode, and fit 32 bits: the code
begins with a jump over all opcodes to the entry sequence, and the distance of that jump has 32
bits. -/
theorem rises_of_compile {p : Program} {o : Options} {source : String} {heap : Nat → UInt64}
    {m : Matcher} (h : p.compile o source heap = .ok m)
    (hmax : m.object.buffer.size ≤ Memory.maxBlock) (hloads : ∀ op ∈ p.opcodes, op.LoadsOne) :
    ∃ last < 2 ^ 32, Rises p.opcodes.toList (m.offsets.push last) := by
  have hsize := size_of_compile h
  obtain ⟨c, d, a, hc, hd, hfinish, hoffsets⟩ := compile_eq_ok h
  obtain ⟨b, hroutines, -, -⟩ := exists_of_finish hfinish
  have hlaid := laid_steps (laid_start hc) hd
  have hfinal : Laid _ _ { d.assembler with finalized := true } := hlaid.of_eq rfl rfl
  have hle : d.assembler.buffer.size ≤ m.object.buffer.size := by
    rw [hlaid.size_buffer, hsize]
    simp only [listing, hc, hd, codeSize_append]
    omega
  have hlt := size_lt_of_placeRoutines (a := { d.assembler with finalized := true }) hfinal
    hroutines (Nat.le_trans hle hmax)
  have hempty : c.offsets = #[] := by
    obtain ⟨a₀, -, hc⟩ := bind_eq_ok.mp hc
    obtain rfl := Except.ok.inj hc
    rfl
  have hstart : Rises [] c.bounds := by
    refine ⟨by simp [bounds, hempty], fun i x y hx hy => ?_⟩
    simp [bounds, hempty] at hy
  rw [hoffsets]
  exact ⟨d.assembler.buffer.size, hlt,
    rises_steps (laid_start hc) hstart hd (by simpa using hloads)⟩

end Program

namespace Compiled

variable {p : Program} {o : Options} {source : String} {m : Matcher}

/-- Moving code changes no offset. -/
theorem rises (h : Compiled p o source m) (hmax : m.object.buffer.size ≤ Memory.maxBlock)
    (hloads : ∀ op ∈ p.opcodes, op.LoadsOne) :
    ∃ last < 2 ^ 32, Compilation.Rises p.opcodes.toList (m.offsets.push last) := by
  induction h with
  | fresh h => exact Program.rises_of_compile h hmax hloads
  | moved _ ih => exact ih hmax

/-- Every opcode has a code offset. -/
theorem size_offsets (h : Compiled p o source m) (hmax : m.object.buffer.size ≤ Memory.maxBlock)
    (hloads : ∀ op ∈ p.opcodes, op.LoadsOne) : m.offsets.size = p.opcodes.size := by
  obtain ⟨last, -, hrises⟩ := h.rises hmax hloads
  simpa using hrises.size

/-- **The code offset of an opcode leads to the first opcode of its silent row**, in whatever
encoding the program was compiled for. -/
theorem opcodeAt?_offset (h : Compiled p o source m)
    (hmax : m.object.buffer.size ≤ Memory.maxBlock) (hloads : ∀ op ∈ p.opcodes, op.LoadsOne)
    (subject : Subject) (origin : CallOrigin) {i x : Nat} (hx : m.offsets[i]? = some x) :
    (Task.ofMatcher m subject origin).opcodeAt? (UInt32.ofNat x) = some (p.landing i) := by
  obtain ⟨last, hlast, hrises⟩ := h.rises hmax hloads
  obtain ⟨hi, -⟩ := Array.getElem?_eq_some_iff.mp hx
  have hback : ∀ j, j < m.offsets.size → (m.offsets.push last)[j]? = m.offsets[j]? := by
    intro j hj
    rw [Array.getElem?_push, if_neg (Nat.ne_of_lt hj)]
  have hword : (UInt32.ofNat x).toNat = x := by
    have hle := hrises.le_of_le (Nat.le_of_lt hi) ((hback i hi).trans hx)
      (Array.getElem?_push_size)
    exact UInt32.toNat_ofNat_of_lt' (by simp only [UInt32.size]; omega)
  obtain ⟨hland, hbefore⟩ := hrises.landing ((hback i hi).trans hx)
  have hlt : p.landing i < m.offsets.size := Nat.lt_of_le_of_lt (p.landing_le i) hi
  rw [hback _ hlt] at hland
  obtain ⟨_, hget⟩ := Array.getElem?_eq_some_iff.mp hland
  change m.offsets.findIdx? _ = _
  rw [Array.findIdx?_eq_some_iff_getElem]
  refine ⟨hlt, by simp [hget, hword], fun j hj => ?_⟩
  have hjlt : j < m.offsets.size := Nat.lt_trans hj hlt
  have hne := hbefore j m.offsets[j] hj ((hback j hjlt).trans (Array.getElem?_eq_getElem hjlt))
  simpa [hword] using hne

end Compiled

/-! ### The register file -/

namespace Assembler

variable {a b : Assembler} {touched : List Nat} {saved : Nat}

/-- Emitting a stage touches the registers of its opcode. -/
theorem exists_noted_emitStage (h : ∃ errors, a.Noted errors touched saved) {op : Opcode}
    (hb : a.emitStage op = .ok b) : ∃ errors, b.Noted errors (touched ++ op.touched) saved := by
  obtain ⟨errors, h⟩ := h
  cases op with
  | bind l =>
    have hnone : touched ++ (Opcode.bind l).touched = touched := List.append_nil _
    rw [hnone]
    obtain ⟨bound, -, hb⟩ := bind_eq_ok.mp hb
    cases bound with
    | true =>
      obtain rfl := Except.ok.inj hb
      exact ⟨_, h.record (.labelRebound l)⟩
    | false =>
      have hs := sameShape_bindLabel hb
      exact ⟨_, h.of_eq hs.error hs.registers⟩
  | _ =>
    obtain ⟨bl, hbl, hb⟩ := bind_eq_ok.mp hb
    have hs := sameShape_placeAll (a := a.note bl) hb
    rw [← (notes_of_lower hbl).1]
    exact ⟨_, (h.note bl).of_eq hs.error hs.registers⟩

/-- Emitting an opcode notes the registers it touches, stage by stage. -/
theorem exists_noted_emit (h : ∃ errors, a.Noted errors touched saved) {op : Opcode}
    (hrefuses : a.refuses op = false) (hb : a.emit op = .ok b) :
    ∃ errors, b.Noted errors (touched ++ op.touched) saved := by
  simp only [emit, hrefuses, Bool.false_eq_true, if_false] at hb
  obtain ⟨ops, hops, hb⟩ := bind_eq_ok.mp hb
  rcases stages_cases hops with ⟨rfl, -⟩ | ⟨offset, dest, count, last, rfl, rfl⟩
  · obtain ⟨a', ha', hb⟩ := bind_eq_ok.mp hb
    obtain rfl := Except.ok.inj hb
    exact exists_noted_emitStage h ha'
  · obtain ⟨a', ha', hb⟩ := bind_eq_ok.mp hb
    obtain ⟨a'', ha'', hb⟩ := bind_eq_ok.mp hb
    obtain rfl := Except.ok.inj hb
    simpa [Opcode.touched] using exists_noted_emitStage (exists_noted_emitStage h ha') ha''

end Assembler

namespace Compiled

open Assembler

/-- So does emitting a row of opcodes. -/
theorem exists_noted_steps {p : Program} {saved : Nat} {c d : Compilation} {touched : List Nat}
    {ops : List Opcode} (h : ∃ errors, c.assembler.Noted errors touched saved)
    (hd : c.steps p ops = .ok d) :
    ∃ errors, d.assembler.Noted errors (touched ++ ops.flatMap Opcode.touched) saved := by
  induction ops generalizing c touched with
  | nil =>
    obtain rfl := Except.ok.inj hd
    simpa using h
  | cons op ops ih =>
    obtain ⟨c', hc', hd⟩ := bind_eq_ok.mp hd
    rw [List.flatMap_cons, ← List.append_assoc]
    refine ih ?_ hd
    obtain ⟨hnone, -, hemit⟩ := Compilation.step_eq_ok hc'
    rw [← Opcode.touched_mapLabels Label.shifted op]
    exact exists_noted_emit h
      ((Opcode.refuses_mapLabels _ _ _).trans (Program.refuses_eq_false hnone)) hemit

/-- The register file holds all registers a match reports. -/
theorem saved_le_registerCount (p : Program) : p.saved ≤ p.registerCount := by
  have hfold (regs : List Nat) (n : Nat) : n ≤ regs.foldl (fun n reg => max n (reg + 1)) n := by
    induction regs generalizing n with
    | nil => exact Nat.le_refl n
    | cons reg regs ih => exact Nat.le_trans (Nat.le_max_left _ _) (ih _)
  exact hfold _ _

/-- **The register file of compiled code is as large as the program asks for**, in whatever
encoding. -/
theorem registers_eq {p : Program} {o : Options} {source : String} {m : Matcher}
    (h : Compiled p o source m) : m.object.registers = p.registerCount := by
  obtain ⟨d, hs⟩ := h.shape
  obtain ⟨heap, hbody⟩ := hs.body
  obtain ⟨c, hc, hd⟩ := bind_eq_ok.mp hbody
  obtain ⟨c', hc', hfollows⟩ := Compilation.exists_start p { mode := o.mode } heap
  obtain rfl := Except.ok.inj (hc.symm.trans hc')
  obtain ⟨errors, hnoted⟩ := exists_noted_steps ⟨_, hfollows.noted⟩ hd
  have hnil : errors = [] := List.head?_eq_none_iff.mp (hnoted.error.symm.trans hs.noError)
  rw [hs.registers, hnoted.registers hnil]
  rfl

end Compiled

end NativeMatcher
