import Mathlib.Data.List.Forall2
import NativeMatcher.Compile

/-!
# Where tables are does not matter

The code of a program holds the addresses of its tables, and where the heap puts a table the
program does not decide. Two compilations that get their tables at different places are followed
side by side here. They differ in the bytes of those addresses and in nothing else: they fail for
the same reason, or they have code of the same size with the opcodes at the same code offsets, the
same labels and the same registers (`NativeMatcher.Compilation.start_elsewhere`,
`NativeMatcher.Compilation.Elsewhere.steps`).

What carries the argument is that every address takes an instruction of the same length
(`NativeMatcher.Assembly.length_encode_loadTable`), so that whatever counts bytes counts the same
number of them.
-/

namespace NativeMatcher

open Assembly Code X64

/-- A heap that gives each table a page of its own. -/
def Sample.heap (i : Nat) : UInt64 := 0x7F0000000000 + 0x1000 * UInt64.ofNat i

/-! ### Computations that end alike -/

/-- Two computations end alike: with related values, or with failures of the same kind. -/
inductive Alike {ε α β : Type} (kind : ε → ε) (R : α → β → Prop) :
    Except ε α → Except ε β → Prop
  | ok {a : α} {b : β} (h : R a b) : Alike kind R (.ok a) (.ok b)
  | error {e e' : ε} (h : kind e' = kind e) : Alike kind R (.error e) (.error e')

namespace Alike

variable {ε α α' β β' : Type} {kind : ε → ε} {R : α → α' → Prop} {S : β → β' → Prop}

/-- A computation beside itself. -/
theorem of_ok {R : α → α → Prop} {x : Except ε α} (h : ∀ a, x = .ok a → R a a) :
    Alike kind R x x := by
  cases x with
  | ok a => exact .ok (h a rfl)
  | error e => exact .error rfl

theorem bind {x : Except ε α} {x' : Except ε α'} {f : α → Except ε β} {f' : α' → Except ε β'}
    (h : Alike kind R x x') (hf : ∀ a a', R a a' → Alike kind S (f a) (f' a')) :
    Alike kind S (x >>= f) (x' >>= f') := by
  cases h with
  | ok h => exact hf _ _ h
  | error h => exact .error h

/-- The same computation, followed by two that end alike. -/
theorem bind_same (x : Except ε α) {f : α → Except ε β} {f' : α → Except ε β'}
    (hf : ∀ a, Alike kind S (f a) (f' a)) : Alike kind S (x >>= f) (x >>= f') :=
  (of_ok fun _ _ => rfl).bind fun a _ h => h ▸ hf a

end Alike

/-! ### Blocks -/

namespace Assembly

/-- An address takes ten bytes to load, whatever it is. -/
theorem length_encode_loadTable (dst : Reg) (table : UInt64) :
    (loadTable dst table).encode.length = ((OpByte.sized 0xB8 .w64).withReg dst).length + 8 := by
  rw [loadTable, Instr.encode, List.length_append, length_bytes64]

/-- An item is another one, up to the table that it loads the address of. -/
inductive Item.Elsewhere : Item → Item → Prop
  /-- It is the same item. -/
  | same (i : Item) : Item.Elsewhere i i
  /-- Both load the address of a table. -/
  | table (dst : Reg) (table table' : UInt64) :
    Item.Elsewhere (.instr (loadTable dst table)) (.instr (loadTable dst table'))

/-- Two blocks differ only in addresses of tables. -/
structure Block.Elsewhere (b b' : Block) : Prop where
  /-- The items. -/
  items : List.Forall₂ Item.Elsewhere b.items b'.items
  /-- The registers are the same. -/
  registers : b'.registers = b.registers
  /-- The error is the same. -/
  error : b'.error = b.error
  /-- The bit table is the same. -/
  bitTable : b'.bitTable = b.bitTable
  /-- The boundary list is the same. -/
  boundaryList : b'.boundaryList = b.boundaryList

/-- Items beside themselves. -/
theorem elsewhere_same (is : List Item) : List.Forall₂ Item.Elsewhere is is :=
  List.forall₂_same.mpr fun i _ => .same i

theorem Block.Elsewhere.refl (b : Block) : b.Elsewhere b :=
  ⟨elsewhere_same b.items, rfl, rfl, rfl, rfl⟩

/-- Items around the load of an address. -/
theorem elsewhere_loadTable (before after : List Item) (dst : Reg) (table table' : UInt64) :
    List.Forall₂ Item.Elsewhere (before ++ .instr (loadTable dst table) :: after)
      (before ++ .instr (loadTable dst table') :: after) :=
  List.rel_append (elsewhere_same before) (.cons (.table dst table table') (elsewhere_same after))

variable (table table' : UInt64)

/-- The address of a list of ranges is loaded once, as an argument of the call to the host. -/
theorem rangeLookup_elsewhere (ranges : List CharRange) (c : Cond) (dest : Target) :
    (rangeLookup table ranges c dest).Elsewhere (rangeLookup table' ranges c dest) := by
  refine ⟨?_, rfl, rfl, rfl, rfl⟩
  simp only [rangeLookup]
  split
  · exact elsewhere_same _
  · simp only [List.map_append, List.map_cons, List.append_assoc, List.cons_append]
    exact List.rel_append (elsewhere_same _)
      (.cons (.same _) (.cons (.table _ table table') (elsewhere_same _)))

theorem lowerClass_elsewhere (mode : Mode) (next : Nat) (dest : Target) (cls : CharClass) :
    (lowerClass mode next table dest cls).Elsewhere (lowerClass mode next table' dest cls) := by
  cases cls with
  | word | notWord =>
    exact ⟨elsewhere_loadTable [_, _, _] _ _ _ _, rfl, rfl, rfl, rfl⟩
  | _ => exact .refl _

/-- A character test has an address only if it looks into a table or a list of ranges. -/
theorem lowerTest_elsewhere (mode : Mode) (next : Nat) (dest : Target) (test : CharTest) :
    (lowerTest mode next table dest test).Elsewhere (lowerTest mode next table' dest test) := by
  cases test with
  | inRanges rs => exact rangeLookup_elsewhere table table' rs .ne dest
  | notInRanges rs => exact rangeLookup_elsewhere table table' rs .e dest
  | inTable t => exact ⟨elsewhere_loadTable [] _ _ _ _, rfl, rfl, rfl, rfl⟩
  | notInClass cls => exact lowerClass_elsewhere table table' mode next dest cls
  | _ => exact .refl _

/-- **An opcode is lowered alike wherever its table is.** -/
theorem lower_elsewhere (mode : Mode) (next : Nat) (isBound : Label → Bool) (op : Opcode) :
    Alike id Block.Elsewhere (lower mode next table isBound op)
      (lower mode next table' isBound op) := by
  cases op with
  | onChar test dest => exact .ok (lowerTest_elsewhere table table' mode next dest test)
  | goTo dest => cases dest <;> exact .ok (Block.Elsewhere.refl _)
  | _ => exact .of_ok fun b _ => Block.Elsewhere.refl b

end Assembly

/-! ### Buffers -/

namespace Code.Buffer

/-- Two buffers differ only in their bytes. -/
structure Elsewhere (b b' : Buffer) : Prop where
  /-- There are as many bytes. -/
  size : b'.size = b.size
  /-- The capacity is the same. -/
  capacity : b'.capacity = b.capacity
  /-- So is the protection. -/
  executable : b'.executable = b.executable

namespace Elsewhere

variable {b b' : Buffer}

theorem refl (b : Buffer) : b.Elsewhere b := ⟨rfl, rfl, rfl⟩

theorem reserve (h : b.Elsewhere b') (n : Nat) :
    Alike id Elsewhere (b.reserve n) (b'.reserve n) := by
  unfold Buffer.reserve
  rw [h.size, h.capacity, h.executable]
  split
  · exact .ok h
  · split
    · exact .error rfl
    · exact .ok ⟨h.size, rfl, rfl⟩

/-- As many bytes are appended alike, whatever they are. -/
theorem append (h : b.Elsewhere b') {bs bs' : List UInt8} (hlength : bs'.length = bs.length) :
    Alike id Elsewhere (b.append bs) (b'.append bs') := by
  have hempty : bs'.isEmpty = bs.isEmpty := by
    rw [Bool.eq_iff_iff, List.isEmpty_iff_length_eq_zero, List.isEmpty_iff_length_eq_zero, hlength]
  unfold Buffer.append
  rw [hlength]
  refine (h.reserve bs.length).bind fun d d' hd => ?_
  obtain ⟨bytes, capacity, executable⟩ := d'
  obtain ⟨hsize, rfl, rfl⟩ := hd
  rw [hempty]
  split
  · exact .error rfl
  · refine .ok ⟨?_, rfl, rfl⟩
    have hbytes : bytes.size = d.bytes.size := hsize
    simp only [Buffer.size, Array.appendList_eq_append, ← Array.length_toList,
      Array.toList_appendList, List.length_append, hlength]
    simpa using hbytes

/-- A patch succeeds or fails by its offset and the length of the buffer, which are equal. -/
theorem patch32 (h : b.Elsewhere b') (offset : Nat) (v : UInt32) :
    Alike id Elsewhere (b.patch32 offset v) (b'.patch32 offset v) := by
  obtain ⟨bytes, capacity, executable⟩ := b'
  obtain ⟨hsize, rfl, rfl⟩ := h
  unfold Buffer.patch32
  rw [hsize]
  refine .bind_same _ fun stop => ?_
  by_cases hstop : b.size < stop
  · simp only [hstop, if_true]
    exact .error rfl
  · cases he : b.executable with
    | true =>
      simp only [hstop, if_true, if_false]
      exact .error rfl
    | false =>
      simp only [hstop, Bool.false_eq_true, if_false]
      refine .ok ⟨?_, rfl, rfl⟩
      simp only [Buffer.size, size_overwrite]
      exact hsize

end Elsewhere

end Code.Buffer

/-! ### Assemblers -/

namespace Assembler

/-- Two assemblers differ only in where their tables are, and so in some bytes of their code. -/
inductive Elsewhere (a : Assembler) : Assembler → Prop
  | intro {buffer : Buffer} (heap : Nat → UInt64) (hbuffer : a.buffer.Elsewhere buffer) :
    Elsewhere a { a with buffer := buffer, heap := heap }

namespace Elsewhere

variable {a a' : Assembler}

theorem size_buffer (h : a.Elsewhere a') : a'.buffer.size = a.buffer.size := by
  cases h with
  | intro heap hbuffer => exact hbuffer.size

theorem mode (h : a.Elsewhere a') : a'.mode = a.mode := by
  cases h
  rfl

theorem registers (h : a.Elsewhere a') : a'.registers = a.registers := by
  cases h
  rfl

theorem append (h : a.Elsewhere a') {bs bs' : List UInt8} (hlength : bs'.length = bs.length) :
    Alike id Elsewhere (a.append bs) (a'.append bs') := by
  cases h with
  | intro heap hbuffer =>
    exact (hbuffer.append hlength).bind fun _ _ hb => .ok (.intro heap hb)

theorem patchUses {b b' : Buffer} (h : b.Elsewhere b') (target : Nat) (us : List Label.Use) :
    Alike id Buffer.Elsewhere (Assembler.patchUses b target us)
      (Assembler.patchUses b' target us) := by
  induction us generalizing b b' with
  | nil => exact .ok h
  | cons u us ih => exact .bind_same _ fun v => (h.patch32 u.offset v).bind fun _ _ hc => ih hc

theorem bindLabel (h : a.Elsewhere a') (l : Label) :
    Alike id Elsewhere (a.bindLabel l) (a'.bindLabel l) := by
  cases h with
  | @intro buffer heap hbuffer =>
    unfold Assembler.bindLabel
    simp only [hbuffer.size]
    refine .bind_same _ fun r => ?_
    exact (patchUses hbuffer _ _).bind fun _ _ hb => .ok (.intro heap hb)

/-- The last four bytes wait for a label. -/
theorem addUse (h : a.Elsewhere a') (l : Label) (kind : Label.FieldKind) :
    Alike id Elsewhere
      (a.labels.addUse l ⟨a.buffer.size - 4, kind⟩ >>= fun labels =>
        return { a with labels := labels })
      (a'.labels.addUse l ⟨a'.buffer.size - 4, kind⟩ >>= fun labels =>
        return { a' with labels := labels }) := by
  cases h with
  | intro heap hbuffer =>
    simp only [hbuffer.size]
    exact .bind_same _ fun labels => .ok (.intro heap hbuffer)

theorem branchTo (h : a.Elsewhere a') (b : Branch) (l : Label) :
    Alike id Elsewhere (a.branchTo b l) (a'.branchTo b l) := by
  have hlabels : a'.labels = a.labels := by
    cases h
    rfl
  rw [Assembler.branchTo, Assembler.branchTo, hlabels, h.size_buffer]
  refine .bind_same _ fun target => ?_
  cases target with
  | some target => exact .bind_same _ fun i => h.append rfl
  | none => exact (h.append rfl).bind fun _ _ hb => hb.addUse l _

/-- The offset of a label is stored, or left to be patched, as in a branch. -/
theorem storeTarget (h : a.Elsewhere a') (l : Label) :
    Alike id Elsewhere (a.storeTarget l) (a'.storeTarget l) := by
  have hlabels : a'.labels = a.labels := by
    cases h
    rfl
  rw [Assembler.storeTarget, Assembler.storeTarget, hlabels]
  refine .bind_same _ fun target => ?_
  cases target with
  | some target => exact h.append rfl
  | none => exact (h.append rfl).bind fun _ _ hb => hb.addUse l _

/-- An item that loads an address has eight bytes for it whatever the address is, so that all that
follows lies at the same place. -/
theorem place (h : a.Elsewhere a') {i i' : Item} (hi : i.Elsewhere i') :
    Alike id Elsewhere (a.place i) (a'.place i') := by
  cases hi with
  | table dst table table' =>
    refine h.append ?_
    rw [length_encode_loadTable, length_encode_loadTable]
  | same i =>
    cases i with
    | instr i => exact h.append rfl
    | branch b l =>
      have hnoted : Elsewhere
          (if b = .call then { a with callSites := a.callSites.push l } else a)
          (if b = .call then { a' with callSites := a'.callSites.push l } else a') := by
        split
        · cases h with
          | intro heap hbuffer => exact .intro heap hbuffer
        · exact h
      exact hnoted.branchTo b l
    | declare =>
      cases h with
      | intro heap hbuffer => exact .ok (.intro heap hbuffer)
    | bind l => exact h.bindLabel l
    | stub l =>
      refine (h.bindLabel l).bind fun b b' hb => append ?_ rfl
      cases hb with
      | intro heap hbuffer => exact .intro heap hbuffer
    | storeTarget l => exact h.storeTarget l

theorem placeAll (h : a.Elsewhere a') {is is' : List Item}
    (his : List.Forall₂ Item.Elsewhere is is') :
    Alike id Elsewhere (a.placeAll is) (a'.placeAll is') := by
  induction his generalizing a a' with
  | nil => exact .ok h
  | cons hi _ ih => exact (h.place hi).bind fun _ _ hb => ih hb

theorem record (h : a.Elsewhere a') (e : CompileError) : (a.record e).Elsewhere (a'.record e) := by
  cases h with
  | intro heap hbuffer => exact .intro heap hbuffer

theorem foldl_touch (h : a.Elsewhere a') (regs : List Nat) :
    (regs.foldl touch a).Elsewhere (regs.foldl touch a') := by
  induction regs generalizing a a' with
  | nil => exact h
  | cons reg regs ih =>
    refine ih ?_
    unfold touch
    split
    · exact h.record _
    · cases h with
      | intro heap hbuffer => exact .intro heap hbuffer

/-- The same tables are taken, each at an address of its own. -/
theorem readTables (h : a.Elsewhere a') (b : Block) :
    Elsewhere
      { a with
        bitTables := a.bitTables ++ b.bitTable.toArray
        boundaryLists := a.boundaryLists ++ b.boundaryList.toArray }
      { a' with
        bitTables := a'.bitTables ++ b.bitTable.toArray
        boundaryLists := a'.boundaryLists ++ b.boundaryList.toArray } := by
  cases h with
  | intro heap hbuffer => exact .intro heap hbuffer

/-- A block goes through item by item. Its tables come last, so its own items still have the address
of the next table. -/
theorem placeBlock (h : a.Elsewhere a') {b b' : Block} (hb : b.Elsewhere b') :
    Alike id Elsewhere (a.placeBlock b) (a'.placeBlock b') := by
  unfold Assembler.placeBlock
  rw [hb.registers, hb.error, hb.bitTable, hb.boundaryList]
  have hrecorded : ((b.error.map (b.registers.foldl touch a).record).getD
      (b.registers.foldl touch a)).Elsewhere
      ((b.error.map (b.registers.foldl touch a').record).getD (b.registers.foldl touch a')) := by
    cases b.error with
    | none => exact h.foldl_touch _
    | some e => exact (h.foldl_touch _).record e
  exact (hrecorded.readTables b).placeAll hb.items

theorem bind (h : a.Elsewhere a') (l : Label) : Alike id Elsewhere (a.bind l) (a'.bind l) := by
  have hlabels : a'.labels = a.labels := by
    cases h
    rfl
  rw [Assembler.bind, Assembler.bind, hlabels]
  refine .bind_same _ fun bound => ?_
  cases bound with
  | true => exact .ok (h.record _)
  | false => exact h.bindLabel l

/-- Lowering an opcode looks at no address, so both sides give the same block but for the addresses
in it. -/
theorem emitStage (h : a.Elsewhere a') (op : Opcode) :
    Alike id Elsewhere (a.emitStage op) (a'.emitStage op) := by
  have hblock : Alike id Elsewhere
      (lower a.mode a.labels.size a.nextTable a.isBound op >>= a.placeBlock)
      (lower a'.mode a'.labels.size a'.nextTable a'.isBound op >>= a'.placeBlock) := by
    have hlowered : Alike id Block.Elsewhere
        (lower a.mode a.labels.size a.nextTable a.isBound op)
        (lower a'.mode a'.labels.size a'.nextTable a'.isBound op) := by
      cases h
      exact lower_elsewhere _ _ _ _ _ op
    exact hlowered.bind fun _ _ hb => h.placeBlock hb
  cases op with
  | bind l => exact h.bind l
  | _ => exact hblock

theorem emitStages (h : a.Elsewhere a') (ops : List Opcode) :
    Alike id Elsewhere (a.emitStages ops) (a'.emitStages ops) := by
  induction ops generalizing a a' with
  | nil => exact .ok h
  | cons op ops ih => exact (h.emitStage op).bind fun _ _ hb => ih hb

/-- **An opcode is emitted alike wherever the tables are.** It is emitted in stages, and each stage
in items, so this is one lemma at each level up to here. -/
theorem emit (h : a.Elsewhere a') (op : Opcode) : Alike id Elsewhere (a.emit op) (a'.emit op) := by
  have hrefuses : a'.refuses op = a.refuses op := by
    cases h
    cases op with
    | onChar test dest => cases test <;> rfl
    | _ => rfl
  unfold Assembler.emit
  rw [hrefuses]
  split
  · exact .ok h
  · exact .bind_same _ fun ops => h.emitStages ops

end Elsewhere

theorem new_elsewhere (mode : Mode) (saved : Nat) (heap heap' : Nat → UInt64) :
    Alike id Elsewhere (Assembler.new mode saved heap) (Assembler.new mode saved heap') := by
  refine Elsewhere.placeAll ?_ (elsewhere_same _)
  split
  · exact .intro heap' (.refl _)
  · exact .intro heap' (.refl _)

end Assembler

/-! ### Compilations -/

namespace Compilation

/-- Two compilations differ only in where their tables are. -/
structure Elsewhere (c c' : Compilation) : Prop where
  /-- The assemblers. -/
  assembler : c.assembler.Elsewhere c'.assembler
  /-- The labels bound so far are the same. -/
  bound : c'.bound = c.bound
  /-- The code offsets so far are the same. -/
  offsets : c'.offsets = c.offsets

/-- A fault of the assembler becomes a failure of the compilation on both sides. -/
theorem alike_orFault {α β : Type} {kind : CompileFailure → CompileFailure}
    {kind' : Fault → Fault}
    (hkind : ∀ {f f'}, kind' f' = kind' f → kind (.fault f') = kind (.fault f))
    {R : α → β → Prop} {x : Except Fault α} {x' : Except Fault β} (h : Alike kind' R x x') :
    Alike kind R (orFault x) (orFault x') := by
  cases h with
  | ok h => exact .ok h
  | error h => exact .error (hkind h)

/-- A compilation starts with the same empty buffer wherever its tables will be. -/
theorem start_elsewhere (p : Program) (o : Options) (heap heap' : Nat → UInt64) :
    Alike id Elsewhere (start p o heap) (start p o heap') := by
  refine (alike_orFault (congrArg CompileFailure.fault)
    (Assembler.new_elsewhere o.mode p.saved heap heap')).bind fun a a' ha => ?_
  cases ha with
  | intro heap hbuffer =>
    refine .ok ⟨?_, rfl, rfl⟩
    cases o.backtrackLimit with
    | none => exact .intro heap hbuffer
    | some limit => exact .intro heap hbuffer

variable {c c' : Compilation}

theorem Elsewhere.step (h : c.Elsewhere c') (p : Program) (op : Opcode) :
    Alike id Elsewhere (c.step p op) (c'.step p op) := by
  have hmode := h.assembler.mode
  unfold Compilation.step
  rw [hmode, h.bound]
  split
  · exact .error rfl
  · refine (alike_orFault (congrArg CompileFailure.fault)
      (h.assembler.emit (op.mapLabels Label.shifted))).bind fun a a' ha => .ok ⟨ha, ?_, ?_⟩
    · simp only [mark, h.bound]
    · simp only [mark, h.offsets, h.assembler.size_buffer]

/-- **Opcodes are compiled alike wherever the tables are.** -/
theorem Elsewhere.steps (h : c.Elsewhere c') (p : Program) (ops : List Opcode) :
    Alike id Elsewhere (c.steps p ops) (c'.steps p ops) := by
  induction ops generalizing c c' with
  | nil => exact .ok h
  | cons op ops ih => exact (h.step p op).bind fun _ _ hd => ih hd

end Compilation

end NativeMatcher
