import Mathlib.Logic.Equiv.Basic
import NativeMatcher.Proofs.Emission
import NativeMatcher.Proofs.Relabelled

/-!
# Permuted labels

The numbers of a program's labels carry no meaning. Permuting them gives a program that compiles
exactly if the given one does, to the same machine code with the same registers and tables; and
where the given program has no code, the other one has none for a reason of the same kind
(`NativeMatcher.Program.compile_renamed`).

Every branch looks at the state of its label, so the two compilations are followed side by side.
What relates them is their label tables: the entry of a label in one is the entry of the renamed
label in the other (`NativeMatcher.Label.Table.Renamed`). The labels that are reserved for the
routines and those that are declared on the way are the same in both. Two things do depend on the
numbers: which label a report names, and which of several labels without a place comes first.
-/

namespace NativeMatcher

open Assembly Code X64

/-! ### Kinds of failures -/

/-- The kind of a report: all of it but the number of a label. -/
def CompileError.kind : CompileError → CompileError
  | .unboundLabel _ => .unboundLabel ⟨0⟩
  | .labelRebound _ => .labelRebound ⟨0⟩
  | .unknownLabel _ => .unknownLabel ⟨0⟩
  | .relocationSafety _ => .relocationSafety ⟨0⟩
  | e => e

/-- Two answers of the same kind: none, or a report each. -/
theorem CompileError.cases_of_kind {x x' : Option CompileError}
    (h : x'.map CompileError.kind = x.map CompileError.kind) :
    x = none ∧ x' = none ∨ ∃ e e', x = some e ∧ x' = some e' ∧ e'.kind = e.kind := by
  cases x with
  | none => exact .inl ⟨rfl, by simpa using h⟩
  | some e =>
    obtain ⟨e', rfl, hkind⟩ : ∃ e', x' = some e' ∧ e'.kind = e.kind := by simpa using h
    exact .inr ⟨e, e', rfl, rfl, hkind⟩

/-- The kind of a fault: all of it but the number of a label. -/
def Fault.kind : Fault → Fault
  | .labelBoundTwice _ => .labelBoundTwice 0
  | .useOfBoundLabel _ => .useOfBoundLabel 0
  | f => f

/-- The kind of a failure. -/
def CompileFailure.kind : CompileFailure → CompileFailure
  | .fault f => .fault f.kind
  | .error e => .error e.kind

/-! ### Permutations of labels -/

namespace Label

/-- The `n` labels from `base` on. -/
def block (base n : Nat) : Fin n ≃ { l : Label // base ≤ l.index ∧ l.index < base + n } where
  toFun i := ⟨⟨base + i⟩, Nat.le_add_right _ _, Nat.add_lt_add_left i.isLt _⟩
  invFun l := ⟨l.1.index - base, by have := l.2; omega⟩
  left_inv i := by simp
  right_inv l := by
    obtain ⟨⟨i⟩, hle, hlt⟩ := l
    simp only [Subtype.mk.injEq, Label.mk.injEq] at hle ⊢
    omega

/-- Permutes the `n` labels from `base` on and leaves the others alone. -/
def permute (base : Nat) {n : Nat} (σ : Equiv.Perm (Fin n)) : Equiv.Perm Label :=
  σ.extendDomain (block base n)

variable {base n : Nat} {σ : Equiv.Perm (Fin n)}

theorem permute_add (base : Nat) (σ : Equiv.Perm (Fin n)) (i : Fin n) :
    permute base σ ⟨base + i⟩ = ⟨base + σ i⟩ :=
  σ.extendDomain_apply_image (block base n) i

theorem permute_zero (σ : Equiv.Perm (Fin n)) (i : Fin n) : permute 0 σ ⟨i⟩ = ⟨σ i⟩ := by
  simpa using permute_add 0 σ i

theorem permute_of_lt {l : Label} (h : l.index < base) : permute base σ l = l :=
  σ.extendDomain_apply_not_subtype _ fun hl => absurd hl.1 (Nat.not_le.mpr h)

theorem permute_of_le {l : Label} (h : base + n ≤ l.index) : permute base σ l = l :=
  σ.extendDomain_apply_not_subtype _ fun hl => absurd hl.2 (Nat.not_lt.mpr h)

theorem permute_reserved (r : Reserved) : permute reservedLabels σ r.label = r.label :=
  permute_of_lt (index_label_lt r)

/-- The labels of a program are permuted in place. -/
theorem permute_shifted (σ : Equiv.Perm (Fin n)) (l : Label) :
    permute reservedLabels σ l.shifted = (permute 0 σ l).shifted := by
  obtain ⟨i⟩ := l
  by_cases hi : i < n
  · rw [permute_zero σ ⟨i, hi⟩]
    exact permute_add reservedLabels σ ⟨i, hi⟩
  · have hle : n ≤ i := Nat.le_of_not_lt hi
    have hzero : permute 0 σ ⟨i⟩ = ⟨i⟩ := permute_of_le (by simpa using hle)
    rw [hzero]
    exact permute_of_le (Nat.add_le_add_left hle _)

/-- A permutation of the labels of a program keeps them among these labels, so nothing changes for a
test whether a label is one of them. -/
theorem index_permute_lt_iff (σ : Equiv.Perm (Fin n)) (l : Label) :
    (permute 0 σ l).index < n ↔ l.index < n := by
  obtain ⟨i⟩ := l
  by_cases hi : i < n
  · rw [permute_zero σ ⟨i, hi⟩]
    exact iff_of_true (σ ⟨i, hi⟩).isLt hi
  · rw [permute_of_le (by simpa using hi)]

end Label

/-- The same program with its labels permuted. A label beyond those of the program stays. -/
def Program.renamed (p : Program) (σ : Equiv.Perm (Fin p.labels)) : Program where
  opcodes := p.opcodes.map (Opcode.mapLabels (Label.permute 0 σ))
  labels := p.labels
  saved := p.saved

example : (Program.renamed ⟨#[.goTo (some ⟨0⟩), .bind ⟨1⟩, .bind ⟨2⟩], 2, 0⟩
    (Equiv.swap 0 1)).opcodes = #[.goTo (some ⟨1⟩), .bind ⟨0⟩, .bind ⟨2⟩] := by
  decide +kernel

/-! ### Label tables -/

namespace Label.Table

/-- The entry of a label in one table is the entry of the renamed label in the other. Only labels
of the table are renamed. -/
structure Renamed (g : Equiv.Perm Label) (t t' : Table) : Prop where
  /-- There are as many labels. -/
  size : t'.size = t.size
  /-- The entries are the same under the new labels. -/
  entries : ∀ l, t'.entries[(g l).index]? = t.entries[l.index]?
  /-- The labels that are not declared yet keep their numbers. -/
  fresh : ∀ l : Label, t.size ≤ l.index → g l = l

/-- Whether some label was used and never had its place does not depend on the order of the labels,
only on the entries there are. Which label is found first does. -/
theorem isSome_firstUnresolved_iff (t : Table) :
    t.firstUnresolved.isSome = true ↔
      ∃ l : Label, ∃ e, t.entries[l.index]? = some e ∧ e.isLinked = true := by
  simp only [firstUnresolved, Option.isSome_map, Array.findIdx?_isSome, Array.any_eq_true,
    Array.getElem?_eq_some_iff]
  constructor
  · rintro ⟨i, hi, hlinked⟩
    exact ⟨⟨i⟩, _, ⟨hi, rfl⟩, hlinked⟩
  · rintro ⟨l, _, ⟨hl, rfl⟩, hlinked⟩
    exact ⟨l.index, hl, hlinked⟩

namespace Renamed

variable {g : Equiv.Perm Label} {t t' : Table} (h : Renamed g t t')

include h

theorem entry (l : Label) : t'.entry (g l) = t.entry l := by
  rw [Table.entry, Table.entry, h.entries]
  cases hl : t.entries[l.index]? with
  | some e => rfl
  | none =>
    -- A label that is not declared keeps its number, so the faults agree as well.
    have hsize : t'.entries.size = t.entries.size := h.size
    rw [h.fresh l (Array.getElem?_eq_none_iff.mp hl), hsize]

theorem pos (l : Label) : t'.pos (g l) = t.pos l := by
  rw [Table.pos, Table.pos, h.entry]

theorem isBound (l : Label) : t'.isBound (g l) = t.isBound l := by
  rw [Table.isBound, Table.isBound, h.entry]

theorem isLinked (l : Label) : t'.isLinked (g l) = t.isLinked l := by
  rw [Table.isLinked, Table.isLinked, h.entry]

theorem index_lt_iff (l : Label) : (g l).index < t'.entries.size ↔ l.index < t.entries.size := by
  rw [← Nat.not_le, ← Nat.not_le, ← Array.getElem?_eq_none_iff, ← Array.getElem?_eq_none_iff,
    h.entries]

/-- The label that is made next is the same in both tables, and it is not renamed. -/
theorem index_eq_iff (l : Label) : (g l).index = t'.entries.size ↔ l.index = t.entries.size := by
  have hsize : t'.entries.size = t.entries.size := h.size
  rw [hsize]
  constructor
  · intro hl
    -- Already the renamed label is not declared yet, so it is the label itself.
    have hfixed : g (g l) = g l := h.fresh _ (Nat.le_of_eq hl.symm)
    rwa [← g.injective hfixed]
  · intro hl
    rwa [h.fresh l (Nat.le_of_eq hl.symm)]

theorem set (l : Label) (e : Entry) : Renamed g (t.set l e) (t'.set (g l) e) := by
  refine ⟨by rw [size_set, size_set, h.size], fun k => ?_, by simpa using h.fresh⟩
  by_cases hk : k = l
  · subst hk
    simp [Table.set, Array.getElem?_setIfInBounds, h.index_lt_iff]
  · have hne : l.index ≠ k.index := fun heq => hk (congrArg Label.mk heq.symm)
    have hne' : (g l).index ≠ (g k).index := fun heq =>
      hk (g.injective (congrArg Label.mk heq.symm))
    simp [Table.set, hne, hne', h.entries]

theorem declare : Renamed g t.declare.1 t'.declare.1 := by
  refine ⟨by simp [h.size], fun l => ?_, fun l hl => h.fresh l ?_⟩
  · simp [Table.declare, Array.getElem?_push, h.index_eq_iff, h.entries]
  · rw [size_declare] at hl
    exact Nat.le_of_succ_le hl

theorem addUse (l : Label) (u : Use) :
    Alike Fault.kind (Renamed g) (t.addUse l u) (t'.addUse (g l) u) := by
  rw [Table.addUse, Table.addUse, h.entry]
  refine .bind_same _ fun e => ?_
  cases e.pos with
  | some _ => exact .error rfl
  | none => exact .ok (h.set l _)

theorem bind (l : Label) (offset : Nat) :
    Alike Fault.kind (fun r r' => Renamed g r.1 r'.1 ∧ r'.2 = r.2) (t.bind l offset)
      (t'.bind (g l) offset) := by
  rw [Table.bind, Table.bind, h.entry]
  refine .bind_same _ fun e => ?_
  cases e.pos with
  | some _ => exact .error rfl
  | none => exact .ok ⟨h.set l _, rfl⟩

/-- Which label is the first without a place depends on the numbers, whether there is one does
not. -/
theorem isSome_firstUnresolved : t'.firstUnresolved.isSome = t.firstUnresolved.isSome := by
  rw [Bool.eq_iff_iff, isSome_firstUnresolved_iff, isSome_firstUnresolved_iff,
    ← g.exists_congr_right]
  simp only [h.entries]

end Renamed

/-- Labels that have just been declared can be permuted. -/
theorem renamed_declareMany {t : Table} {base n : Nat} (ht : t.size = base)
    (σ : Equiv.Perm (Fin n)) :
    (t.declareMany n).Renamed (permute base σ) (t.declareMany n) := by
  subst ht
  have hblank (i : Fin n) : (t.declareMany n).entries[t.size + i]? = some {} := by
    simp [declareMany, Table.size]
  refine ⟨rfl, fun l => ?_, fun l hl => permute_of_le ?_⟩
  · by_cases hlow : l.index < t.size
    · rw [permute_of_lt hlow]
    · by_cases hhigh : t.size + n ≤ l.index
      · rw [permute_of_le hhigh]
      · obtain ⟨i, rfl⟩ : ∃ i : Fin n, l = ⟨t.size + i⟩ :=
          ⟨⟨l.index - t.size, by omega⟩, congrArg Label.mk (by simp only; omega)⟩
        rw [permute_add, hblank, hblank]
  · simpa [declareMany, Table.size] using hl

end Label.Table

/-! ### Assemblers -/

namespace Assembler

/-- The same assembler under renamed labels, with its own label table and error. -/
def relabelled (g : Label → Label) (labels : Label.Table) (error : Option CompileError)
    (a : Assembler) : Assembler :=
  { a with
    labels := labels
    error := error
    callSites := a.callSites.map g
    stubs := a.stubs.map g }

/-- Two assemblers differ in the numbers of labels only: in their label tables, in the calls and
stubs they note, and in the label that an error names. -/
inductive Renamed (g : Equiv.Perm Label) (a : Assembler) : Assembler → Prop
  | intro {labels : Label.Table} {error : Option CompileError}
    (hlabels : a.labels.Renamed g labels)
    (herror : error.map CompileError.kind = a.error.map CompileError.kind) :
    Renamed g a (a.relabelled g labels error)

namespace Renamed

variable {g : Equiv.Perm Label} {a a' : Assembler}

/-- An assembler that has noted no calls and no stubs can be its own renaming. -/
theorem of_blank (hlabels : a.labels.Renamed g a.labels) (hcalls : a.callSites = #[])
    (hstubs : a.stubs = []) : Renamed g a a := by
  have hself : a.relabelled g a.labels a.error = a := by
    cases a
    simp_all [relabelled]
  have hrenamed : Renamed g a (a.relabelled g a.labels a.error) := .intro hlabels rfl
  rwa [hself] at hrenamed

theorem labels (h : Renamed g a a') : a.labels.Renamed g a'.labels := by
  cases h with
  | intro hlabels herror => exact hlabels

theorem buffer (h : Renamed g a a') : a'.buffer = a.buffer := by
  cases h with
  | intro hlabels herror => rfl

theorem mode (h : Renamed g a a') : a'.mode = a.mode := by
  cases h with
  | intro hlabels herror => rfl

theorem nextTable (h : Renamed g a a') : a'.nextTable = a.nextTable := by
  cases h with
  | intro hlabels herror => rfl

theorem isBound (h : Renamed g a a') (l : Label) : a'.isBound (g l) = a.isBound l := by
  rw [Assembler.isBound, Assembler.isBound, h.labels.isBound]

theorem append (h : Renamed g a a') (bs : List UInt8) :
    Alike Fault.kind (Renamed g) (a.append bs) (a'.append bs) := by
  cases h with
  | intro hlabels herror => exact .bind_same _ fun buffer => .ok ⟨hlabels, herror⟩

/-- A label that is given its place has the same uses to patch, so the bytes remain equal. -/
theorem bindLabel (h : Renamed g a a') (l : Label) :
    Alike Fault.kind (Renamed g) (a.bindLabel l) (a'.bindLabel (g l)) := by
  cases h with
  | intro hlabels herror =>
    refine (hlabels.bind l a.buffer.size).bind ?_
    rintro ⟨labels, uses⟩ ⟨labels', _⟩ ⟨hlabels', rfl⟩
    exact .bind_same _ fun buffer => .ok ⟨hlabels', herror⟩

/-- The last four bytes wait for a label. -/
theorem addUse (h : Renamed g a a') (l : Label) (kind : Label.FieldKind) :
    Alike Fault.kind (Renamed g)
      (a.labels.addUse l ⟨a.buffer.size - 4, kind⟩ >>= fun labels =>
        return { a with labels := labels })
      (a'.labels.addUse (g l) ⟨a'.buffer.size - 4, kind⟩ >>= fun labels =>
        return { a' with labels := labels }) := by
  cases h with
  | intro hlabels herror =>
    exact (hlabels.addUse l _).bind fun labels labels' hlabels' => .ok ⟨hlabels', herror⟩

/-- A branch to a label that has its place has the same distance; one to a label that does not
leaves the same gap to patch. -/
theorem branchTo (h : Renamed g a a') (b : Branch) (l : Label) :
    Alike Fault.kind (Renamed g) (a.branchTo b l) (a'.branchTo b (g l)) := by
  rw [Assembler.branchTo, Assembler.branchTo, h.labels.pos, h.buffer]
  refine .bind_same _ fun target => ?_
  cases target with
  | some target => exact .bind_same _ fun i => h.append _
  | none => exact (h.append _).bind fun b b' hb => hb.addUse l _

/-- The offset of a label is stored, or left to be patched, as in a branch. -/
theorem storeTarget (h : Renamed g a a') (l : Label) :
    Alike Fault.kind (Renamed g) (a.storeTarget l) (a'.storeTarget (g l)) := by
  rw [Assembler.storeTarget, Assembler.storeTarget, h.labels.pos]
  refine .bind_same _ fun target => ?_
  cases target with
  | some target => exact h.append _
  | none => exact (h.append _).bind fun b b' hb => hb.addUse l _

/-- A call to a stub is noted under the renamed label; stubs are reserved, so in fact it is the same
one. -/
theorem noteCall (h : Renamed g a a') (l : Label) :
    Renamed g { a with callSites := a.callSites.push l }
      { a' with callSites := a'.callSites.push (g l) } := by
  cases h with
  | intro hlabels herror =>
    have hnoted : Renamed g { a with callSites := a.callSites.push l } _ := .intro hlabels herror
    rwa [relabelled, Array.map_push] at hnoted

theorem noteStub (h : Renamed g a a') (l : Label) :
    Renamed g { a with stubs := l :: a.stubs } { a' with stubs := g l :: a'.stubs } := by
  cases h with
  | intro hlabels herror => exact ⟨hlabels, herror⟩

/-- **A renamed item is placed alike.** The two label tables hold the same entries under different
labels, and an entry is all that an item needs of its label. -/
theorem place (h : Renamed g a a') (i : Item) :
    Alike Fault.kind (Renamed g) (a.place i) (a'.place (i.mapLabels g)) := by
  cases i with
  | instr i => exact h.append _
  | branch b l =>
    by_cases hb : b = .call
    · simpa only [Assembler.place, mapLabels_branch, if_pos hb] using (h.noteCall l).branchTo b l
    · simpa only [Assembler.place, mapLabels_branch, if_neg hb] using h.branchTo b l
  | declare =>
    cases h with
    | intro hlabels herror => exact .ok ⟨hlabels.declare, herror⟩
  | bind l => exact h.bindLabel l
  | stub l => exact (h.bindLabel l).bind fun b b' hb => (hb.noteStub l).append _
  | storeTarget l => exact h.storeTarget l

theorem placeAll (h : Renamed g a a') (is : List Item) :
    Alike Fault.kind (Renamed g) (a.placeAll is) (a'.placeAll (is.map (Item.mapLabels g))) := by
  induction is generalizing a a' with
  | nil => exact .ok h
  | cons i is ih => exact (h.place i).bind fun b b' hb => ih hb

theorem record (h : Renamed g a a') {e e' : CompileError} (he : e'.kind = e.kind) :
    Renamed g (a.record e) (a'.record e') := by
  cases h with
  | @intro labels error hlabels herror =>
    have hfirst : (error <|> some e').map CompileError.kind =
        (a.error <|> some e).map CompileError.kind := by
      obtain ⟨hx, rfl⟩ | ⟨x, x', hx, rfl, hkind⟩ := CompileError.cases_of_kind herror
      · rw [hx]
        exact congrArg some he
      · rw [hx]
        exact congrArg some hkind
    exact ⟨hlabels, hfirst⟩

theorem bind (h : Renamed g a a') (l : Label) :
    Alike Fault.kind (Renamed g) (a.bind l) (a'.bind (g l)) := by
  rw [Assembler.bind, Assembler.bind, h.labels.isBound]
  refine .bind_same _ fun bound => ?_
  cases bound with
  | true => exact .ok (h.record rfl)
  | false => exact h.bindLabel l

theorem touch (h : Renamed g a a') (reg : Nat) : Renamed g (a.touch reg) (a'.touch reg) := by
  unfold Assembler.touch
  split
  · exact h.record rfl
  · cases h with
    | intro hlabels herror => exact ⟨hlabels, herror⟩

theorem foldl_touch (h : Renamed g a a') (regs : List Nat) :
    Renamed g (regs.foldl Assembler.touch a) (regs.foldl Assembler.touch a') := by
  induction regs generalizing a a' with
  | nil => exact h
  | cons reg regs ih => exact ih (h.touch reg)

/-- Tables hold no labels, so taking the tables of a block is the same on both sides. -/
theorem readTables (h : Renamed g a a') (b : Block) :
    Renamed g
      { a with
        bitTables := a.bitTables ++ b.bitTable.toArray
        boundaryLists := a.boundaryLists ++ b.boundaryList.toArray }
      { a' with
        bitTables := a'.bitTables ++ b.bitTable.toArray
        boundaryLists := a'.boundaryLists ++ b.boundaryList.toArray } := by
  cases h with
  | intro hlabels herror => exact ⟨hlabels, herror⟩

/-- A block goes through item by item, then its tables and the registers it touches. -/
theorem placeBlock (h : Renamed g a a') (b : Block) :
    Alike Fault.kind (Renamed g) (a.placeBlock b) (a'.placeBlock (b.mapLabels g)) := by
  have htouched := h.foldl_touch b.registers
  have hrecorded : Renamed g ((b.error.map (b.registers.foldl Assembler.touch a).record).getD
      (b.registers.foldl Assembler.touch a))
      ((b.error.map (b.registers.foldl Assembler.touch a').record).getD
        (b.registers.foldl Assembler.touch a')) := by
    cases b.error with
    | none => exact htouched
    | some e => exact htouched.record rfl
  exact (hrecorded.readTables b).placeAll b.items

theorem refuses (h : Renamed g a a') (op : Opcode) :
    a'.refuses (op.mapLabels g) = a.refuses op := by
  cases h with
  | intro hlabels herror => exact op.refuses_mapLabels g a

theorem items (h : Renamed g a a') {s : Section} (hs : s ∈ sections) : s.items a' = s.items a := by
  cases h with
  | @intro labels error hlabels herror =>
    simp only [sections, List.mem_cons, List.not_mem_nil, or_false] at hs
    rcases hs with rfl | rfl | rfl | rfl | rfl | rfl | rfl | rfl | rfl
    · exact congrArg (Assembly.entry a.mode a.registers) hlabels.size
    · exact congrArg (Assembly.success a.mode a.globalMode a.saved) hlabels.size
    · rfl
    · exact congrArg (Assembly.backtrack a.backtrackLimit a.canFallback) hlabels.size
    all_goals rfl

/-- Whether something is wrong with the labels does not depend on their numbers, and what it is
does not either. -/
theorem labelError? (h : Renamed g a a') :
    a'.labelError?.map CompileError.kind = a.labelError?.map CompileError.kind := by
  have hopen := h.labels.isSome_firstUnresolved
  cases h with
  | @intro labels error hlabels herror =>
    have hcall : (a.callSites.map g).find? (fun l => !(a.stubs.map g).contains l) =
        (a.callSites.find? fun l => !a.stubs.contains l).map g := by
      simp [Array.find?_map, Function.comp_def]
    simp only [Assembler.labelError?, relabelled] at hopen ⊢
    rw [hcall]
    cases hlinked : a.labels.firstUnresolved with
    | some l =>
      rw [hlinked, Option.isSome_some, Option.isSome_iff_exists] at hopen
      obtain ⟨l', hl'⟩ := hopen
      rw [hl']
      rfl
    | none =>
      rw [hlinked, Option.isSome_none, Option.isSome_eq_false_iff,
        Option.isNone_iff_eq_none] at hopen
      rw [hopen, Option.map_map, Option.map_map, Option.map_map]
      rfl

/-- At the end the kind of the first error is the same. The label it names need not be, since labels
are searched in the order of their indices. -/
theorem finishError? (h : Renamed g a a') :
    a'.finishError?.map CompileError.kind = a.finishError?.map CompileError.kind := by
  cases h with
  | @intro labels error hlabels herror =>
    obtain ⟨hx, rfl⟩ | ⟨x, x', hx, rfl, hkind⟩ := CompileError.cases_of_kind herror
    · simp only [Assembler.finishError?, relabelled, hx]
      rfl
    · cases hf : a.finalized <;> cases hd : a.aborted <;>
        simp [Assembler.finishError?, relabelled, hx, hf, hd, hkind]

theorem finalize (h : Renamed g a a') :
    Renamed g { a with finalized := true } { a' with finalized := true } := by
  cases h with
  | intro hlabels herror => exact ⟨hlabels, herror⟩

theorem object (h : Renamed g a a') (source : String) : a'.object source = a.object source := by
  cases h with
  | intro hlabels herror => rfl

end Renamed

end Assembler

/-! ### Emission -/

namespace Assembler.Renamed

variable {g : Equiv.Perm Label} {a a' : Assembler} (hg : ∀ r : Reserved, g r.label = r.label)

include hg

theorem keeps (h : Renamed g a a') : Keeps g a.labels.size := ⟨hg, h.labels.fresh⟩

/-- An opcode of a renamed program is lowered to the renamed items, so this is the case of a
block. -/
theorem emitStage (h : Renamed g a a') (op : Opcode) :
    Alike Fault.kind (Renamed g) (a.emitStage op) (a'.emitStage (op.mapLabels g)) := by
  have hlower := (h.keeps hg).lower h.isBound a.mode a.nextTable op
  have hblock : Alike Fault.kind (Renamed g)
      (Assembly.lower a.mode a.labels.size a.nextTable a.isBound op >>= a.placeBlock)
      (Assembly.lower a'.mode a'.labels.size a'.nextTable a'.isBound (op.mapLabels g) >>=
        a'.placeBlock) := by
    rw [h.mode, h.labels.size, h.nextTable, hlower, bind_map_left]
    exact .bind_same _ h.placeBlock
  cases op with
  | bind l => exact h.bind l
  | _ => exact hblock

theorem emitStages (h : Renamed g a a') (ops : List Opcode) :
    Alike Fault.kind (Renamed g) (a.emitStages ops)
      (a'.emitStages (ops.map (Opcode.mapLabels g))) := by
  induction ops generalizing a a' with
  | nil => exact .ok h
  | cons op ops ih => exact (h.emitStage hg op).bind fun b b' hb => ih hb

/-- **A renamed opcode is emitted alike.** -/
theorem emit (h : Renamed g a a') (op : Opcode) :
    Alike Fault.kind (Renamed g) (a.emit op) (a'.emit (op.mapLabels g)) := by
  unfold Assembler.emit
  rw [h.refuses, stages_mapLabels, bind_map_left]
  split
  · exact .ok h
  · exact .bind_same _ (h.emitStages hg)

/-! ### The end -/

/-- The closing code has reserved labels only, and it is emitted on both sides or on neither. -/
theorem placeSection (h : Renamed g a a') {s : Section} (hs : s ∈ sections) :
    Alike Fault.kind (Renamed g) (a.placeSection s) (a'.placeSection s) := by
  have hitems := h.items hs
  have hplaced := h.placeAll (s.items a)
  rw [mapLabels_items hs (h.keeps hg)] at hplaced
  unfold Assembler.placeSection
  split
  · next r hr =>
    rw [placeIfLinked, placeIfLinked, ← hg r, h.labels.isLinked, hg r, hitems]
    refine .bind_same _ fun linked => ?_
    cases linked with
    | true => exact hplaced
    | false => exact .ok h
  · rwa [hitems]

/-- All of the closing code, by induction on the sections. -/
theorem placeSections (h : Renamed g a a') {ss : List Section} (hss : ∀ s ∈ ss, s ∈ sections) :
    Alike Fault.kind (Renamed g) (ss.foldlM Assembler.placeSection a)
      (ss.foldlM Assembler.placeSection a') := by
  induction ss generalizing a a' with
  | nil => exact .ok h
  | cons s ss ih =>
    rw [List.forall_mem_cons] at hss
    exact (h.placeSection hg hss.1).bind fun b b' hb => ih hb hss.2

/-- **Renamed assemblers hand out the same code**, or report something of the same kind. A label
without a place is reported for both; which one it is depends on the order in which labels are
searched. -/
theorem finish (h : Renamed g a a') (source : String) :
    Alike Fault.kind (fun r r' => Alike CompileError.kind Eq r.2 r'.2) (a.finish source)
      (a'.finish source) := by
  unfold Assembler.finish
  obtain ⟨hx, hx'⟩ | ⟨e, e', hx, hx', hkind⟩ := CompileError.cases_of_kind h.finishError?
  · rw [hx, hx', placeRoutines_eq, placeRoutines_eq]
    refine (h.finalize.placeSections hg fun _ hs => hs).bind fun b b' hb => ?_
    obtain ⟨hy, hy'⟩ | ⟨e, e', hy, hy', hkind⟩ := CompileError.cases_of_kind hb.labelError?
    · rw [hy, hy']
      exact .ok (.ok (hb.object source).symm)
    · rw [hy, hy']
      exact .ok (.error hkind)
  · rw [hx, hx']
    exact .ok (.error hkind)

end Assembler.Renamed

/-! ### Compilation -/

namespace Program

variable (p : Program) (σ : Equiv.Perm (Fin p.labels))

/-- A branch to a label that is not the program's is refused on both sides. -/
theorem targetError?_renamed (dest : Target) :
    ((p.renamed σ).targetError? (dest.map (Label.permute 0 σ))).map CompileError.kind =
      (p.targetError? dest).map CompileError.kind := by
  cases dest with
  | none => rfl
  | some l =>
    have hlt : (Label.permute 0 σ l).index < (p.renamed σ).labels ↔ l.index < p.labels :=
      Label.index_permute_lt_iff σ l
    by_cases hl : l.index < p.labels
    · simp [targetError?, hlt, hl]
    · simp [targetError?, hlt, hl, CompileError.kind]

/-- A label that is bound twice, or is not the program's, is refused on both sides. -/
theorem bindError?_renamed (bound : List Label) (l : Label) :
    ((p.renamed σ).bindError? (bound.map (Label.permute 0 σ)) (Label.permute 0 σ l)).map
        CompileError.kind = (p.bindError? bound l).map CompileError.kind := by
  obtain ⟨hx, hx'⟩ | ⟨e, e', hx, hx', hkind⟩ :=
    CompileError.cases_of_kind (p.targetError?_renamed σ (some l))
  · rw [Option.map_some] at hx'
    by_cases hl : l ∈ bound
    · simp [bindError?, hx, hx', hl, CompileError.kind]
    · simp [bindError?, hx, hx', hl]
  · rw [Option.map_some] at hx'
    simp [bindError?, hx, hx', hkind]

/-- **A renamed opcode is rejected for the same kind of reason.** The labels that it names are those
of the program on both sides, and they are bound before on both sides or on neither. -/
theorem opcodeError?_renamed (mode : Mode) (bound : List Label) (op : Opcode) :
    ((p.renamed σ).opcodeError? mode (bound.map (Label.permute 0 σ))
        (op.mapLabels (Label.permute 0 σ))).map CompileError.kind =
      (p.opcodeError? mode bound op).map CompileError.kind := by
  have htarget := p.targetError?_renamed σ op.label?
  rw [← Opcode.label?_mapLabels] at htarget
  cases op with
  | bind l => exact p.bindError?_renamed σ bound l
  | onChar test dest =>
    cases test with
    | inTable t =>
      simp only [opcodeError?, Opcode.mapLabels]
      split
      · exact htarget
      · rfl
    | inRanges _ | notInRanges _ | notInClass _ =>
      -- These tests have to meet a condition of their own, which comes after the target.
      obtain ⟨hx, hx'⟩ | ⟨e, e', hx, hx', hkind⟩ :=
        CompileError.cases_of_kind (p.targetError?_renamed σ dest)
      · simp only [opcodeError?, Opcode.mapLabels, hx, hx']
      · simp only [opcodeError?, Opcode.mapLabels, hx, hx', Option.map_some, hkind]
    | _ => exact htarget
  | _ => exact htarget

end Program

namespace Compilation

open Assembler

/-- The compilation of a program and that of the program with its labels permuted. -/
structure Renamed {n : Nat} (σ : Equiv.Perm (Fin n)) (c c' : Compilation) : Prop where
  /-- The assemblers. -/
  assembler : c.assembler.Renamed (Label.permute reservedLabels σ) c'.assembler
  /-- The labels bound so far. -/
  bound : c'.bound = c.bound.map (Label.permute 0 σ)
  /-- The code offsets so far. -/
  offsets : c'.offsets = c.offsets

theorem kind_fault {f f' : Fault} (h : f'.kind = f.kind) :
    CompileFailure.kind (.fault f') = CompileFailure.kind (.fault f) :=
  congrArg CompileFailure.fault h

variable {p : Program} {σ : Equiv.Perm (Fin p.labels)} {o : Options} {c c' : Compilation}

/-- A new assembler has the reserved labels only, and no call or stub has been noted. -/
theorem blank_of_new {mode : Mode} {saved : Nat} {heap : Nat → UInt64} {a : Assembler}
    (h : Assembler.new mode saved heap = .ok a) :
    a.labels.size = reservedLabels ∧ a.callSites = #[] ∧ a.stubs = [] := by
  simp only [Assembler.new] at h
  split at h
  · cases h
    exact ⟨rfl, rfl, rfl⟩
  · cases h
    exact ⟨rfl, rfl, rfl⟩

/-- At the start the labels of the program are all alike, so nothing tells a compilation from the
renamed one. -/
theorem renamed_start {heap : Nat → UInt64} (h : start p o heap = .ok c) : Renamed σ c c := by
  obtain ⟨a, ha, hc⟩ := bind_eq_ok.mp h
  obtain ⟨hsize, hcalls, hstubs⟩ := blank_of_new (Compilation.eq_ok_of_orFault ha)
  obtain rfl := Except.ok.inj hc
  refine ⟨?_, rfl, rfl⟩
  have htable := Label.Table.renamed_declareMany hsize σ
  cases o.backtrackLimit with
  | none => exact .of_blank htable hcalls hstubs
  | some limit => exact .of_blank htable hcalls hstubs

theorem Renamed.mark (h : Renamed σ c c') : Renamed σ c.mark c'.mark :=
  ⟨h.assembler, h.bound, by simp [Compilation.mark, h.offsets, h.assembler.buffer]⟩

theorem mapLabels_shifted (σ : Equiv.Perm (Fin p.labels)) (op : Opcode) :
    (op.mapLabels (Label.permute 0 σ)).mapLabels Label.shifted =
      (op.mapLabels Label.shifted).mapLabels (Label.permute reservedLabels σ) := by
  rw [Opcode.mapLabels_mapLabels, Opcode.mapLabels_mapLabels]
  exact congrArg (fun f => op.mapLabels f) (funext fun l => (Label.permute_shifted σ l).symm)

/-- **A renamed opcode is checked and emitted alike.** This is the step of the simulation between
the two compilations. -/
theorem Renamed.step (h : Renamed σ c c') (op : Opcode) :
    Alike CompileFailure.kind (Renamed σ) (c.step p op)
      (c'.step (p.renamed σ) (op.mapLabels (Label.permute 0 σ))) := by
  have herror := p.opcodeError?_renamed σ c.assembler.mode c.bound op
  unfold Compilation.step
  rw [h.assembler.mode, h.bound]
  obtain ⟨hx, hx'⟩ | ⟨e, e', hx, hx', hkind⟩ := CompileError.cases_of_kind herror
  · rw [hx, hx', mapLabels_shifted]
    refine (alike_orFault kind_fault (h.mark.assembler.emit Label.permute_reserved _)).bind
      fun a a' ha => .ok ⟨ha, ?_, h.mark.offsets⟩
    have hbound : c'.mark.bound = c.mark.bound.map (Label.permute 0 σ) := h.bound
    cases op with
    | bind l => exact congrArg (_ :: ·) hbound
    | _ => exact hbound
  · rw [hx, hx']
    exact .error (congrArg CompileFailure.error hkind)

theorem Renamed.steps (h : Renamed σ c c') (ops : List Opcode) :
    Alike CompileFailure.kind (Renamed σ) (c.steps p ops)
      (c'.steps (p.renamed σ) (ops.map (Opcode.mapLabels (Label.permute 0 σ)))) := by
  induction ops generalizing c c' with
  | nil => exact .ok h
  | cons op ops ih => exact (h.step op).bind fun d d' hd => ih hd

end Compilation

namespace Program

open Compilation

/-- **Compilation does not see the order of labels.** The compilation of the renamed program fails
with an error of the same kind, or gives the same matcher but for the program that is kept with it.
By the relation between the two compilations, which the start establishes, each opcode keeps and the
closing code keeps. -/
theorem alike_compile (p : Program) (σ : Equiv.Perm (Fin p.labels)) (o : Options)
    (source : String) (heap : Nat → UInt64) :
    Alike CompileFailure.kind (fun m m' => m' = { m with program := p.renamed σ })
      (p.compile o source heap) ((p.renamed σ).compile o source heap) := by
  have hopcodes : (p.renamed σ).opcodes.toList =
      p.opcodes.toList.map (Opcode.mapLabels (Label.permute 0 σ)) := Array.toList_map
  unfold compile
  rw [hopcodes]
  have hstart : Alike CompileFailure.kind (Renamed σ) (start p o heap)
      (start (p.renamed σ) o heap) :=
    .of_ok fun c hc => renamed_start hc
  refine hstart.bind fun c c' hc => ?_
  refine (hc.steps _).bind fun d d' hd => ?_
  refine (alike_orFault kind_fault (hd.assembler.finish Label.permute_reserved source)).bind ?_
  rintro ⟨b, result⟩ ⟨b', result'⟩ hresult
  cases hresult with
  | ok hobject =>
    obtain rfl := hobject
    exact .ok (by rw [hd.offsets])
  | error hkind => exact .error (congrArg CompileFailure.error hkind)

/-- **Permuting the labels of a program does not change its code.** The renamed program compiles
exactly if the given one does; with the tables at the same places the machine code, the numbers of
registers, the tables and the code offsets of the opcodes are the same. If there is no code, the
renamed program has none for a reason of the same kind. -/
theorem compile_renamed (p : Program) (σ : Equiv.Perm (Fin p.labels)) (o : Options)
    (source : String) (heap : Nat → UInt64) :
    match p.compile o source heap with
    | .ok m => (p.renamed σ).compile o source heap = .ok { m with program := p.renamed σ }
    | .error f => ∃ f', (p.renamed σ).compile o source heap = .error f' ∧ f'.kind = f.kind := by
  have halike := p.alike_compile σ o source heap
  revert halike
  generalize p.compile o source heap = x
  generalize (p.renamed σ).compile o source heap = x'
  rintro (hm | hkind)
  · exact congrArg Except.ok hm
  · exact ⟨_, rfl, hkind⟩

end Program

end NativeMatcher
