import NativeMatcher.Proofs.Regular

/-!
# Control flow of compiled code

Compiled code is a row of complete instructions, and control stays among them
(`NativeMatcher.Program.safe_of_compile`): a branch or a pushed resumption point leads to the
start of an instruction, a call goes to one of the two stubs, a stub gives control back only
after it has turned its return offset into an address again, or returns a status to the
caller of the matcher, and the last instruction does not fall through.

The argument is about the listing. Each item is at most one instruction
(`NativeMatcher.Assembly.Item.instrs`), so a place among the items is a place among the
instructions (`NativeMatcher.Assembly.Cursor`), and what a label leads to is read off the
listing, which is closed (`NativeMatcher.Assembly.Closed`).
-/

namespace NativeMatcher

open Assembly Code X64

/-! ### Safe code -/

namespace X64.Instr

/-- The code offset of an instruction of a row. -/
def offset (is : List Instr) (k : Nat) : Nat := ((is.take k).flatMap encode).length

/-- A branch with displacement `disp` at index `k` of a row leads to the instruction at index
`j`: displacements are counted from the next instruction, modulo `2 ^ 32`. -/
def LeadsTo (is : List Instr) (k : Nat) (disp : UInt32) (j : Nat) : Prop :=
  j < is.length ∧ (disp.toNat : Int) = ((offset is j : Int) - offset is (k + 1)) % 4294967296

/-- An instruction does not change a register. -/
def Keeps (r : Reg) (i : Instr) : Prop := ∀ next m, (i.exec next m).1.regs r = m.regs r

/-- Whether control never goes on with the next instruction. -/
def endsControl : Instr → Bool
  | .branch .jmp _ | .jmpRm _ | .ret => true
  | _ => false

/-- From an instruction on, control runs to a return. It leaves a constant in `rax`, or what
was there. -/
inductive Returns (is : List Instr) : Option UInt64 → Nat → Prop
  /-- The return. -/
  | ret {k : Nat} : is[k]? = some .ret → Returns is none k
  /-- An instruction that does not change `rax`. -/
  | keep {k : Nat} {i : Instr} {s : Option UInt64} : is[k]? = some i → transfers i = false →
      i.Keeps .rax → Returns is s (k + 1) → Returns is s k
  /-- The load of a status. -/
  | status {k : Nat} {v : UInt64} : is[k]? = some (loadConst .w64 .rax v) →
      Returns is none (k + 1) → Returns is (some v) k
  /-- A jump. -/
  | jump {k j : Nat} {disp : UInt32} {s : Option UInt64} : is[k]? = some (.branch .jmp disp) →
      LeadsTo is k disp j → Returns is s j → Returns is s k

/-- From an instruction on, control leaves a stub only by turning its return offset into an
address and returning, or by a jump to where a status is returned: a constant, or the answer
of the host, if `rax` still holds it. -/
inductive Leaves (is : List Instr) : (answered : Bool) → Nat → Prop
  /-- The regular end. -/
  | back {k : Nat} {answered : Bool} : is[k]? = some (aluStore .add .w64 .rsp 0 codeBase) →
      is[k + 1]? = some .ret → Leaves is answered k
  /-- Any instruction with one successor. -/
  | step {k : Nat} {i : Instr} {answered : Bool} : is[k]? = some i → transfers i = false →
      Leaves is false (k + 1) → Leaves is answered k
  /-- An instruction that does not change `rax`. -/
  | keep {k : Nat} {i : Instr} {answered : Bool} : is[k]? = some i → transfers i = false →
      i.Keeps .rax → Leaves is answered (k + 1) → Leaves is answered k
  /-- A call of the host. -/
  | call {k : Nat} {target : Operand} {answered : Bool} : is[k]? = some (.callRm target) →
      Leaves is true (k + 1) → Leaves is answered k
  /-- A jump to where a status is returned. -/
  | exit {k j : Nat} {c : Cond} {disp : UInt32} {s : Option UInt64} {answered : Bool} :
      is[k]? = some (.branch (.jcc c) disp) → LeadsTo is k disp j → Returns is s j →
      answered = true ∨ s.isSome = true → Leaves is answered (k + 1) → Leaves is answered k

/-- Control stays among the instructions of a row. -/
structure Safe (is : List Instr) : Prop where
  /-- Branches lead to instructions. -/
  branches : ∀ (k : Nat) (b : Branch) (disp : UInt32), is[k]? = some (.branch b disp) →
    ∃ j, LeadsTo is k disp j
  /-- Pushed resumption points are instructions. -/
  pushes : ∀ (k : Nat) (imm : Int32), is[k]? = some (storeImm .w32 backtrackSp 0 imm) →
    ∃ j < is.length, imm.toUInt32.toNat = offset is j % 4294967296
  /-- Calls lead to the stubs, of which there are at most two. -/
  calls : ∃ stubs : List Nat, stubs.length ≤ 2 ∧
    (∀ j ∈ stubs, is[j]? = some (aluStore .sub .w64 .rsp 0 codeBase) ∧ Leaves is false (j + 1)) ∧
    ∀ (k : Nat) (disp : UInt32), is[k]? = some (.branch .call disp) →
      ∃ j ∈ stubs, LeadsTo is k disp j
  /-- Control does not run past the end. -/
  ends : ∃ i, is.getLast? = some i ∧ i.endsControl = true

end X64.Instr

/-! ### Items as instructions -/

namespace Assembly

/-- The instructions of an item at code offset `here`, given the places of the labels. -/
def Item.instrs (pos : Label → Option Nat) (here : Nat) (i : Item) : List Instr :=
  match i with
  | .instr i => [i]
  | .branch b l =>
    [.branch b ((pos l).elim 0 (Label.FieldKind.rel32.value (here + i.head.length)))]
  | .storeTarget l =>
    [.storeImm .w32 backtrackSp 0
      ((pos l).elim 0 (Label.FieldKind.codeOffset32.value (here + i.head.length))).toInt32]
  | .stub _ => [.aluStore .sub .w64 .rsp 0 codeBase]
  | .declare | .bind _ => []

/-- The instructions of items that lie at given code offsets. -/
def instrsOf (pos : Label → Option Nat) (items : List (Nat × Item)) : List Instr :=
  items.flatMap fun x => x.2.instrs pos x.1

/-- The instructions of a list of items, with every label in its place. -/
def code (items : List Item) : List Instr := instrsOf (position items) (placed 0 items)

theorem Item.flatMap_encode_instrs (pos : Label → Option Nat) (here : Nat) (i : Item) :
    (i.instrs pos here).flatMap Instr.encode = i.bytes pos here := by
  cases i <;> simp [instrs, bytes, field?, head, Instr.encode, Instr.storeImm]

/-- The bytes of a row of items are those of the instructions they stand for, one after another. -/
theorem flatMap_encode_instrsOf (pos : Label → Option Nat) (items : List (Nat × Item)) :
    (instrsOf pos items).flatMap Instr.encode = bytesOf pos items := by
  induction items with
  | nil => rfl
  | cons x items ih =>
    simp only [instrsOf, bytesOf, List.flatMap_cons, List.flatMap_append,
      Item.flatMap_encode_instrs] at ih ⊢
    rw [ih]

/-- The rest of a list of items after those before code offset `here`, which are `k`
instructions. -/
def Cursor (items : List Item) (k here : Nat) (rest : List Item) : Prop :=
  ∃ before, items = before ++ rest ∧ here = codeSize before ∧
    k = (instrsOf (position items) (placed 0 before)).length

namespace Cursor

variable {items rest : List Item} {k here : Nat}

/-- At a cursor the code is cut in two: the instructions before it, which take up the offset, and
those of the items that remain. -/
theorem code_eq (h : Cursor items k here rest) :
    code items = (code items).take k ++ instrsOf (position items) (placed here rest) ∧
      ((code items).take k).length = k ∧ Instr.offset (code items) k = here := by
  obtain ⟨before, hitems, rfl, rfl⟩ := h
  have hcode : code items = instrsOf (position items) (placed 0 before) ++
      instrsOf (position items) (placed (codeSize before) rest) := by
    conv => lhs; rw [code]
    rw [hitems, placed_append, ← hitems, Nat.zero_add]
    simp [instrsOf]
  refine ⟨?_, ?_, ?_⟩
  · rw [hcode, List.take_left]
  · rw [hcode, List.take_left]
  · rw [Instr.offset, hcode, List.take_left, flatMap_encode_instrsOf, length_bytesOf_placed]

theorem length_rest (h : Cursor items k here rest) :
    (code items).length = k + (instrsOf (position items) (placed here rest)).length := by
  obtain ⟨hcode, hk, -⟩ := h.code_eq
  rw [hcode, List.length_append, hk]

/-- The next item is the next instruction. -/
theorem next {x : Item} {i : Instr} (h : Cursor items k here (x :: rest))
    (hx : x.instrs (position items) here = [i]) :
    (code items)[k]? = some i ∧ Cursor items (k + 1) (here + x.size) rest := by
  obtain ⟨hcode, hk, -⟩ := h.code_eq
  obtain ⟨before, hitems, rfl, rfl⟩ := h
  refine ⟨?_, before ++ [x], by simp [hitems], by simp, ?_⟩
  · rw [hcode, List.getElem?_append_right (Nat.le_of_eq hk), hk]
    simp [instrsOf, placed, hx]
  · simp [instrsOf, placed_append, placed, hx]

/-- An item without an instruction is passed over. -/
theorem skip {x : Item} (h : Cursor items k here (x :: rest))
    (hx : x.instrs (position items) here = []) (hsize : x.size = 0) :
    Cursor items k here rest := by
  obtain ⟨before, hitems, rfl, rfl⟩ := h
  refine ⟨before ++ [x], by simp [hitems], by simp [hsize], ?_⟩
  simp [instrsOf, placed_append, placed, hx]

theorem start (items : List Item) : Cursor items 0 0 items := ⟨[], rfl, rfl, rfl⟩

/-- There is a cursor before every item. -/
theorem of_append (before : List Item) (h : items = before ++ rest) :
    ∃ k, Cursor items k (codeSize before) rest :=
  ⟨_, before, h, rfl, rfl⟩

theorem instrs_cases (pos : Label → Option Nat) (here : Nat) (x : Item) :
    (x.instrs pos here = [] ∧ x.size = 0) ∨ ∃ i, x.instrs pos here = [i] := by
  cases x with
  | declare => exact .inl ⟨rfl, rfl⟩
  | bind l => exact .inl ⟨rfl, rfl⟩
  | _ => exact .inr ⟨_, rfl⟩

/-- There is a cursor at every instruction from a cursor on. -/
theorem exists_of_getElem?_add {n : Nat} {i : Instr} (h : Cursor items k here rest)
    (hi : (code items)[k + n]? = some i) :
    ∃ here' x rest', Cursor items (k + n) here' (x :: rest') ∧
      x.instrs (position items) here' = [i] := by
  induction rest generalizing k here n with
  | nil =>
    have hlen : (code items).length ≤ k + n := by
      rw [h.length_rest]
      exact Nat.le_add_right k n
    rw [List.getElem?_eq_none hlen] at hi
    cases hi
  | cons x rest ih =>
    rcases instrs_cases (position items) here x with ⟨hx, hsize⟩ | ⟨j, hx⟩
    · exact ih (h.skip hx hsize) hi
    · obtain ⟨hj, hnext⟩ := h.next hx
      cases n with
      | zero =>
        obtain rfl := Option.some.inj (hj.symm.trans hi)
        exact ⟨here, x, rest, h, hx⟩
      | succ n =>
        have hadd : k + (n + 1) = k + 1 + n := by omega
        rw [hadd] at hi ⊢
        exact ih hnext hi

/-- There is a cursor at every instruction. -/
theorem exists_of_getElem? {i : Instr} (h : (code items)[k]? = some i) :
    ∃ here x rest, Cursor items k here (x :: rest) ∧ x.instrs (position items) here = [i] := by
  have hstart := (start items).exists_of_getElem?_add (n := k) (i := i)
  rw [Nat.zero_add] at hstart
  exact hstart h

end Cursor

/-! ### Where labels lead -/

section

variable {items : List Item} (hclosed : Closed items)

include hclosed

/-- The instructions after any item go on to the end. -/
theorem exists_last_instr {before rest : List Item} (hitems : items = before ++ rest)
    (hne : rest ≠ []) (here : Nat) :
    ∃ (is : List Instr) (i : Instr),
      instrsOf (position items) (placed here rest) = is ++ [i] ∧ i.endsControl = true := by
  obtain ⟨x, hlast, hends⟩ := hclosed.ends
  -- The last item of the rest is the last item of all.
  obtain rfl | ⟨init, y, rfl⟩ := List.eq_nil_or_concat rest
  · exact absurd rfl hne
  obtain rfl : y = x := by simpa [hitems, ← List.append_assoc] using hlast
  have hinstr : ∃ i, y.instrs (position items) (here + codeSize init) = [i] ∧
      i.endsControl = true := by
    cases y with
    | instr i =>
      refine ⟨i, rfl, ?_⟩
      cases i <;> first | rfl | cases hends
    | branch b l =>
      refine ⟨_, rfl, ?_⟩
      cases b <;> first | rfl | cases hends
    | _ => cases hends
  obtain ⟨i, hi, hi'⟩ := hinstr
  refine ⟨instrsOf (position items) (placed here init), i, ?_, hi'⟩
  simp [instrsOf, placed_append, placed, hi]

/-- A label with a place has an item that binds it, and an instruction stands there: no label is
bound at the very end of the code. -/
theorem exists_cursor_of_position {l : Label} {target : Nat}
    (h : position items l = some target) :
    ∃ k x rest, Cursor items k target (x :: rest) ∧ x.binds l = true ∧
      k < (code items).length := by
  obtain ⟨x, hx, hl⟩ := exists_mem_placed_of_position h
  obtain ⟨before, rest, hitems, htarget⟩ := exists_append_of_mem_placed hx
  obtain rfl : target = codeSize before := by simpa using htarget
  obtain ⟨k, hk⟩ := Cursor.of_append before hitems
  refine ⟨k, x, rest, hk, hl, ?_⟩
  obtain ⟨is, i, his, -⟩ := exists_last_instr hclosed hitems (by simp) (codeSize before)
  rw [hk.length_rest, his, List.length_append, List.length_singleton]
  omega

/-- Behind the label of a routine stands the routine. -/
theorem exists_cursor_of_routineAt {l : Label} {target : Nat} {r : List Item}
    (h : position items l = some target) (hr : routineAt l = some r) :
    ∃ k rest, Cursor items k target (r ++ rest) ∧ k < (code items).length := by
  obtain ⟨k, x, rest, hk, hl, hlt⟩ := exists_cursor_of_position hclosed h
  have hk' := hk
  obtain ⟨before, hitems, -, -⟩ := hk'
  -- The item that binds the label is not plain, so it is the first one of the routine.
  have hopens := hclosed.opens
  rw [hitems] at hopens
  obtain ⟨rest', hrest'⟩ := hopens.prefix_of_append hl hr
  exact ⟨k, rest', hrest' ▸ hk, hlt⟩

end

/-- A branch in the list leads to the instruction at the offset of its label. Its displacement is
counted from the next instruction and wraps around in both directions alike. -/
theorem leadsTo_of_cursor {items rest : List Item} {k j here target : Nat} {b : Branch}
    {l : Label} (h : Cursor items k here (.branch b l :: rest))
    (htarget : position items l = some target) (hj : j < (code items).length)
    (hoffset : Instr.offset (code items) j = target) :
    ∃ disp, (code items)[k]? = some (.branch b disp) ∧ Instr.LeadsTo (code items) k disp j ∧
      Cursor items (k + 1) (here + (Item.branch b l).size) rest := by
  have hinstrs : (Item.branch b l).instrs (position items) here =
      [.branch b (Label.FieldKind.rel32.value (here + b.bytes.length) target)] := by
    simp [Item.instrs, htarget, Item.head]
  obtain ⟨hk, hnext⟩ := h.next hinstrs
  refine ⟨_, hk, ⟨hj, ?_⟩, hnext⟩
  obtain ⟨-, -, hoffset'⟩ := hnext.code_eq
  have hvalue := toNat_ofInt ((target : Int) - (here + b.bytes.length + 4 : Nat))
  rw [hoffset, hoffset', Label.FieldKind.value, hvalue]
  simp [Item.size, Item.head, Item.field?, Nat.add_assoc]

/-! ### Straight lines -/

section

variable {items rest : List Item} {k here : Nat}

/-- A row of instructions that keep `rax` and do not transfer control leads on to a return, if what
follows does. The induction takes the cursor along the row. -/
theorem returns_of_instrs {is : List Instr} {s : Option UInt64}
    (h : Cursor items k here (is.map .instr ++ rest))
    (his : ∀ i ∈ is, transfers i = false ∧ i.Keeps .rax)
    (hrest : ∀ k' here', Cursor items k' here' rest → Instr.Returns (code items) s k') :
    Instr.Returns (code items) s k := by
  induction is generalizing k here with
  | nil => exact hrest k here h
  | cons i is ih =>
    rw [List.forall_mem_cons] at his
    obtain ⟨hk, hnext⟩ := h.next rfl
    exact .keep hk his.1.1 his.1.2 (ih hnext his.2)

/-- Within a stub, a row of instructions that do not transfer control leads on; whether `rax` still
holds the answer of the host is left open. -/
theorem leaves_of_instrs {is : List Instr} (answered : Bool)
    (h : Cursor items k here (is.map .instr ++ rest)) (his : ∀ i ∈ is, transfers i = false)
    (hrest : ∀ k' here' answered, Cursor items k' here' rest →
      Instr.Leaves (code items) answered k') :
    Instr.Leaves (code items) answered k := by
  induction is generalizing k here answered with
  | nil => exact hrest k here answered h
  | cons i is ih =>
    rw [List.forall_mem_cons] at his
    obtain ⟨hk, hnext⟩ := h.next rfl
    exact .step hk his.1 (ih false hnext his.2)

/-- A row that also keeps `rax` leads on with the answer of the host untouched. -/
theorem leaves_of_keeps {is : List Instr} {answered : Bool}
    (h : Cursor items k here (is.map .instr ++ rest))
    (his : ∀ i ∈ is, transfers i = false ∧ i.Keeps .rax)
    (hrest : ∀ k' here', Cursor items k' here' rest → Instr.Leaves (code items) answered k') :
    Instr.Leaves (code items) answered k := by
  induction is generalizing k here with
  | nil => exact hrest k here h
  | cons i is ih =>
    rw [List.forall_mem_cons] at his
    obtain ⟨hk, hnext⟩ := h.next rfl
    exact .keep hk his.1.1 his.1.2 (ih hnext his.2)

end

/-! ### Exit paths -/

theorem keeps_pop {r s : Reg} (hr : s ≠ r) (hsp : s ≠ .rsp) : Instr.Keeps s (.pop r) := by
  intro next m
  rw [Instr.exec, Machine.regs_setReg_of_ne _ hr]
  exact m.regs_setReg_of_ne hsp

theorem keeps_leaAt {w : Width} {r s : Reg} (hr : s ≠ r) (base : Reg) (disp : Int32) :
    Instr.Keeps s (.leaAt w r base disp) :=
  fun _ m => m.regs_setReg_of_ne hr

theorem keeps_mov {w : Width} {r s : Reg} (hr : s ≠ r) (src : Reg) :
    Instr.Keeps s (.mov w r src) :=
  fun _ m => m.regs_setReg_of_ne hr

theorem keeps_load {w : Width} {r s : Reg} (hr : s ≠ r) (base : Reg) (disp : Int32) :
    Instr.Keeps s (.load w r base disp) :=
  fun _ m => m.regs_setReg_of_ne hr

theorem keeps_test {w : Width} {s : Reg} (a b : Reg) : Instr.Keeps s (.test w a b) :=
  fun _ _ => rfl

/-- A stub calls the host, and then leaves by a jump to an exit path or by its regular end. -/
theorem leaves_of_stub {items rest : List Item} {is js ks : List Instr} {k here j target : Nat}
    {f : Operand} {c : Cond} {l : Label} {s : Option UInt64}
    (h : Cursor items k here (is.map .instr ++ (Item.instr (.callRm f) :: (js.map .instr ++
      (Item.branch (.jcc c) l :: (ks.map .instr ++ (leaveStub ++ rest)))))))
    (his : ∀ i ∈ is, transfers i = false)
    (hjs : ∀ i ∈ js, transfers i = false ∧ i.Keeps .rax)
    (hks : ∀ i ∈ ks, transfers i = false) (htarget : position items l = some target)
    (hj : j < (code items).length) (hoffset : Instr.offset (code items) j = target)
    (hreturns : Instr.Returns (code items) s j) : Instr.Leaves (code items) false k := by
  refine leaves_of_instrs false h his fun k₁ here₁ answered h₁ => ?_
  obtain ⟨hcall, h₂⟩ := h₁.next rfl
  refine .call hcall (leaves_of_keeps h₂ hjs fun k₃ here₃ h₃ => ?_)
  obtain ⟨disp, hjcc, hleads, h₄⟩ := leadsTo_of_cursor h₃ htarget hj hoffset
  refine .exit hjcc hleads hreturns (.inl rfl) ?_
  refine leaves_of_instrs true h₄ hks fun k₅ here₅ answered h₅ => ?_
  obtain ⟨hadd, h₆⟩ := h₅.next rfl
  exact .back hadd (h₆.next rfl).1

theorem keeps_after_call : ∀ i ∈ [Instr.load .w64 .rsp .rsp 0, Instr.test .w64 .rax .rax],
    transfers i = false ∧ i.Keeps .rax := by
  rw [List.forall_mem_cons, List.forall_mem_singleton]
  exact ⟨⟨rfl, keeps_load (by decide) _ _⟩, rfl, keeps_test _ _⟩

/-- Where the label of a stub is bound stands a stub. -/
def IsStub (items : List Item) (l : Label) (j : Nat) : Prop :=
  j < (code items).length ∧ position items l = some (Instr.offset (code items) j) ∧
    (code items)[j]? = some (.aluStore .sub .w64 .rsp 0 codeBase) ∧
    Instr.Leaves (code items) false (j + 1)

section

variable {items : List Item} (hclosed : Closed items)

include hclosed

/-- The exit sequence returns what is in `rax`. It restores the saved registers and the stack
pointer, none of which is `rax`, and ends with a return. -/
theorem exists_returns_leave {target : Nat}
    (h : position items Reserved.leave.label = some target) :
    ∃ j, j < (code items).length ∧ Instr.offset (code items) j = target ∧
      Instr.Returns (code items) none j := by
  obtain ⟨j, rest, hj, hlt⟩ := exists_cursor_of_routineAt hclosed h rfl
  refine ⟨j, hlt, hj.code_eq.2.2, ?_⟩
  have hleave : leaveItems ++ rest = .bind Reserved.leave.label ::
      ((Instr.leaAt .w64 .rsp fp (slotOffset (.calleeSaved 15)) ::
        calleeSaved.reverse.map Instr.pop ++ [Instr.mov .w64 .rsp .rbp, .pop .rbp]).map .instr ++
        (.instr .ret :: rest)) := by
    simp [leaveItems]
  rw [hleave] at hj
  refine returns_of_instrs (hj.skip rfl rfl) ?_ fun k here hk => .ret (hk.next rfl).1
  intro i hi
  simp only [calleeSaved, List.reverse_cons, List.reverse_nil, List.nil_append, List.cons_append,
    List.map_cons, List.map_nil, List.mem_cons, List.not_mem_nil, or_false] at hi
  rcases hi with rfl | rfl | rfl | rfl | rfl | rfl | rfl | rfl
  · exact ⟨rfl, keeps_leaAt (by decide) _ _⟩
  · exact ⟨rfl, keeps_pop (by decide) (by decide)⟩
  · exact ⟨rfl, keeps_pop (by decide) (by decide)⟩
  · exact ⟨rfl, keeps_pop (by decide) (by decide)⟩
  · exact ⟨rfl, keeps_pop (by decide) (by decide)⟩
  · exact ⟨rfl, keeps_pop (by decide) (by decide)⟩
  · exact ⟨rfl, keeps_mov (by decide) _⟩
  · exact ⟨rfl, keeps_pop (by decide) (by decide)⟩

/-- An exhausted stack is reported. -/
theorem exists_returns_exception {target leave : Nat}
    (h : position items Reserved.exception.label = some target)
    (hleave : position items Reserved.leave.label = some leave) :
    ∃ j, j < (code items).length ∧ Instr.offset (code items) j = target ∧
      Instr.Returns (code items) (some statusException) j := by
  obtain ⟨j, rest, hj, hlt⟩ := exists_cursor_of_routineAt hclosed h rfl
  obtain ⟨k, hk, hoffset, hreturns⟩ := exists_returns_leave hclosed hleave
  refine ⟨j, hlt, hj.code_eq.2.2, ?_⟩
  have hbind : Cursor items j target (.bind Reserved.exception.label ::
      .instr (.loadConst .w64 .rax statusException) :: .branch .jmp Reserved.leave.label :: rest) :=
    hj
  obtain ⟨hstatus, hnext⟩ := (hbind.skip rfl rfl).next rfl
  obtain ⟨disp, hjump, hleads, -⟩ := leadsTo_of_cursor hnext hleave hk hoffset
  exact .status hstatus (.jump hjump hleads hreturns)

/-- The stub of a poll turns its return address into an offset, asks the host, and goes back or
leaves with the status the host gave. -/
theorem exists_isStub_checkPreempt {target leave : Nat}
    (h : position items Reserved.checkPreempt.label = some target)
    (hleave : position items Reserved.leave.label = some leave) :
    ∃ j, IsStub items Reserved.checkPreempt.label j := by
  obtain ⟨j, rest, hj, hlt⟩ := exists_cursor_of_routineAt hclosed h rfl
  obtain ⟨k, hk, hoffset, hreturns⟩ := exists_returns_leave hclosed hleave
  have hstub : checkPreempt ++ rest = .stub Reserved.checkPreempt.label ::
      ((spillStackPointer ++ prepareCall ++ [Instr.leaAt .w64 .rdi .rsp (-8),
          Instr.mov .w64 .rsi codeBase, Instr.mov .w64 .rdx fp, loadContext .rax]).map .instr ++
        (.instr (.callRm (.mem { base := .rax, disp := ContextField.checkStackGuardState.offset }))
          :: ([Instr.load .w64 .rsp .rsp 0, Instr.test .w64 .rax .rax].map .instr ++
            (.branch (.jcc .ne) Reserved.leave.label ::
              ((reloadCodeBase ++
                [Instr.load .w64 backtrackSp .rcx ContextField.stackPointer.offset]).map .instr ++
                (leaveStub ++ rest)))))) := by
    simp [checkPreempt, callHost]
  rw [hstub] at hj
  obtain ⟨hsub, hnext⟩ := hj.next rfl
  refine ⟨j, hlt, by rw [hj.code_eq.2.2, h], hsub, ?_⟩
  exact leaves_of_stub hnext (by decide) keeps_after_call (by decide) hleave hk hoffset
    hreturns

/-- The stub for a full stack is built likewise, but the status that it may leave with is that of an
exhausted stack. -/
theorem exists_isStub_stackOverflow {target exception leave : Nat}
    (h : position items Reserved.stackOverflow.label = some target)
    (hexception : position items Reserved.exception.label = some exception)
    (hleave : position items Reserved.leave.label = some leave) :
    ∃ j, IsStub items Reserved.stackOverflow.label j := by
  obtain ⟨j, rest, hj, hlt⟩ := exists_cursor_of_routineAt hclosed h rfl
  obtain ⟨k, hk, hoffset, hreturns⟩ := exists_returns_exception hclosed hexception hleave
  have hstub : growStack ++ rest = .stub Reserved.stackOverflow.label ::
      ((spillStackPointer ++ prepareCall ++ [loadContext .rdi, loadContext .rax]).map .instr ++
        (.instr (.callRm (.mem { base := .rax, disp := ContextField.growStack.offset })) ::
          ([Instr.load .w64 .rsp .rsp 0, Instr.test .w64 .rax .rax].map .instr ++
            (.branch (.jcc .e) Reserved.exception.label ::
              ((Instr.mov .w64 backtrackSp .rax :: reloadCodeBase).map .instr ++
                (leaveStub ++ rest)))))) := by
    simp [growStack, callHost]
  rw [hstub] at hj
  obtain ⟨hsub, hnext⟩ := hj.next rfl
  refine ⟨j, hlt, by rw [hj.code_eq.2.2, h], hsub, ?_⟩
  exact leaves_of_stub hnext (by decide) keeps_after_call (by decide) hexception hk hoffset
    hreturns

end

/-! ### Safe listings -/

/-- Every field of a list of items has its label in place. -/
def Resolved (items : List Item) : Prop :=
  ∀ i ∈ items, ∀ kind l, i.field? = some (kind, l) → ∃ target, position items l = some target

section

variable {items : List Item}

theorem Cursor.mem {k here : Nat} {rest : List Item} (h : Cursor items k here rest) {i : Item}
    (hi : i ∈ rest) : i ∈ items := by
  obtain ⟨before, rfl, -, -⟩ := h
  exact List.mem_append_right before hi

variable (hclosed : Closed items) (hresolved : Resolved items)

include hclosed hresolved

/-- A branch that is placed leads where its label is. -/
theorem exists_leadsTo {k : Nat} {b : Branch} {disp : UInt32}
    (h : (code items)[k]? = some (.branch b disp)) :
    ∃ l target, position items l = some target ∧ Item.branch b l ∈ items ∧
      ∀ j, j < (code items).length → Instr.offset (code items) j = target →
        Instr.LeadsTo (code items) k disp j := by
  obtain ⟨here, x, rest, hk, hx⟩ := Cursor.exists_of_getElem? h
  have hmem := hk.mem List.mem_cons_self
  have hregular := hclosed.regular x hmem
  cases x with
  | branch b' l =>
    obtain rfl : b' = b := by simp [Item.instrs] at hx; exact hx.1
    obtain ⟨target, htarget⟩ := hresolved _ hmem .rel32 l rfl
    refine ⟨l, target, htarget, hmem, fun j hj hoffset => ?_⟩
    obtain ⟨disp', hdisp', hleads, -⟩ := leadsTo_of_cursor hk htarget hj hoffset
    obtain rfl : disp = disp' := by simpa using h.symm.trans hdisp'
    exact hleads
  | instr i =>
    -- A regular item has no branch as its instruction: that would have a field without a label.
    obtain rfl : i = .branch b disp := by simpa [Item.instrs] using hx
    cases hregular
  | _ => simp [Item.instrs, Instr.storeImm, Instr.aluStore] at hx

/-- A resumption point that is pushed is the offset of an instruction: the store comes from an item,
and its value from the place of the label. -/
theorem exists_pushed {k : Nat} {imm : Int32}
    (h : (code items)[k]? = some (.storeImm .w32 backtrackSp 0 imm)) :
    ∃ j < (code items).length,
      imm.toUInt32.toNat = Instr.offset (code items) j % 4294967296 := by
  obtain ⟨here, x, rest, hk, hx⟩ := Cursor.exists_of_getElem? h
  have hmem := hk.mem List.mem_cons_self
  have hregular := hclosed.regular x hmem
  cases x with
  | storeTarget l =>
    obtain ⟨target, htarget⟩ := hresolved _ hmem .codeOffset32 l rfl
    obtain ⟨j, _, _, hj, -, hlt⟩ := exists_cursor_of_position hclosed htarget
    obtain rfl : imm = (UInt32.ofNat target).toInt32 := by
      simpa [Item.instrs, htarget, Label.FieldKind.value, Instr.storeImm] using hx.symm
    refine ⟨j, hlt, ?_⟩
    rw [hj.code_eq.2.2]
    simp
  | instr i =>
    obtain rfl : i = .storeImm .w32 backtrackSp 0 imm := by simpa [Item.instrs] using hx
    cases hregular
  | _ => simp [Item.instrs, Instr.storeImm, Instr.aluStore] at hx

/-- There are at most two stubs, and they are where their labels are. They are the ones for polls
and for growing the stack, and each is emitted only if it is called. -/
theorem exists_stubs :
    ∃ stubs : List Nat, stubs.length ≤ 2 ∧
      (∀ j ∈ stubs, ∃ l, IsStub items l j) ∧
      ∀ l target, l = Reserved.checkPreempt.label ∨ l = Reserved.stackOverflow.label →
        position items l = some target → ∃ j ∈ stubs, IsStub items l j := by
  -- Each label has at most one stub.
  have hone : ∀ l, (∀ target, position items l = some target → ∃ j, IsStub items l j) →
      ∃ stubs : List Nat, stubs.length ≤ 1 ∧ (∀ j ∈ stubs, IsStub items l j) ∧
        ∀ target, position items l = some target → ∃ j ∈ stubs, IsStub items l j := by
    intro l hl
    cases hpos : position items l with
    | none => exact ⟨[], by simp, by simp, by simp⟩
    | some target =>
      obtain ⟨j, hj⟩ := hl target hpos
      exact ⟨[j], by simp, by simpa using hj, fun _ _ => ⟨j, by simp, hj⟩⟩
  obtain ⟨preempt, hlen, hpreempt, hall⟩ := hone Reserved.checkPreempt.label fun target h => by
    obtain ⟨k, rest, hk, -⟩ := exists_cursor_of_routineAt hclosed h rfl
    obtain ⟨leave, hleave⟩ := hresolved (.branch (.jcc .ne) Reserved.leave.label)
      (hk.mem (List.mem_append_left _ (by decide))) _ _ rfl
    exact exists_isStub_checkPreempt hclosed h hleave
  obtain ⟨overflow, hlen', hoverflow, hall'⟩ := hone Reserved.stackOverflow.label fun target h => by
    obtain ⟨k, rest, hk, -⟩ := exists_cursor_of_routineAt hclosed h rfl
    obtain ⟨exception, hexception⟩ := hresolved (.branch (.jcc .e) Reserved.exception.label)
      (hk.mem (List.mem_append_left _ (by decide))) _ _ rfl
    obtain ⟨k, rest, hk, -⟩ := exists_cursor_of_routineAt hclosed hexception rfl
    obtain ⟨leave, hleave⟩ := hresolved (.branch .jmp Reserved.leave.label)
      (hk.mem (List.mem_append_left _ (by decide))) _ _ rfl
    exact exists_isStub_stackOverflow hclosed h hexception hleave
  refine ⟨preempt ++ overflow, by rw [List.length_append]; omega, fun j hj => ?_, ?_⟩
  · rcases List.mem_append.mp hj with hj | hj
    · exact ⟨_, hpreempt j hj⟩
    · exact ⟨_, hoverflow j hj⟩
  · rintro l target (rfl | rfl) htarget
    · obtain ⟨j, hj, hstub⟩ := hall target htarget
      exact ⟨j, List.mem_append_left _ hj, hstub⟩
    · obtain ⟨j, hj, hstub⟩ := hall' target htarget
      exact ⟨j, List.mem_append_right _ hj, hstub⟩

/-- **The code of a closed list of items with its labels in place is safe.** The cursors into the
items give each claim about the code by a look at the item there. -/
theorem safe_code : Instr.Safe (code items) := by
  refine ⟨fun k b disp h => ?_, fun k imm h => exists_pushed hclosed hresolved h, ?_, ?_⟩
  · obtain ⟨l, target, htarget, -, hleads⟩ := exists_leadsTo hclosed hresolved h
    obtain ⟨j, _, _, hj, -, hlt⟩ := exists_cursor_of_position hclosed htarget
    exact ⟨j, hleads j hlt hj.code_eq.2.2⟩
  · obtain ⟨stubs, hlen, hstubs, hall⟩ := exists_stubs hclosed hresolved
    refine ⟨stubs, hlen, fun j hj => ?_, fun k disp h => ?_⟩
    · obtain ⟨l, -, -, hsub, hleaves⟩ := hstubs j hj
      exact ⟨hsub, hleaves⟩
    · obtain ⟨l, target, htarget, hmem, hleads⟩ := exists_leadsTo hclosed hresolved h
      have hl : l = Reserved.checkPreempt.label ∨ l = Reserved.stackOverflow.label := by
        simpa [Item.isRegular] using hclosed.regular _ hmem
      obtain ⟨j, hj, hlt, hoffset, -, -⟩ := hall l target hl htarget
      exact ⟨j, hj, hleads j hlt (Option.some.inj (hoffset.symm.trans htarget))⟩
  · obtain ⟨i, hi, -⟩ := hclosed.ends
    have hne : items ≠ [] := by
      rintro rfl
      cases hi
    obtain ⟨is, j, his, hj⟩ := exists_last_instr hclosed (List.nil_append items).symm hne 0
    exact ⟨j, by rw [code, his, List.getLast?_concat], hj⟩

end

theorem encodable_of_isFixed {i : Instr} (h : isFixed i = true) : i.encodable = true := by
  unfold isFixed at h
  split at h
  · cases h
  · cases h
  · exact h

/-- All instructions of the code have an encoding. Items come from a fixed list of forms, and a
branch has one whatever its distance. -/
theorem encodable_code {items : List Item} (h : ∀ i ∈ items, i.isRegular = true) :
    ∀ i ∈ code items, i.encodable = true := by
  intro i hi
  obtain ⟨x, hx, hi⟩ := List.mem_flatMap.mp hi
  have hregular := h x.2 (mem_of_mem_placed hx)
  generalize x.2 = item at hi hregular
  cases item with
  | instr j =>
    obtain rfl : i = j := by simpa [Item.instrs] using hi
    exact encodable_of_isFixed hregular
  | branch b l =>
    obtain rfl := List.mem_singleton.mp hi
    rfl
  | storeTarget l =>
    obtain rfl := List.mem_singleton.mp hi
    rfl
  | stub l =>
    obtain rfl := List.mem_singleton.mp hi
    rfl
  | declare => cases hi
  | bind l => cases hi

end Assembly

/-! ### Distances -/

namespace X64.Instr

theorem offset_le (is : List Instr) (k : Nat) : offset is k ≤ (is.flatMap encode).length := by
  have hsplit : is.flatMap encode = (is.take k).flatMap encode ++ (is.drop k).flatMap encode := by
    rw [← List.flatMap_append, List.take_append_drop]
  rw [hsplit, List.length_append]
  exact Nat.le_add_right _ _

theorem offset_succ_pos {is : List Instr} (h : ∀ i ∈ is, i.encodable = true) {k : Nat}
    (hk : k < is.length) : 0 < offset is (k + 1) := by
  obtain ⟨i, is, rfl⟩ := List.exists_cons_of_length_pos (Nat.lt_of_le_of_lt (Nat.zero_le k) hk)
  have hi := encode_ne_nil (h i List.mem_cons_self)
  rw [offset, List.take_succ_cons, List.flatMap_cons, List.length_append]
  exact Nat.add_pos_left (List.length_pos_iff.mpr hi) _

/-- In code of up to two gibibytes the processor goes exactly where a branch leads. -/
theorem LeadsTo.add_eq {is : List Instr} {k j : Nat} {disp : UInt32} (h : LeadsTo is k disp j)
    (hencodable : ∀ i ∈ is, i.encodable = true) (hk : k < is.length)
    (hsize : (is.flatMap encode).length ≤ 2 ^ 31) :
    (offset is (k + 1) : Int) + disp.toInt32.toInt = offset is j := by
  have hpos := offset_succ_pos hencodable hk
  have hj := offset_le is j
  have hk' := offset_le is (k + 1)
  have hsigned : disp.toInt32.toInt = (disp.toNat : Int).bmod 4294967296 :=
    BitVec.toInt_eq_toNat_bmod _
  have hbmod : (((offset is j : Int) - offset is (k + 1)) % 4294967296).bmod 4294967296 =
      ((offset is j : Int) - offset is (k + 1)).bmod 4294967296 :=
    Int.emod_bmod _ _
  rw [hsigned, h.2, hbmod, Int.bmod_eq_of_le] <;> omega

end X64.Instr

namespace Program

open Assembler

/-- **Compiled code is a row of complete instructions, and control stays among them.** Linear
decoding splits the code without a rest; branches and pushed resumption points lead to starts of
instructions, calls to one of two stubs, and the last instruction does not fall through. Branches
count modulo `2 ^ 32`; in code of up to `2 ^ 31` bytes that is the place the processor goes to. -/
theorem safe_of_compile {p : Program} {o : Options} {source : String} {heap : Nat → UInt64}
    {m : Matcher} (h : p.compile o source heap = .ok m) :
    ∃ is, Instr.decodeAll m.object.buffer.bytes.toList = some is ∧
      is.flatMap Instr.encode = m.object.buffer.bytes.toList ∧ Instr.Safe is ∧
      (m.object.buffer.size ≤ 2 ^ 31 → ∀ k disp j, k < is.length → Instr.LeadsTo is k disp j →
        (Instr.offset is (k + 1) : Int) + disp.toInt32.toInt = Instr.offset is j) := by
  obtain ⟨a, hlaid, hlabels, hbytes⟩ := exists_laid h
  have hclosed := closed_listing h
  have hresolved : Resolved (p.listing o heap) := by
    intro i hi kind l hf
    rw [← map_snd_placed 0 (p.listing o heap)] at hi
    obtain ⟨x, hx, rfl⟩ := List.mem_map.mp hi
    exact exists_position_of_field hlaid hlabels hx hf
  have hencodable := encodable_code hclosed.regular
  have hcode : (code (p.listing o heap)).flatMap Instr.encode = m.object.buffer.bytes.toList := by
    rw [hbytes, hlaid.bytes, code, flatMap_encode_instrsOf]
    rfl
  refine ⟨code (p.listing o heap), ?_, hcode, safe_code hclosed hresolved, ?_⟩
  · rw [← hcode]
    exact Instr.decodeAll_flatMap hencodable
  · intro hsize k disp j hk hleads
    refine hleads.add_eq hencodable hk ?_
    rw [hcode, Array.length_toList]
    exact hsize

/-- Code with both stubs. -/
theorem safe_of_compile_pusher :
    ∃ m is, Sample.pusher.compile { mode := .latin1 } "" Sample.heap = .ok m ∧
      Instr.decodeAll m.object.buffer.bytes.toList = some is ∧ Instr.Safe is := by
  obtain ⟨m, hm, -⟩ := Sample.exists_compile_pusher
  obtain ⟨is, hdecode, -, hsafe, -⟩ := safe_of_compile hm
  exact ⟨m, is, hm, hdecode, hsafe⟩

end Program

end NativeMatcher
