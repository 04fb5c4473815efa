import NativeMatcher.Proofs.CodeMemory

/-!
# Code buffers in use

A code buffer is a list of bytes to whoever uses it: emissions add to it, patches replace four
bytes, and neither growth nor relocation nor protection shows. This holds for every row of
operations, whatever the order of growth, patches that overlap, relocations and changes of
protection (`NativeMatcher.Code.Mapping.reflects_of_session`).

Two things have to be arranged for it.

* **Operations may fault, and the buffer lives on.** So a row of operations is compared with those
  of them that were carried out (`NativeMatcher.Code.Mapping.carriedOut`), and which these are is
  said without running them (`NativeMatcher.Code.Mapping.Op.Accepted`). An operation that is not
  accepted has changed nothing when it faults (`NativeMatcher.Code.Mapping.run_of_refused`).
* **The assembler uses buffers without memory.** Carrying an operation out in memory and on the
  buffer that is shown comes to the same (`NativeMatcher.Code.Mapping.onBuffer_of_run`,
  `NativeMatcher.Code.Mapping.onBuffer_of_fault`), but for buffers whose size leaves its word.

Nothing is ever written to an executable buffer. But its own assertion against emission stands where
it asks for room, behind the return of a buffer that has enough, so an emission that fits is stopped
by the processor (`NativeMatcher.Code.Mapping.write_of_executable`).
-/

namespace NativeMatcher.Code

namespace Mapping

variable {m m' : Mapping} {start : Nat} {op : Op} {r : Option UInt32} {f : Fault}

/-! ### Operations on what a buffer shows -/

namespace Op

/-- The operation is carried out: an emission if it fits and the buffer is writable, a patch inside
the emitted code of a writable buffer, reading inside the emitted code, and a relocation if the size
of the copy fits its word. -/
def Accepted (m : Mapping) : Op → Prop
  | emit d => m.Fits d.encode.length ∧ (m.executable = false ∨ d.encode = [])
  | patch32 offset _ => offset + 4 ≤ m.code.length ∧ m.executable = false
  | read32 offset => offset + 4 ≤ m.code.length
  | setExecutable => True
  | setWritable => True
  | relocate => max m.code.length 1 + pageSize < 2 ^ 64

/-- The fault of an operation that is not carried out. -/
def fault (m : Mapping) : Op → Fault
  | emit d =>
    if 2 ^ 64 ≤ m.offset + d.encode.length then .overflow .add
    else if m.executable then
      if m.offset + d.encode.length ≤ m.capacity then .protectedWrite else .writeExecutable
    else .overflow (if 2 ^ 64 ≤ m.capacity * 2 then .mul else .add)
  | patch32 offset _ =>
    if 2 ^ 64 ≤ offset + 4 then .overflow .add
    else if m.code.length < offset + 4 then .patchOutside else .patchExecutable
  | read32 offset => if 2 ^ 64 ≤ offset + 4 then .overflow .add else .readOutside
  | setExecutable => .overflow .add
  | setWritable => .overflow .add
  | relocate => .overflow .add

/-- What is answered where `code` has been emitted. -/
def reply (code : List UInt8) : Op → Option UInt32
  | read32 offset => some (UInt32.ofNat (ofBytes ((code.drop offset).take 4)))
  | _ => none

/-- The bytes after the operation. -/
def written (code : List UInt8) : Op → List UInt8
  | emit d => code ++ d.encode
  | patch32 offset v => code.take offset ++ bytes32 v ++ code.drop (offset + 4)
  | _ => code

/-- Whether the bytes are executable after the operation. -/
def protection (executable : Bool) : Op → Bool
  | setExecutable => true
  | setWritable => false
  | _ => executable

/-- The capacity after the operation. -/
def resized (m : Mapping) : Op → Nat
  | emit d => m.capacityFor d.encode.length
  | relocate => roundToPage (max m.code.length 1)
  | _ => m.capacity

end Op

/-- `m'` is what an operation leaves of `m`. -/
abbrev Carried (m : Mapping) (op : Op) (m' : Mapping) : Prop :=
  Shows m' (op.written m.code) (op.protection m.executable) (op.resized m)

theorem run_read32 (h : Sound m) (hin : start + 4 ≤ m.code.length) : (Op.read32 start).run m =
    .ok (some (UInt32.ofNat (ofBytes ((m.code.drop start).take 4)))) m := by
  have hread := (read32_eq h).trans (if_pos hin)
  exact Change.of_bind_ok hread

/-- **An accepted operation is carried out**, on the list of bytes as on the memory. One case for
each operation, each with the specification of what it does to the memory. -/
theorem run_of_accepted (h : Sound m) (haccepted : op.Accepted m) :
    ∃ m', op.run m = .ok (op.reply m.code) m' ∧ Carried m op m' := by
  cases op with
  | emit d =>
    obtain ⟨m', hrun, hshows⟩ := exists_emit h haccepted.2 haccepted.1
    exact ⟨m', Change.bind_of_ok hrun, hshows⟩
  | patch32 offset v =>
    obtain ⟨m', hrun, hshows⟩ := exists_patch32 h haccepted.1 haccepted.2 v
    exact ⟨m', Change.bind_of_ok hrun, hshows⟩
  | read32 offset => exact ⟨m, run_read32 h haccepted, h.shows⟩
  | setExecutable => exact ⟨m.protectedAs true, rfl, shows_protectedAs h true⟩
  | setWritable => exact ⟨m.protectedAs false, rfl, shows_protectedAs h false⟩
  | relocate =>
    obtain ⟨m', hrun, hshows⟩ := exists_relocated h haccepted
    refine ⟨m', ?_, hshows⟩
    rw [Op.run, Change.get_bind, Change.of_bind_ok hrun]
    rfl

/-- Emitting nothing is never refused. -/
theorem encode_ne_nil_of_refused {d : Datum} (h : Sound m)
    (hrefused : ¬ (Op.emit d).Accepted m) : d.encode ≠ [] := by
  intro hnil
  refine hrefused ⟨Or.inl ?_, Or.inr hnil⟩
  rw [hnil]
  exact h.offset_le

/-- **Any other operation faults, and nothing has changed when it does.** So a session can go on
after a fault, and the operations that were refused leave no trace in it. -/
theorem run_of_refused (h : Sound m) (hrefused : ¬ op.Accepted m) :
    op.run m = .error (op.fault m) m := by
  cases op with
  | emit d =>
    rw [Op.run, Op.fault]
    cases hexec : m.executable with
    | false =>
      have hfits : ¬ m.Fits d.encode.length := fun hfits => hrefused ⟨hfits, Or.inl hexec⟩
      exact Change.bind_of_error (emit_of_not_fits hexec hfits)
    | true =>
      have hbytes := encode_ne_nil_of_refused h hrefused
      exact Change.bind_of_error (emit_of_executable h hexec hbytes)
  | patch32 offset v => exact Change.bind_of_error (patch32_of_refused h v hrefused)
  | read32 offset =>
    have hread := (read32_eq h).trans (if_neg hrefused)
    exact Change.of_bind_error hread
  | setExecutable => exact absurd trivial hrefused
  | setWritable => exact absurd trivial hrefused
  | relocate =>
    have hlarge : 2 ^ 64 ≤ max m.offset 1 + pageSize := by
      rw [← h.length_code]
      exact Nat.le_of_not_lt hrefused
    have hrun : m.relocated = .error (.overflow .add) := by
      rw [relocated, new_of_le hlarge]
      rfl
    rw [Op.run, Change.get_bind, Change.of_bind_error hrun]
    rfl

/-- An operation that ends well was accepted, replies what the code gives, and changes it as
described. -/
theorem carried_of_run (h : Sound m) (hrun : op.run m = .ok r m') :
    op.Accepted m ∧ r = op.reply m.code ∧ Carried m op m' := by
  by_cases haccepted : op.Accepted m
  · obtain ⟨n, hn, hcarried⟩ := run_of_accepted h haccepted
    rw [hn] at hrun
    cases hrun
    exact ⟨haccepted, rfl, hcarried⟩
  · rw [run_of_refused h haccepted] at hrun
    cases hrun

/-- An operation that faults was not accepted, and leaves everything as it was. -/
theorem refused_of_run (h : Sound m) (hrun : op.run m = .error f m') :
    ¬ op.Accepted m ∧ f = op.fault m ∧ m' = m := by
  by_cases haccepted : op.Accepted m
  · obtain ⟨n, hn, -⟩ := run_of_accepted h haccepted
    rw [hn] at hrun
    cases hrun
  · rw [run_of_refused h haccepted] at hrun
    cases hrun
    exact ⟨haccepted, rfl, rfl⟩

/-! ### Rows of operations -/

/-- What an operation leaves, also when it faults. -/
def Op.after (m : Mapping) (op : Op) : Mapping :=
  match op.run m with
  | .ok _ m' => m'
  | .error _ m' => m'

/-- Whether an operation is carried out. -/
def Op.succeeds (m : Mapping) (op : Op) : Bool :=
  match op.run m with
  | .ok _ _ => true
  | .error _ _ => false

/-- What operations leave, one after the other. -/
def after (m : Mapping) (ops : List Op) : Mapping := ops.foldl Op.after m

theorem after_cons (m : Mapping) (op : Op) (ops : List Op) :
    m.after (op :: ops) = (op.after m).after ops := rfl

/-- The operations that are carried out. -/
def carriedOut (m : Mapping) : List Op → List Op
  | [] => []
  | op :: ops =>
    if op.succeeds m then op :: carriedOut (op.after m) ops else carriedOut (op.after m) ops

/-- An operation is carried out, or it leaves the buffer as it is. -/
theorem after_cases (h : Sound m) (op : Op) :
    (op.succeeds m = true ∧ Carried m op (op.after m)) ∨
      (op.succeeds m = false ∧ op.after m = m) := by
  unfold Op.succeeds Op.after
  by_cases haccepted : op.Accepted m
  · obtain ⟨m', hrun, hcarried⟩ := run_of_accepted h haccepted
    rw [hrun]
    exact Or.inl ⟨rfl, hcarried⟩
  · rw [run_of_refused h haccepted]
    exact Or.inr ⟨rfl, rfl⟩

/-- Whatever is carried out, fields and memory stay in agreement. -/
theorem Sound.after (h : Sound m) (ops : List Op) : Sound (m.after ops) := by
  induction ops generalizing m with
  | nil => exact h
  | cons op ops ih =>
    rw [after_cons]
    rcases after_cases h op with ⟨-, hcarried⟩ | ⟨-, heq⟩
    · exact ih hcarried.sound
    · rw [heq]
      exact ih h

/-- **What a row of operations leaves is what those write that are carried out.** By induction on
the row, with one step for an operation that is accepted and one for an operation that is not. -/
theorem shown_after (h : Sound m) (ops : List Op) :
    (m.after ops).code = (m.carriedOut ops).foldl Op.written m.code ∧
      (m.after ops).executable = (m.carriedOut ops).foldl Op.protection m.executable := by
  induction ops generalizing m with
  | nil => exact ⟨rfl, rfl⟩
  | cons op ops ih =>
    rw [after_cons, carriedOut]
    rcases after_cases h op with ⟨hdone, hcarried⟩ | ⟨hdone, heq⟩
    · rw [if_pos hdone, List.foldl_cons, List.foldl_cons, ← hcarried.code, ← hcarried.executable]
      exact ih hcarried.sound
    · rw [if_neg (ne_true_of_eq_false hdone), heq]
      exact ih h

theorem le_resized (m : Mapping) (hop : op ≠ .relocate) : m.capacity ≤ op.resized m := by
  cases op with
  | emit d => exact (m.le_capacityFor d.encode.length).1
  | relocate => exact absurd rfl hop
  | _ => exact Nat.le_refl _

/-- Only a relocation makes a buffer smaller, as it gives the code just the pages it needs. -/
theorem le_capacity_after (h : Sound m) {ops : List Op} (hops : .relocate ∉ ops) :
    m.capacity ≤ (m.after ops).capacity := by
  induction ops generalizing m with
  | nil => exact Nat.le_refl _
  | cons op ops ih =>
    rw [List.mem_cons, not_or] at hops
    rw [after_cons]
    rcases after_cases h op with ⟨-, hcarried⟩ | ⟨-, heq⟩
    · have hstep : m.capacity ≤ (op.after m).capacity := by
        rw [hcarried.capacity]
        exact m.le_resized (Ne.symm hops.1)
      exact Nat.le_trans hstep (ih hcarried.sound hops.2)
    · rw [heq]
      exact ih h hops.2

/-! ### What a buffer promises -/

/-- A buffer as it is made. -/
inductive Initial : Mapping → Prop where
  /-- Without memory. -/
  | empty : Initial .empty
  /-- With room for some bytes. -/
  | new {size : Nat} {m : Mapping} (h : Mapping.new size = .ok m) : Initial m

/-- A buffer that was just made shows nothing but its capacity. -/
theorem Initial.shows (h : Initial m) : Shows m [] false m.capacity := by
  cases h with
  | empty => exact ⟨sound_empty, rfl, rfl, rfl⟩
  | @new size _ hnew =>
    rcases Nat.lt_or_ge (max size 1 + pageSize) (2 ^ 64) with hlt | hge
    · rw [new_of_lt hlt] at hnew
      obtain rfl := Except.ok.inj hnew
      exact ⟨sound_fresh hlt, rfl, rfl, rfl⟩
    · rw [new_of_le hge] at hnew
      cases hnew

/-- What is promised of a buffer where the operations `done` have been carried out. -/
structure Reflects (m : Mapping) (done : List Op) : Prop where
  /-- It shows the bytes that they wrote. -/
  code : m.code = done.foldl Op.written []
  /-- It counts them. -/
  offset : m.offset = m.code.length
  /-- The last change of protection holds. -/
  executable : m.executable = done.foldl Op.protection false
  /-- The memory has the size and the protection that the buffer says. -/
  pages : ∀ p, m.pages = some p → p.size = m.capacity ∧ p.writable = !m.executable
  /-- The capacity is a number of pages with room for the bytes. -/
  capacity : pageSize ∣ m.capacity ∧ m.code.length ≤ m.capacity
  /-- Only a relocation makes the capacity smaller. -/
  grows : ∀ ops, .relocate ∉ ops → m.capacity ≤ (m.after ops).capacity
  /-- An accepted operation is carried out. -/
  accepts : ∀ op : Op, op.Accepted m → ∃ m', op.run m = .ok (op.reply m.code) m'
  /-- Any other operation faults and changes nothing. -/
  refuses : ∀ op : Op, ¬ op.Accepted m → op.run m = .error (op.fault m) m
  /-- Reading answers the word that is there, and changes nothing. -/
  reads : ∀ offset, offset + 4 ≤ m.code.length → (Op.read32 offset).run m =
    .ok (some (UInt32.ofNat (ofBytes ((m.code.drop offset).take 4)))) m
  /-- A word that was patched is read back. -/
  reads_back : ∀ offset v r m', (Op.patch32 offset v).run m = .ok r m' →
    (Op.read32 offset).run m' = .ok (some v) m'
  /-- A relocation keeps the bytes, their number and the protection. -/
  relocates : ∀ r m', Op.relocate.run m = .ok r m' → m'.code = m.code ∧ m'.offset = m.offset ∧
    m'.executable = m.executable ∧ (∀ p, m'.pages = some p → p.writable = !m.executable) ∧
    m'.capacity = roundToPage (max m.code.length 1)

/-- A word that was patched is read back at once. -/
theorem run_read32_of_patched (h : Sound m) {v : UInt32}
    (hrun : (Op.patch32 start v).run m = .ok r m') :
    (Op.read32 start).run m' = .ok (some v) m' := by
  obtain ⟨⟨hin, -⟩, -, hpatched⟩ := carried_of_run h hrun
  have hpre : (m.code.take start).length = start := by
    rw [List.length_take]
    omega
  have hcode : m'.code = m.code.take start ++ (bytes32 v ++ m.code.drop (start + 4)) :=
    hpatched.code.trans (List.append_assoc ..)
  have hword : (m'.code.drop start).take 4 = bytes32 v := by
    rw [hcode, List.drop_left' hpre, List.take_left' (length_bytes32 v)]
  have hin' : start + 4 ≤ m'.code.length := by
    rw [hcode, List.length_append, hpre, List.length_append, length_bytes32]
    omega
  rw [run_read32 hpatched.sound hin', hword, ofBytes_bytes32]

/-- A relocation moves the code and its protection to as few pages as hold it. -/
theorem Sound.relocates (h : Sound m) (hrun : Op.relocate.run m = .ok r m') :
    m'.code = m.code ∧ m'.offset = m.offset ∧ m'.executable = m.executable ∧
      (∀ p, m'.pages = some p → p.writable = !m.executable) ∧
      m'.capacity = roundToPage (max m.code.length 1) := by
  obtain ⟨-, -, hmoved⟩ := carried_of_run h hrun
  have hexec : m'.executable = m.executable := hmoved.executable
  refine ⟨hmoved.code, hmoved.offset.trans h.length_code, hexec, fun p hp => ?_, hmoved.capacity⟩
  rw [hmoved.sound.writable p hp, hexec]

/-- **A code buffer is a list of bytes.** After any row of operations it shows what those wrote that
were carried out, and which ones are depends on the list, the capacity and the protection alone. -/
theorem reflects_of_session (h : Initial m) (ops : List Op) :
    Reflects (m.after ops) (m.carriedOut ops) := by
  have hinitial := h.shows
  have hafter := hinitial.sound.after ops
  obtain ⟨hcode, hexec⟩ := shown_after hinitial.sound ops
  rw [hinitial.code] at hcode
  rw [hinitial.executable] at hexec
  exact
    { code := hcode
      offset := hafter.length_code.symm
      executable := hexec
      pages := fun p hp => ⟨hafter.size p hp, hafter.writable p hp⟩
      capacity := ⟨hafter.whole, hafter.length_code ▸ hafter.offset_le⟩
      grows := fun _ => le_capacity_after hafter
      accepts := fun _ haccepted => (run_of_accepted hafter haccepted).imp fun _ hrun => hrun.1
      refuses := fun _ => run_of_refused hafter
      reads := fun _ => run_read32 hafter
      reads_back := fun _ _ _ _ => run_read32_of_patched hafter
      relocates := fun _ _ => hafter.relocates }

/-- Patches that overlap, two that are refused, and a relocation between two emissions. -/
def overlapping : List Op :=
  [.emit (.word 0xDEADBEEF), .emit (.byte 0x90), .patch32 0 1, .patch32 1 0x01020304,
    .patch32 2 7, .setExecutable, .patch32 0 9, .relocate, .setWritable, .emit (.long 5)]

/-- Patches that overlap leave the bytes of the later one where they meet. -/
theorem reflects_of_session_overlapping : Initial .empty ∧
    (empty.after overlapping).code = [1, 4, 3, 2, 1, 5, 0, 0, 0, 0, 0, 0, 0] ∧
    Reflects (empty.after overlapping) (empty.carriedOut overlapping) := by
  have h := reflects_of_session Initial.empty overlapping
  refine ⟨Initial.empty, ?_, h⟩
  rw [h.code]
  decide +kernel

end Mapping

/-! ### The buffer that is shown -/

namespace Buffer

/-- Appending to the buffer that is shown, in cases: what fits is stored unless the memory is
protected, and what does not is made room for first, which an executable buffer refuses. -/
theorem append_eq (b : Buffer) (bs : List UInt8) : b.append bs =
    if b.size + bs.length ≤ b.capacity then
      if b.executable = true ∧ bs ≠ [] then .error .protectedWrite
      else .ok { b with bytes := b.bytes.appendList bs }
    else if b.executable = true then .error .writeExecutable
    else .ok ⟨b.bytes.appendList bs,
      roundToPage (max (max (b.capacity * 2) (b.size + bs.length)) pageSize), b.executable⟩ := by
  rw [append, reserve]
  by_cases hroom : b.size + bs.length ≤ b.capacity
  · rw [if_pos hroom, if_pos hroom]
    by_cases hwrite : b.executable = true ∧ bs ≠ []
    · rw [if_pos hwrite]
      exact if_pos (by simpa using hwrite)
    · rw [if_neg hwrite]
      exact if_neg (by simpa using hwrite)
  · rw [if_neg hroom, if_neg hroom]
    by_cases hexec : b.executable = true
    · rw [if_pos hexec, if_pos hexec]
      rfl
    · rw [if_neg hexec, if_neg hexec]
      exact if_neg (by simpa using fun h => absurd h hexec)

/-- Patching the buffer that is shown, with its refusals in the order of the checks. -/
theorem patch32_eq (b : Buffer) (offset : Nat) (v : UInt32) : b.patch32 offset v =
    if 2 ^ 64 ≤ offset + 4 then .error (.overflow .add)
    else if b.size < offset + 4 then .error .patchOutside
    else if b.executable = true then .error .patchExecutable
    else .ok { b with bytes := overwrite b.bytes offset (bytes32 v) } := by
  rw [patch32]
  by_cases hlarge : 2 ^ 64 ≤ offset + 4
  · rw [Checked.size_of_le hlarge, if_pos hlarge]
    rfl
  rw [Checked.size_of_lt (Nat.lt_of_not_le hlarge), if_neg hlarge]
  by_cases hout : b.size < offset + 4
  · rw [if_pos hout]
    exact if_pos hout
  · rw [if_neg hout]
    refine (if_neg hout).trans ?_
    by_cases hexec : b.executable = true
    · rw [if_pos hexec, if_pos hexec]
      rfl
    · rw [if_neg hexec, if_neg hexec]
      rfl

/-- Reading the buffer that is shown. Protection does not matter for a read. -/
theorem read32_eq (b : Buffer) (offset : Nat) : b.read32 offset =
    if 2 ^ 64 ≤ offset + 4 then .error (.overflow .add)
    else if b.size < offset + 4 then .error .readOutside
    else .ok (UInt32.ofNat (ofBytes (b.window offset (offset + 4)))) := by
  rw [read32]
  by_cases hlarge : 2 ^ 64 ≤ offset + 4
  · rw [Checked.size_of_le hlarge, if_pos hlarge]
    rfl
  rw [Checked.size_of_lt (Nat.lt_of_not_le hlarge), if_neg hlarge]
  by_cases hout : b.size < offset + 4
  · rw [if_pos hout]
    exact if_pos hout
  · rw [if_neg hout]
    exact if_neg hout

end Buffer

namespace Mapping

variable {m m' : Mapping} {op : Op} {r : Option UInt32} {f : Fault}

/-- Carries an operation out on what a buffer shows. -/
def Op.onBuffer (b : Buffer) : Op → Except Fault (Option UInt32 × Buffer)
  | emit d => (b.append d.encode).map (none, ·)
  | patch32 offset v => (b.patch32 offset v).map (none, ·)
  | read32 offset => (b.read32 offset).map (some ·, b)
  | setExecutable => .ok (none, b.setExecutable)
  | setWritable => .ok (none, b.setWritable)
  | relocate => .ok (none, b.relocated)

theorem size_view (m : Mapping) : m.view.size = m.code.length := List.size_toArray

theorem Shows.view {code : List UInt8} {executable : Bool} {capacity : Nat}
    (h : Shows m code executable capacity) : m.view = ⟨code.toArray, capacity, executable⟩ := by
  rw [Mapping.view, h.code, h.capacity, h.executable]

/-- A new buffer shows a new buffer. -/
theorem map_view_new (n : Nat) : (new n).map view = Buffer.new n := by
  rcases Nat.lt_or_ge (max n 1 + pageSize) (2 ^ 64) with hlt | hge
  · rw [new_of_lt hlt, Buffer.new, Checked.size_of_lt hlt]
    rfl
  · rw [new_of_le hge, Buffer.new, Checked.size_of_le hge]
    rfl

/-- **An operation that is carried out in memory is carried out on what is shown.** This ties the
memory to the buffer that the assembler emits to, which has no pages. -/
theorem onBuffer_of_run (h : Sound m) (hrun : op.run m = .ok r m') :
    op.onBuffer m.view = .ok (r, m'.view) := by
  obtain ⟨haccepted, rfl, hcarried⟩ := carried_of_run h hrun
  have hsize : m.view.size = m.offset := (size_view m).trans h.length_code
  have hoffset := h.offset_le
  have hsmall := h.small
  rw [hcarried.view]
  cases op with
  | emit d =>
    have hbytes : m.code.toArray.appendList d.encode = (m.code ++ d.encode).toArray := by simp
    rw [Op.onBuffer, Buffer.append_eq, hsize, Op.resized, capacityFor]
    by_cases hroom : m.offset + d.encode.length ≤ m.capacity
    · rw [if_pos (show _ ≤ m.view.capacity from hroom), if_pos hroom, if_neg ?_]
      · exact congrArg (fun bytes => Except.ok (none, Buffer.mk bytes _ _)) hbytes
      · exact fun hfault => haccepted.2.elim (ne_true_of_eq_false · hfault.1) hfault.2
    · have hexec : m.executable = false := haccepted.2.resolve_right fun hnil => by
        rw [hnil, List.length_nil] at hroom
        omega
      rw [if_neg (show ¬ _ ≤ m.view.capacity from hroom), if_neg hroom,
        if_neg (show ¬ m.view.executable = true from ne_true_of_eq_false hexec)]
      exact congrArg (fun bytes => Except.ok (none, Buffer.mk bytes _ _)) hbytes
  | patch32 offset v =>
    have hin : offset + 4 ≤ m.offset := h.length_code ▸ haccepted.1
    have hbytes : Buffer.overwrite m.code.toArray offset (bytes32 v) =
        (m.code.take offset ++ bytes32 v ++ m.code.drop (offset + 4)).toArray :=
      Array.toList_inj.mp (Buffer.toList_overwrite_of_le (by simpa using haccepted.1))
    rw [Op.onBuffer, Buffer.patch32_eq, hsize, if_neg (by omega), if_neg (by omega),
      if_neg (show ¬ m.view.executable = true from ne_true_of_eq_false haccepted.2)]
    exact congrArg (fun bytes => Except.ok (none, Buffer.mk bytes _ _)) hbytes
  | read32 offset =>
    have hin : offset + 4 ≤ m.offset := h.length_code ▸ haccepted
    have hwindow : m.view.window offset (offset + 4) = (m.code.drop offset).take 4 := by
      simp [Buffer.window, Mapping.view]
    rw [Op.onBuffer, Buffer.read32_eq, hsize, if_neg (by omega), if_neg (by omega), hwindow]
    rfl
  | setExecutable => rfl
  | setWritable => rfl
  | relocate =>
    rw [Op.onBuffer, Buffer.relocated, size_view]
    rfl

/-- An operation that faults in memory faults alike on what is shown, but for a size that leaves its
word. -/
theorem onBuffer_of_fault (h : Sound m) (hrun : op.run m = .error f m') :
    (∃ word, f = .overflow word) ∨ op.onBuffer m.view = .error f := by
  obtain ⟨hrefused, rfl, -⟩ := refused_of_run h hrun
  have hsize : m.view.size = m.offset := (size_view m).trans h.length_code
  cases op with
  | emit d =>
    rw [Op.onBuffer, Buffer.append_eq, hsize, Op.fault]
    by_cases hlarge : 2 ^ 64 ≤ m.offset + d.encode.length
    · exact Or.inl ⟨_, if_pos hlarge⟩
    rw [if_neg hlarge]
    by_cases hexec : m.executable = true
    · have hbytes := encode_ne_nil_of_refused h hrefused
      have hview : m.view.executable = true := hexec
      refine Or.inr ?_
      rw [if_pos hexec]
      by_cases hroom : m.offset + d.encode.length ≤ m.capacity
      · rw [if_pos hroom, if_pos (show _ ≤ m.view.capacity from hroom), if_pos ⟨hview, hbytes⟩]
        rfl
      · rw [if_neg hroom, if_neg (show ¬ _ ≤ m.view.capacity from hroom), if_pos hview]
        rfl
    · rw [if_neg hexec]
      exact Or.inl ⟨_, rfl⟩
  | patch32 offset v =>
    rw [Op.onBuffer, Buffer.patch32_eq, size_view, Op.fault]
    by_cases hlarge : 2 ^ 64 ≤ offset + 4
    · exact Or.inl ⟨_, if_pos hlarge⟩
    refine Or.inr ?_
    rw [if_neg hlarge, if_neg hlarge]
    by_cases hout : m.code.length < offset + 4
    · rw [if_pos hout, if_pos hout]
      rfl
    · have hexec : m.view.executable = true := by
        rw [← Bool.not_eq_false]
        exact fun hexec => hrefused ⟨Nat.le_of_not_lt hout, hexec⟩
      rw [if_neg hout, if_neg hout, if_pos hexec]
      rfl
  | read32 offset =>
    rw [Op.onBuffer, Buffer.read32_eq, size_view, Op.fault]
    by_cases hlarge : 2 ^ 64 ≤ offset + 4
    · exact Or.inl ⟨_, if_pos hlarge⟩
    refine Or.inr ?_
    rw [if_neg hlarge, if_neg hlarge, if_pos (Nat.lt_of_not_le hrefused)]
    rfl
  | _ => exact Or.inl ⟨_, rfl⟩

/-! ### Writing to an executable buffer -/

/-- A buffer that operations lead to. -/
def Reachable (m : Mapping) : Prop := ∃ start ops, Initial start ∧ start.after ops = m

theorem Reachable.sound (h : Reachable m) : Sound m := by
  obtain ⟨start, ops, hinitial, rfl⟩ := h
  exact hinitial.shows.sound.after ops

/-- **Nothing is written to an executable buffer, but not always by its own assertions**: they stop
every patch and the emissions for which there is no room, and the processor stops those for which
there is. -/
theorem write_of_executable (h : Reachable m) (hexec : m.executable = true) :
    (∀ offset v, offset + 4 ≤ m.code.length →
      (Op.patch32 offset v).run m = .error .patchExecutable m) ∧
    ∀ d : Datum, d.encode ≠ [] → ∃ f, (Op.emit d).run m = .error f m ∧
      (f = .writeExecutable ↔
        m.capacity < m.offset + d.encode.length ∧ m.offset + d.encode.length < 2 ^ 64) ∧
      (f = .protectedWrite ↔ m.offset + d.encode.length ≤ m.capacity) := by
  have hsound := h.sound
  have hoffset := hsound.offset_le
  have hsmall := hsound.small
  have hlen := hsound.length_code
  refine ⟨fun offset v hin => ?_, fun d hbytes => ⟨_, run_of_refused hsound ?_, ?_⟩⟩
  · have hrefused : ¬ (Op.patch32 offset v).Accepted m := fun haccepted =>
      ne_true_of_eq_false haccepted.2 hexec
    rw [run_of_refused hsound hrefused, Op.fault, if_neg (by omega), if_neg (by omega)]
  · rintro ⟨-, hwritable | hnil⟩
    · exact ne_true_of_eq_false hwritable hexec
    · exact hbytes hnil
  · rw [Op.fault, if_pos hexec]
    by_cases hlarge : 2 ^ 64 ≤ m.offset + d.encode.length
    · rw [if_pos hlarge]
      exact ⟨by simp; omega, by simp; omega⟩
    rw [if_neg hlarge]
    by_cases hroom : m.offset + d.encode.length ≤ m.capacity
    · rw [if_pos hroom]
      exact ⟨by simp; omega, by simp [hroom]⟩
    · rw [if_neg hroom]
      exact ⟨by simp; omega, by simp; omega⟩

theorem new_page : new 4096 = .ok (fresh 4096) := rfl

/-- A page with one word of code, made executable. -/
def frozen : Mapping := (fresh 4096).after [.emit (.word 0xC3C3C3C3), .setExecutable]

/-- An executable buffer refuses a patch, and it refuses bytes that it has no room for, but a byte
that fits is stored into protected memory. -/
theorem write_of_executable_frozen : Reachable frozen ∧ frozen.executable = true ∧
    (Op.patch32 0 7).run frozen = .error .patchExecutable frozen ∧
    (Op.emit (.byte 0xC3)).run frozen = .error .protectedWrite frozen ∧
    (Op.emit (.bytes (List.replicate 4093 0xC3))).run frozen = .error .writeExecutable frozen := by
  have hreachable : Reachable frozen := ⟨fresh 4096, _, .new new_page, rfl⟩
  have hexec : frozen.executable = true := rfl
  obtain ⟨hpatch, hemit⟩ := write_of_executable hreachable hexec
  refine ⟨hreachable, hexec, hpatch 0 7 (by decide), ?_, ?_⟩
  · obtain ⟨f, hrun, -, hroom⟩ := hemit (.byte 0xC3) (by decide)
    rw [hroom.mpr (by decide)] at hrun
    exact hrun
  · obtain ⟨f, hrun, hasserted, -⟩ := hemit (.bytes (List.replicate 4093 0xC3)) (by decide)
    rw [hasserted.mpr (by rw [Datum.encode, List.length_replicate]; decide)] at hrun
    exact hrun

/-- There is room for 4092 more bytes, and no assertion of the buffer stops one of them. -/
theorem emit_frozen : Reachable frozen ∧ frozen.executable = true ∧ frozen.offset = 4 ∧
    frozen.capacity = 4096 ∧
    (Op.emit (.byte 0xC3)).run frozen = .error .protectedWrite frozen :=
  ⟨⟨fresh 4096, _, .new new_page, rfl⟩, rfl, rfl, rfl, rfl⟩

end Mapping

end NativeMatcher.Code
