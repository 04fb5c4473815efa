import NativeMatcher.Proofs.HostCalls
import NativeMatcher.Proofs.RangeLists

/-!
# The code of look-ups in range lists

The boundaries of a range list are computed when a look-up is compiled, and kept beside the code.
The look-up passes the character to the host, and the address and the number of the boundaries; the
host answers with their parity at the character (`NativeMatcher.isCharacterInRangeArray`), and the
look-up branches on the answer. Since the boundaries that the assembler records lie where the code
says, the answer is the membership of the character (`NativeMatcher.answer_rangeArguments`).

What a look-up does to a thread and what its code does to the machine come together in
`NativeMatcher.Assembler.rangeLists_of_emit`.
-/

namespace NativeMatcher

open Assembly Code X64 X64.Machine

/-! ### The host's look-up -/

namespace X64.Machine

variable {m m' : Machine} {a : UInt64} {size n : Nat}

/-- Numbers are the same where their bytes are. -/
theorem numbersAt_congr (h : ∀ b, (b - a).toNat < size * n → m'.mem b = m.mem b)
    (hn : size * n < 2 ^ 64) : m'.numbersAt size a n = m.numbersAt size a n := by
  induction n generalizing a with
  | zero => rfl
  | succ n ih =>
    rw [Nat.mul_succ] at h hn
    have hbytes : m'.bytesAt a size = m.bytesAt a size := bytesAt_congr fun i hi => h _ (by
      rw [UInt64.add_comm, UInt64.add_sub_cancel, UInt64.toNat_ofNat']
      omega)
    rw [numbersAt, numbersAt, hbytes, ih (fun b hb => h b ?_) (by omega)]
    have hsum : b - a = b - (a + UInt64.ofNat size) + UInt64.ofNat size := by grind
    rw [hsum, UInt64.toNat_add, UInt64.toNat_ofNat']
    omega

end X64.Machine

/-- The host's look-up of a character in a list of boundaries, which are 32-bit words. -/
def isCharacterInRangeArray : HostFunction where
  field := .isCharacterInRangeArray
  answer m :=
    let boundaries := (m.numbersAt 4 (m.regs .rsi) (m.regs .rdx).toNat).map UInt32.ofNat
    if CharRange.memBoundaries boundaries (m.regs .rdi).toUInt32 then 1 else 0
  reads m b := (b - m.regs .rsi).toNat < 4 * (m.regs .rdx).toNat

/-- A list of boundaries lies in memory at an address. -/
def BoundariesAt (address : UInt64) (boundaries : List UInt32) (m : Machine) : Prop :=
  (m.numbersAt 4 address boundaries.length).map UInt32.ofNat = boundaries

/-- The bytes of the boundaries of ranges at an address. -/
def InBoundaries (address : UInt64) (rs : List CharRange) (b : UInt64) : Prop :=
  (b - address).toNat < 4 * (2 * rs.length)

/-! ### The arguments of a look-up -/

/-- Passes the character, and where its boundaries are. -/
def boundariesArguments (address : UInt64) (rs : List CharRange) : List Instr :=
  [.mov .w32 .rdi chr,
    if rs.isEmpty then .loadConst .w64 .rsi emptyTable else loadTable .rsi address]

/-- Passes also how many boundaries there are. -/
def rangeArguments (address : UInt64) (rs : List CharRange) : List Instr :=
  boundariesArguments address rs ++ [.loadConst .w64 .rdx (UInt64.ofNat (2 * rs.length))]

section Arguments

variable (address : UInt64) (rs : List CharRange)

theorem writesWithin_boundariesArguments :
    (boundariesArguments address rs).all (Instr.writesWithin callArguments) = true := by
  cases rs <;> rfl

theorem isPlain_boundariesArguments : (boundariesArguments address rs).all isPlain = true := by
  cases rs <;> rfl

theorem writesWithin_rangeArguments :
    (rangeArguments address rs).all (Instr.writesWithin callArguments) = true := by
  rw [rangeArguments, List.all_append, writesWithin_boundariesArguments]
  simpa using writesWithin_loadConst .w64 _ (by decide)

theorem isPlain_rangeArguments : (rangeArguments address rs).all isPlain = true := by
  rw [rangeArguments, List.all_append, isPlain_boundariesArguments]
  simpa using isPlain_loadConst .w64 _

/-- A look-up is the call of the host and the branch on its answer. -/
theorem items_rangeLookup (c : Cond) (dest : Target) : (rangeLookup address rs c dest).items =
    (hostCall .isCharacterInRangeArray (rangeArguments address rs)).map .instr ++
      [.instr (.test .w64 .rax .rax), branchTo c dest] := by
  cases rs <;> rfl

theorem length_rangeLookup (c : Cond) (dest : Target) :
    (rangeLookup address rs c dest).items.length =
      (hostCall .isCharacterInRangeArray (rangeArguments address rs)).length + 2 := by
  simp [items_rangeLookup]

/-- It has no labels. -/
theorem findIdx?_binds_rangeLookup (c : Cond) (dest : Target) (l : Label) :
    (rangeLookup address rs c dest).items.findIdx? (Item.binds l) = none := by
  rw [List.findIdx?_eq_none_iff]
  intro x hx
  simp only [items_rangeLookup, List.mem_append, List.mem_map, List.mem_cons, List.not_mem_nil,
    or_false] at hx
  rcases hx with ⟨i, -, rfl⟩ | rfl | rfl <;> rfl

end Arguments

section Look

variable {k : Task} {t : Thread} {m : Machine} (address : UInt64) (rs : List CharRange)

theorem rdx_calling (hcount : 2 * rs.length < 2 ^ 32) :
    ((calling (rangeArguments address rs) m).regs .rdx).toNat = 2 * rs.length := by
  have hvalue : (UInt64.ofNat (2 * rs.length)).toNat = 2 * rs.length := by
    rw [UInt64.toNat_ofNat']
    omega
  exact (congrArg UInt64.toNat (regs_calling_loadConst (by decide) (by omega))).trans hvalue

theorem rsi_calling : (calling (rangeArguments address rs) m).regs .rsi =
    if rs.isEmpty then emptyTable else address := by
  rw [rangeArguments, regs_calling_of_ne (by decide)]
  cases rs <;> rfl

theorem rdi_calling (h : Represents k t m) :
    ((calling (rangeArguments address rs) m).regs .rdi).toUInt32 = t.char := by
  have hchar : (afterAll (prepareCall ++ boundariesArguments address rs) m).regs .rdi =
      Width.w32.trunc (Width.w32.trunc (m.regs chr)) := by
    cases rs <;> rfl
  rw [rangeArguments, regs_calling_of_ne (by decide), hchar, h.char, trunc_char, trunc_char]
  exact UInt32.toUInt32_toUInt64 t.char

variable {address rs}

/-- The host looks the character up in the boundaries. -/
theorem answer_rangeArguments (h : Represents k t m) (hcount : 2 * rs.length < 2 ^ 32)
    (hlist : BoundariesAt address (CharRange.boundaries rs) m)
    (hsaved : ∀ b, InBoundaries address rs b → 8 ≤ (b - m.savedWord).toNat) :
    isCharacterInRangeArray.answer (calling (rangeArguments address rs) m) =
      if CharRange.memBoundaries (CharRange.boundaries rs) t.char then 1 else 0 := by
  have hcalled : AgreesOn (InBoundaries address rs) [] m (calling (rangeArguments address rs) m) :=
    agreesOn_calling (writesWithin_rangeArguments address rs) hsaved (by simp)
  have hnumbers : (calling (rangeArguments address rs) m).numbersAt 4
      ((calling (rangeArguments address rs) m).regs .rsi) (2 * rs.length) =
      m.numbersAt 4 address (2 * rs.length) := by
    rw [rsi_calling]
    cases rs with
    | nil => rfl
    | cons r rs => exact numbersAt_congr hcalled.mem (by omega)
  rw [BoundariesAt, CharRange.length_boundaries] at hlist
  simp only [isCharacterInRangeArray, rdx_calling address rs hcount, hnumbers, hlist,
    rdi_calling address rs h]

/-- It reads them only. -/
theorem inBoundaries_of_reads (hcount : 2 * rs.length < 2 ^ 32) {b : UInt64}
    (hb : isCharacterInRangeArray.reads (calling (rangeArguments address rs) m) b) :
    InBoundaries address rs b := by
  have hb : (b - (calling (rangeArguments address rs) m).regs .rsi).toNat <
      4 * ((calling (rangeArguments address rs) m).regs .rdx).toNat := hb
  rw [rdx_calling address rs hcount, rsi_calling] at hb
  cases rs with
  | nil => exact absurd hb (Nat.not_lt_zero _)
  | cons r rs => exact hb

end Look

/-! ### What a look-up finds -/

/-- The condition on which a look-up branches, inside the ranges or outside of them. -/
def lookUpCond (inside : Bool) : Cond := if inside then .ne else .e

theorem holds_lookUpCond {m : Machine} {found : Bool} (hrax : m.regs .rax = if found then 1 else 0)
    (inside : Bool) :
    (lookUpCond inside).holds (after (.test .w64 .rax .rax) m).flags = (found == inside) := by
  have he := holds_e_test hrax
  cases inside with
  | true => exact (congrArg (!·) he).trans (by cases found <;> rfl)
  | false => exact he.trans (by cases found <;> rfl)

/-- **What a look-up does, in code.** It asks the host about the character, and leaves for its
target or goes past as the host answers. The host reads the boundaries only. -/
theorem leads_rangeLookup (offset : Label → UInt32) {address : UInt64} {k : Task} {t : Thread}
    {m : Machine} {rs : List CharRange} {found : Bool} (inside : Bool) (dest : Target)
    (h : Represents k t m) (hcount : 2 * rs.length < 2 ^ 32)
    (hlist : BoundariesAt address (CharRange.boundaries rs) m)
    (hsaved : ∀ b, k.Needs t.regs.size m b ∨ InBoundaries address rs b →
      8 ≤ (b - m.savedWord).toNat)
    (hfound : CharRange.memBoundaries (CharRange.boundaries rs) t.char = found) :
    Leads offset (InBoundaries address rs) (rangeLookup address rs (lookUpCond inside) dest).items
      (isCharacterInRangeArray.Called (m.load .w64 m.contextAddress) (InBoundaries address rs))
      (isCharacterInRangeArray.Returns (k.Needs t.regs.size m))
      (if found = inside then k.LeavesFor (targetLabel dest) t m else k.GoesPast t.advance m)
      0 m := by
  have hanswer := answer_rangeArguments h hcount hlist fun b hb => hsaved b (.inr hb)
  have hlength := length_rangeLookup address rs (lookUpCond inside) dest
  have hout := findIdx?_binds_rangeLookup address rs (lookUpCond inside) dest (targetLabel dest)
  have hitems := Stands.self (rangeLookup address rs (lookUpCond inside) dest).items
  nth_rewrite 2 [items_rangeLookup] at hitems
  have hrest := hitems.right
  rw [List.length_map] at hrest
  rw [hfound] at hanswer
  generalize (rangeLookup address rs (lookUpCond inside) dest).items = items at *
  refine leads_call isCharacterInRangeArray hitems.left (writesWithin_rangeArguments address rs)
    (isPlain_rangeArguments address rs) (fun b hb => hsaved b (.inl hb))
    (fun b hb => .context hb) (fun b hb => inBoundaries_of_reads hcount hb) fun m' hrax hm' => ?_
  have hholds := holds_lookUpCond (hrax.trans hanswer) inside
  have htest : AgreesBeyond [] m' (after (.test .w64 .rax .rax) m') := agreesBeyond_after rfl
  have hcarries (pc : Nat) : Carries k { t with pc := pc } m (after (.test .w64 .rax .rax) m') :=
    have hreturned := h.carries hm' (fun b hb => hb) pc
    hreturned.trans (hreturned.thread.carries_of_agreesBeyond htest fun _ _ => List.not_mem_nil)
  have hbegin : GoesTo offset (InBoundaries address rs) items _ m' _
      (after (.test .w64 .rax .rax) m') := .plain hrest.head rfl
  by_cases heq : found = inside
  · rw [if_pos heq]
    rw [beq_iff_eq.mpr heq] at hholds
    exact .exit (hbegin.exits (.jump hrest.tail.head hholds hout)) ⟨_, rfl, hcarries t.pc⟩
  · rw [if_neg heq]
    rw [beq_false_of_ne heq] at hholds
    exact .exit ((hbegin.trans (.skip hrest.tail.head hholds)).exits
      (.past (List.getElem?_eq_none (by omega)))) ⟨_, rfl, hcarries (t.pc + 1)⟩

/-! ### Emitted look-ups -/

namespace Assembler

variable {a b : Assembler}

/-- The boundary list that an opcode reads. -/
def opBoundaries? (a : Assembler) (op : Opcode) : Option (List UInt32) :=
  match lower a.mode a.labels.size a.nextTable a.isBound op with
  | .ok bl => bl.boundaryList
  | .error _ => none

/-- What is emitted for a look-up, and the boundaries that are recorded. -/
theorem opItems_ranges {inside : Bool} {rs : List CharRange} {dest : Target}
    (hemit : a.emit (.onChar (.ranges inside rs) dest) = .ok b) (herror : b.error = none)
    (hcount : rs.length ≤ maxRangeArraySize) :
    a.opItems (.onChar (.ranges inside rs) dest) =
        (rangeLookup a.nextTable rs (lookUpCond inside) dest).items ∧
      a.opBoundaries? (.onChar (.ranges inside rs) dest) = some (CharRange.boundaries rs) := by
  have hlower : lower a.mode a.labels.size a.nextTable a.isBound
      (.onChar (.ranges inside rs) dest) =
      .ok (rangeLookup a.nextTable rs (lookUpCond inside) dest) := by
    cases inside <;> rfl
  have hrefuses : a.refuses (.onChar (.ranges inside rs) dest) = false := by
    cases inside <;> simp [refuses, reply, CharTest.ranges, hcount]
  obtain ⟨bl, hbl, hitems, -⟩ := exists_block (fun l => by simp) rfl hemit hrefuses herror
  obtain rfl := Except.ok.inj (hlower.symm.trans hbl)
  exact ⟨hitems, by rw [opBoundaries?, hlower]; rfl⟩

open CharRange in
/-- **What a look-up in a range list does, and its code.** One for being in a range branches if the
character is found, and one for being in none if it is not; if the host answers as it has to, the
code of the look-up leaves for the target or goes past accordingly, with the thread as it was. The
host reads the boundaries that were recorded for the look-up, and nothing else. -/
theorem rangeLists_of_emit (offset : Label → UInt32) {f : Label → Label} (inside : Bool)
    {rs : List CharRange} (dest : Target) {k : Task} {t : Thread} {m : Machine}
    (hemit : a.emit ((Opcode.onChar (.ranges inside rs) dest).mapLabels f) = .ok b)
    (herror : b.error = none) (hcount : rs.length ≤ maxRangeArraySize) (hrs : Ascending rs)
    (h : Represents k t m)
    (hlist : ∀ bs, a.opBoundaries? (.onChar (.ranges inside rs) (dest.map f)) = some bs →
      BoundariesAt a.nextTable bs m)
    (hsaved : ∀ b, k.Needs t.regs.size m b ∨ InBoundaries a.nextTable rs b →
      8 ≤ (b - m.savedWord).toNat) :
    ((Found rs t.char ↔ inside = true) →
      k.perform (.onChar (.ranges inside rs) dest) t = k.branch dest t ∧
        a.LeadsTo offset isCharacterInRangeArray (InBoundaries a.nextTable rs)
          (k.Needs t.regs.size m) (.onChar (.ranges inside rs) (dest.map f)) m
          (k.LeavesFor (targetLabel (dest.map f)) t m)) ∧
    (¬(Found rs t.char ↔ inside = true) →
      k.perform (.onChar (.ranges inside rs) dest) t = .next t.advance ∧
        a.LeadsTo offset isCharacterInRangeArray (InBoundaries a.nextTable rs)
          (k.Needs t.regs.size m) (.onChar (.ranges inside rs) (dest.map f)) m
          (k.GoesPast t.advance m)) := by
  obtain ⟨hitems, hboundaries⟩ := opItems_ranges hemit herror hcount
  have hmax : maxRangeArraySize = 128 := rfl
  have hleads := leads_rangeLookup offset inside (dest.map f) h (by omega)
    (hlist _ hboundaries) hsaved (memBoundaries_eq hrs t.char)
  have hperform := Task.perform_ranges (k := k) (t := t) hrs inside dest
  have hiff : decide (Found rs t.char) = inside ↔ (Found rs t.char ↔ inside = true) := by
    rw [Bool.eq_iff_iff, decide_eq_true_iff]
  simp only [hiff] at hleads hperform
  rw [← hitems] at hleads
  constructor
  · intro hfound
    rw [if_pos hfound] at hperform hleads
    exact ⟨hperform, hleads⟩
  · intro hfails
    rw [if_neg hfails] at hperform hleads
    exact ⟨hperform, hleads⟩

end Assembler

/-! ### A look-up in ranges that touch -/

namespace Sample

/-- Two ranges that touch, the second of one character. -/
def touching : List CharRange := [⟨0x41, 0x60⟩, ⟨0x61, 0x61⟩]

theorem ascending_touching : CharRange.Ascending touching := by decide

/-- The sample machine with a native stack, and with the boundaries of these ranges where the heap
puts the first table. -/
def lookingUp : Machine where
  regs
    | .rsp => 0xF00
    | r => machine.regs r
  mem a :=
    if a = heap 0 then 0x41 else if a = heap 0 + 4 ∨ a = heap 0 + 8 then 0x61
    else if a = heap 0 + 12 then 0x62
    else if heap 0 ≤ a ∧ a < heap 0 + 16 then 0
    else machine.mem a
  flags := {}

theorem represents_lookingUp : Represents task thread lookingUp where
  pos := rfl
  char := rfl
  registers := by decide +kernel
  before := by decide +kernel
  subject := by decide +kernel
  apart := by decide +kernel
  size_regs := by decide
  byteSize := by decide

theorem boundariesAt_lookingUp :
    BoundariesAt (heap 0) (CharRange.boundaries touching) lookingUp := by
  unfold BoundariesAt
  decide +kernel

/-- Nothing that is read lies where the call keeps the stack pointer. -/
theorem outside_lookingUp (b : UInt64)
    (hb : task.Needs thread.regs.size lookingUp b ∨ InBoundaries (heap 0) touching b) :
    8 ≤ (b - lookingUp.savedWord).toNat := by
  rcases hb with hb | hb
  · exact hb.outside (by decide +kernel) (by decide +kernel) (by decide +kernel)
      (by decide +kernel)
  · exact outside_of_apart hb (by decide +kernel) (by decide +kernel)

/-- The code of a look-up of the thread's character ends as described. -/
def LooksUp (inside : Bool) (post : Exit → Prop) : Prop :=
  ∃ a b, Assembler.new .latin1 2 heap = .ok a ∧
    a.emit (.onChar (.ranges inside touching) none) = .ok b ∧
    a.LeadsTo (fun _ => 0) isCharacterInRangeArray (InBoundaries (heap 0) touching)
      (task.Needs 2 lookingUp) (.onChar (.ranges inside touching) none) lookingUp post

end Sample

/-- The character is in the second of the ranges that touch, so that the look-up for being in a
range leads to the backtrack routine, and the other one goes past. -/
theorem Assembler.rangeLists_of_emit_touching :
    Sample.LooksUp true
        (Sample.task.LeavesFor Reserved.backtrack.label Sample.thread Sample.lookingUp) ∧
      Sample.LooksUp false (Sample.task.GoesPast Sample.thread.advance Sample.lookingUp) := by
  have hlist {inside : Bool} {a b : Assembler}
      (hb : a.emit (.onChar (.ranges inside Sample.touching) none) = .ok b)
      (herror : b.error = none) (haddress : a.nextTable = Sample.heap 0) (bs : List UInt32)
      (hbs : a.opBoundaries? (.onChar (.ranges inside Sample.touching) none) = some bs) :
      BoundariesAt a.nextTable bs Sample.lookingUp := by
    rw [haddress]
    rw [(opItems_ranges hb herror (by decide)).2] at hbs
    obtain rfl := Option.some.inj hbs
    exact Sample.boundariesAt_lookingUp
  have hrun : Sample.emits (.onChar (.ranges true Sample.touching) none) = true := by
    decide +kernel
  have hrun' : Sample.emits (.onChar (.ranges false Sample.touching) none) = true := by
    decide +kernel
  constructor
  · obtain ⟨a, b, ha, hb, herror, -, -, -, haddress⟩ := Sample.exists_emit hrun
    have hleads := (rangeLists_of_emit (fun _ => 0) (f := id) true none hb herror (by decide)
      Sample.ascending_touching Sample.represents_lookingUp (hlist hb herror haddress)
      (haddress ▸ Sample.outside_lookingUp)).1 (by decide)
    rw [haddress] at hleads
    exact ⟨a, b, ha, hb, hleads.2⟩
  · obtain ⟨a, b, ha, hb, herror, -, -, -, haddress⟩ := Sample.exists_emit hrun'
    have hleads := (rangeLists_of_emit (fun _ => 0) (f := id) false none hb herror (by decide)
      Sample.ascending_touching Sample.represents_lookingUp (hlist hb herror haddress)
      (haddress ▸ Sample.outside_lookingUp)).2 (by decide)
    rw [haddress] at hleads
    exact ⟨a, b, ha, hb, hleads.2⟩

end NativeMatcher
