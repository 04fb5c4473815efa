import NativeMatcher.Proofs.Comparison
import NativeMatcher.Proofs.Loads

/-!
# The code of references to captures

A reference that ignores case does not compare anything itself. It measures the capture as one that
compares characters does, and then asks the host, to which it passes the addresses of the two texts
and their length in bytes. The host reads as many bytes or 16-bit characters there
(`NativeMatcher.caseInsensitiveCompare`); since all of them lie in the subject, what it compares are
the texts (`NativeMatcher.Compares.answer_eq`).

Both kinds come together in `NativeMatcher.Assembler.reference_of_emit`: what a reference does to a
thread, and that its code does the same to the machine.
-/

namespace NativeMatcher

open Assembly Code X64 X64.Machine

/-! ### The host's comparison -/

/-- The host's comparison that ignores case: of the bytes or the 16-bit characters at two addresses,
given their length in bytes. -/
def caseInsensitiveCompare : HostFunction where
  field := .caseInsensitiveCompare
  answer m :=
    let length := (m.regs .rdx).toNat
    let unicode := m.regs .rcx &&& 2 != 0
    let equal :=
      if m.regs .rcx &&& 1 != 0 then
        Text.equalIgnoreCaseUc16 .standard unicode
          ((m.numbersAt 2 (m.regs .rdi) (length / 2)).map UInt16.ofNat)
          ((m.numbersAt 2 (m.regs .rsi) (length / 2)).map UInt16.ofNat)
      else
        Text.equalIgnoreCaseLatin1 .standard unicode (m.bytesAt (m.regs .rdi) length)
          (m.bytesAt (m.regs .rsi) length)
    if equal then 1 else 0
  reads m b :=
    (b - m.regs .rdi).toNat < (m.regs .rdx).toNat ∨ (b - m.regs .rsi).toNat < (m.regs .rdx).toNat

section Host

variable {k : Task} {t : Thread} {m : Machine} {i j n : Nat} (h : Represents k t m)

include h

/-- The bytes at the address of a character are those of the subject from there on. -/
theorem bytesAt_charAddress {bytes : Array UInt8} (hs : k.subject = .latin1 bytes)
    (hi : i + n ≤ bytes.size) :
    m.bytesAt (m.charAddress k.subject i) n = (bytes.toList.drop i).take n := by
  have hbyteSize : k.subject.byteSize = bytes.size := by
    rw [hs]
    exact Nat.mul_one _
  apply List.ext_getElem?
  intro q
  rcases Nat.lt_or_ge q n with hq | hq
  · have hbyte := h.subject (i + q) (by omega)
    have haddress : m.charAddress k.subject i + UInt64.ofNat q =
        m.subjectAddress k.subject.byteSize (i + q) := by
      have hwidth : k.subject.mode.charSize = 1 := by rw [hs]; rfl
      rw [charAddress, subjectAddress, subjectAddress, hwidth, Nat.mul_one, UInt64.ofNat_add,
        UInt64.add_assoc]
    rw [getElem?_bytesAt m _ hq, List.getElem?_take_of_lt hq, List.getElem?_drop, haddress, ← hbyte,
      hs]
    exact (Array.getElem?_toList ..).symm
  · rw [List.getElem?_eq_none (by simpa using hq), List.getElem?_eq_none (by simp; omega)]

/-- With 16-bit characters they are its units, lowest byte first. -/
theorem numbersAt_charAddress {units : Array UInt16} (hs : k.subject = .uc16 units)
    (hi : i + n ≤ units.size) :
    (m.numbersAt 2 (m.charAddress k.subject i) n).map UInt16.ofNat =
      (units.toList.drop i).take n := by
  induction n generalizing i with
  | zero => simp [numbersAt]
  | succ n ih =>
    have hin : i < units.size := by omega
    have hbyteSize : k.subject.byteSize = units.size * 2 := by
      rw [hs]
      rfl
    have hwidth : k.subject.mode.charSize = 2 := by rw [hs]; rfl
    have hword := wordAt?_eq h (i := i * k.subject.mode.charSize) (n := 2) (by
      rw [hwidth]
      omega)
    rw [← charAddress, hwidth, hs, Nat.mul_comm i 2, Subject.wordAt?_uc16 hin, ← hs] at hword
    have hlt := ofBytes_lt (m.bytesAt (m.charAddress k.subject i) 2)
    have hunit : UInt16.ofNat (ofBytes (m.bytesAt (m.charAddress k.subject i) 2)) = units[i] := by
      have hnat := congrArg UInt32.toNat (Option.some.inj hword)
      rw [length_bytesAt] at hlt
      apply UInt16.toNat_inj.mp
      have hcount : wordCount 2 = 65536 := rfl
      simp only [UInt16.toNat_toUInt32, UInt32.toNat_ofNat'] at hnat
      simp only [UInt16.toNat_ofNat']
      omega
    have hnext : m.charAddress k.subject i + UInt64.ofNat 2 = m.charAddress k.subject (i + 1) := by
      rw [← charAddress_succ, hwidth]
    have hlist : i < units.toList.length := hin
    rw [numbersAt, List.map_cons, hunit, hnext, ih (by omega), List.drop_eq_getElem_cons hlist,
      List.take_succ_cons]
    rfl

end Host

/-- The arguments of a comparison of the `n` characters from index `i` on with those from index `j`
on. -/
structure Compares (k : Task) (unicode : Bool) (i j n : Nat) (m : Machine) : Prop where
  /-- The address of the first text. -/
  first : m.regs .rdi = m.charAddress k.subject i
  /-- The address of the second one. -/
  second : m.regs .rsi = m.charAddress k.subject j
  /-- Their length in bytes. -/
  length : (m.regs .rdx).toNat = n * k.mode.charSize
  /-- The flags. -/
  flags : m.regs .rcx = compareFlags k.mode unicode

theorem wide_compareFlags (mode : Mode) (unicode : Bool) :
    (compareFlags mode unicode &&& 1 != 0) = (mode == .uc16) := by
  cases mode <;> cases unicode <;> rfl

theorem unicode_compareFlags (mode : Mode) (unicode : Bool) :
    (compareFlags mode unicode &&& 2 != 0) = unicode := by
  cases mode <;> cases unicode <;> rfl

namespace Compares

variable {k : Task} {t : Thread} {m : Machine} {unicode : Bool} {i j n : Nat}
  (hc : Compares k unicode i j n m) (hmode : k.subject.mode = k.mode)
  (hi : i + n ≤ k.subject.size) (hj : j + n ≤ k.subject.size)

include hc hmode hi hj

/-- The host compares the texts. -/
theorem answer_eq (h : Represents k t m) : caseInsensitiveCompare.answer m =
    if k.subject.equalIgnoreCaseAt unicode i j n then 1 else 0 := by
  simp only [caseInsensitiveCompare, hc.first, hc.second, hc.length, hc.flags, ← hmode,
    wide_compareFlags, unicode_compareFlags]
  cases hs : k.subject with
  | latin1 bytes =>
    rw [hs] at hi hj
    have hwide : ((Subject.latin1 bytes).mode == .uc16) = false := rfl
    have hwidth : n * (Subject.latin1 bytes).mode.charSize = n := Nat.mul_one n
    rw [hwide, hwidth, ← hs, bytesAt_charAddress h hs hi, bytesAt_charAddress h hs hj, hs]
    rfl
  | uc16 units =>
    rw [hs] at hi hj
    have hwide : ((Subject.uc16 units).mode == .uc16) = true := rfl
    have hwidth : n * (Subject.uc16 units).mode.charSize / 2 = n := Nat.mul_div_cancel n Nat.two_pos
    rw [hwide, hwidth, ← hs, numbersAt_charAddress h hs hi, numbersAt_charAddress h hs hj, hs]
    rfl

/-- It reads them only. -/
theorem inSubject_of_reads {b : UInt64} (hb : caseInsensitiveCompare.reads m b) :
    k.InSubject m b := by
  have hread {x : Nat} (hx : x + n ≤ k.subject.size)
      (hbyte : (b - m.charAddress k.subject x).toNat < n * k.mode.charSize) : k.InSubject m b := by
    have hle : (x + n) * k.subject.mode.charSize ≤ k.subject.byteSize := Nat.mul_le_mul_right _ hx
    rw [Nat.add_mul] at hle
    rw [← hmode] at hbyte
    refine ⟨x * k.subject.mode.charSize + (b - m.charAddress k.subject x).toNat, by omega, ?_⟩
    rw [subjectAddress, UInt64.ofNat_add, ← UInt64.add_assoc, ← subjectAddress, ← charAddress,
      UInt64.ofNat_toNat, UInt64.add_comm, UInt64.sub_add_cancel]
  rcases hb with hb | hb
  · rw [hc.first, hc.length] at hb
    exact hread hi hb
  · rw [hc.second, hc.length] at hb
    exact hread hj hb

end Compares

/-! ### References that ignore case -/

/-- Passes the capture and the text to compare it with. -/
def caselessTexts (backward : Bool) : List Instr :=
  leaSum .rdi inputEnd .rdx :: leaSum .rsi inputEnd pos ::
    ((if backward then [.alu .sub .w64 .rsi .rax] else []) ++ [.mov .w64 .rdx .rax])

/-- Passes the texts and the flags of a comparison. -/
def caselessArguments (mode : Mode) (backward unicode : Bool) : List Instr :=
  caselessTexts backward ++ [.loadConst .w32 .rcx (compareFlags mode unicode)]

/-- The parts of a reference that ignores case. -/
theorem stands_backReferenceIgnoreCase (mode : Mode) (next reg : Nat) (backward unicode : Bool)
    (dest : Target) :
    Stands (backReferenceIgnoreCase mode next reg backward unicode dest) 0
      (.declare :: ((captureLength reg ⟨next⟩ ++ captureFits backward dest) ++
        ((hostCall .caseInsensitiveCompare (caselessArguments mode backward unicode)).map .instr ++
          (.instr (.test .w64 .rax .rax) :: branchTo .e dest ::
            ((skipInstrs reg backward).map .instr ++ [Item.bind ⟨next⟩]))))) := by
  cases mode <;> cases backward <;> cases unicode <;> exact Stands.self _

/-- Where it ends. -/
def caselessDoneIndex (mode : Mode) (reg next : Nat) (backward unicode : Bool) (dest : Target) :
    Nat :=
  1 + (captureLength reg ⟨next⟩ ++ captureFits backward dest).length +
    (hostCall .caseInsensitiveCompare (caselessArguments mode backward unicode)).length + 2 +
    (skipInstrs reg backward).length

section Labels

variable (mode : Mode) (next reg : Nat) (backward unicode : Bool) (dest : Target)

theorem length_backReferenceIgnoreCase :
    (backReferenceIgnoreCase mode next reg backward unicode dest).length =
      caselessDoneIndex mode reg next backward unicode dest + 1 := by
  cases mode <;> cases backward <;> cases unicode <;> rfl

/-- The code of the reference binds its end as its last item. -/
theorem findIdx?_binds_caselessDone :
    (backReferenceIgnoreCase mode next reg backward unicode dest).findIdx?
      (Item.binds ⟨next⟩) = some (caselessDoneIndex mode reg next backward unicode dest) := by
  cases mode <;> cases backward <;> cases unicode <;>
    simp [backReferenceIgnoreCase, captureLength, captureFits, skipCapture, branchTo, Item.binds,
      List.findIdx?_cons, prepareCall, callHost, reloadCodeBase, caselessDoneIndex, hostCall,
      caselessArguments, caselessTexts, skipInstrs]

/-- The target is bound elsewhere. -/
theorem findIdx?_binds_caselessDest {l : Label} (hl : l.index < next) :
    (backReferenceIgnoreCase mode next reg backward unicode dest).findIdx? (Item.binds l) =
      none := by
  obtain ⟨x⟩ := l
  have hx : x < next := hl
  have hdone : next ≠ x := by omega
  cases mode <;> cases backward <;> cases unicode <;>
    simp [backReferenceIgnoreCase, captureLength, captureFits, skipCapture, branchTo, Item.binds,
      List.findIdx?_cons, prepareCall, callHost, reloadCodeBase, hdone]

end Labels

section Caseless

variable {k : Task} {t : Thread} {m m₁ : Machine} {reg s e p : Nat}
  (hmode : k.subject.mode = k.mode) (h : Represents k t m)

theorem isPlain_caselessArguments (mode : Mode) (backward unicode : Bool) :
    (caselessArguments mode backward unicode).all isPlain = true := by
  cases mode <;> cases backward <;> cases unicode <;> rfl

theorem writesWithin_caselessArguments (mode : Mode) (backward unicode : Bool) :
    (caselessArguments mode backward unicode).all (Instr.writesWithin callArguments) = true := by
  cases mode <;> cases backward <;> cases unicode <;> rfl

include hmode h

/-- The host is asked for the texts that are to be compared. The two addresses and the length are
loaded into the registers of its arguments, from what was measured before. -/
theorem compares_calling (hm : Measured reg t m m₁) (hse : s ≤ e) (he : e ≤ k.subject.size)
    (hp : p ≤ k.subject.size) (hcap : k.Captured t reg s e p) {backward : Bool}
    (hroom : k.Roomy backward s e p) (unicode : Bool) :
    Compares k unicode s (Task.opening backward p (e - s)) (e - s)
      (calling (caselessArguments k.mode backward unicode) m₁) := by
  have hsize := h.byteSize
  have hopening := Task.opening_add_le hse hp hroom
  have hstart : t.reg reg = k.position s := by rw [hcap.start, Task.placeAt_natCast]
  have hhere := opening_eq hse hcap hroom
  have hpos : m₁.regs pos = t.pos.toUInt64 := (hm.agrees.regs pos (by decide)).trans h.pos
  have hregs {r : Reg} (hr : r ∉ [.rax, .rcx]) :
      (calling (caselessArguments k.mode backward unicode) m₁).regs r =
        (afterAll (prepareCall ++ caselessTexts backward) m₁).regs r := regs_calling_of_ne hr
  have hinput : m₁.regs inputEnd = (calling (caselessArguments k.mode backward unicode) m₁).regs
      inputEnd := by
    rw [hregs (by decide)]
    cases backward <;> rfl
  refine ⟨?_, ?_, ?_, ?_⟩
  · have hrdi : (afterAll (prepareCall ++ caselessTexts backward) m₁).regs .rdi =
        m₁.address { base := inputEnd, index := some (.rdx, 0) } := by
      cases backward <;> rfl
    rw [hregs (by decide), hrdi, address_sum, hinput, hm.start, hstart,
      charAddress_eq hmode hsize (by omega)]
  · have hrsi : (afterAll (prepareCall ++ caselessTexts backward) m₁).regs .rsi =
        if backward then (subWords .w64 (m₁.address { base := inputEnd, index := some (pos, 0) })
          (m₁.regs .rax)).1 else m₁.address { base := inputEnd, index := some (pos, 0) } := by
      cases backward <;> rfl
    rw [hregs (by decide), hrsi, address_sum,
      ← charAddress_eq hmode hsize (by omega), ← hinput, ← hhere, hpos, hm.length]
    cases backward with
    | true =>
      rw [if_pos rfl, subWords_place, UInt64.sub_eq_add_neg, UInt64.add_assoc,
        ← UInt64.sub_eq_add_neg]
      rfl
    | false => rfl
  · have hrdx : (afterAll (prepareCall ++ caselessTexts backward) m₁).regs .rdx =
        m₁.regs .rax := by
      cases backward <;> rfl
    rw [hregs (by decide), hrdx, hm.length]
    have hint := hcap.toInt_length hmode hsize
    have hcases := Task.toNat_toUInt64_cases (Task.captureLength reg t)
    have hlt : (Task.captureLength reg t).toUInt64.toNat < 2 ^ 64 := UInt64.toNat_lt _
    have hnonneg : (0 : Int) ≤ ((e : Int) - s) * k.mode.charSize :=
      Int.mul_nonneg (by omega) (Int.natCast_nonneg _)
    have hcast : ((e - s : Nat) * k.mode.charSize : Nat) = ((e : Int) - s) * k.mode.charSize := by
      rw [Int.natCast_mul, Int.natCast_sub hse]
    omega
  · exact regs_calling_loadConst (by decide) (by cases k.mode <;> cases unicode <;> decide)

end Caseless

section Leads

variable {offset : Label → UInt32} {items : List Item} {x j : Nat} {k : Task} {t : Thread}
  {m m₁ : Machine} {reg s e p : Nat} {backward unicode : Bool} {dest : Target}
  (hmode : k.subject.mode = k.mode) (h : Represents k t m)

/-- An execution in which the host compares texts. -/
def CaselessLeads (offset : Label → UInt32) (k : Task) (t : Thread) (m : Machine)
    (items : List Item) (post : Exit → Prop) (i : Nat) (m₁ : Machine) : Prop :=
  Leads offset (k.InSubject m) items
    (caseInsensitiveCompare.Called (m.load .w64 m.contextAddress) (k.InSubject m))
    (caseInsensitiveCompare.Returns (k.Needs t.regs.size m)) post i m₁

include hmode h

/-- The host is called, and whatever machine it returns has its answer. The code saves its own
registers around the call, and tests the answer after it. -/
theorem leads_compare (hm : Measured reg t m m₁)
    (hsaved : ∀ b, k.Needs t.regs.size m b → 8 ≤ (b - m.savedWord).toNat) (hse : s ≤ e)
    (he : e ≤ k.subject.size) (hp : p ≤ k.subject.size) (hcap : k.Captured t reg s e p)
    (hroom : k.Roomy backward s e p) (hitems : Stands items x
      ((hostCall .caseInsensitiveCompare (caselessArguments k.mode backward unicode)).map .instr))
    {post : Exit → Prop} (hnext : ∀ m', m'.regs .rax = (if k.subject.equalIgnoreCaseAt unicode s
        (Task.opening backward p (e - s)) (e - s) then 1 else 0) → Carries k t m m' →
      CaselessLeads offset k t m items post (x + (hostCall .caseInsensitiveCompare
        (caselessArguments k.mode backward unicode)).length) m') :
    CaselessLeads offset k t m items post x m₁ := by
  have hsavedWord : m₁.savedWord = m.savedWord := by
    rw [savedWord, savedWord, hm.agrees.regs .rsp (by decide)]
  have hcontextAddress : m₁.contextAddress = m.contextAddress := by
    show m₁.regs fp + 0 + _ = m.regs fp + 0 + _
    rw [hm.agrees.regs fp (by decide)]
  have hcontext : m₁.load .w64 m₁.contextAddress = m.load .w64 m.contextAddress := by
    rw [hcontextAddress, load_congr hm.agrees.mem]
  rw [← hsavedWord] at hsaved
  have hcalled : AgreesOn (k.Needs t.regs.size m) [fp, inputEnd, pos, chr] m
      (calling (caselessArguments k.mode backward unicode) m₁) :=
    (AgreesOn.of_agreesBeyond hm.agrees (by decide)).trans
      (agreesOn_calling (writesWithin_caselessArguments _ _ _) hsaved (by decide))
  have hthread : Represents k t (calling (caselessArguments k.mode backward unicode) m₁) :=
    h.carry hcalled.mem (hcalled.regs fp (by decide)) (hcalled.regs inputEnd (by decide))
      ((hcalled.regs pos (by decide)).trans h.pos) ((hcalled.regs chr (by decide)).trans h.char)
      t.pc
  have hcompares := compares_calling hmode h hm hse he hp hcap hroom unicode
  have hopening := Task.opening_add_le hse hp hroom
  have hreads (b : UInt64) (hb : caseInsensitiveCompare.reads
      (calling (caselessArguments k.mode backward unicode) m₁) b) : k.InSubject m b := by
    obtain ⟨i, hi, hbyte⟩ := hcompares.inSubject_of_reads hmode (by omega) hopening hb
    refine ⟨i, hi, hbyte.trans ?_⟩
    rw [subjectAddress, subjectAddress, hcalled.regs inputEnd (by decide)]
  unfold CaselessLeads at hnext ⊢
  rw [← hcontext] at hnext ⊢
  refine leads_call caseInsensitiveCompare hitems (writesWithin_caselessArguments _ _ _)
    (isPlain_caselessArguments _ _ _) hsaved (fun b hb => .context (by rwa [hcontextAddress] at hb))
    hreads fun m' hrax hagrees => ?_
  refine hnext m' (hrax.trans (hcompares.answer_eq hmode (by omega) hopening hthread)) ?_
  exact h.carries ((AgreesOn.of_agreesBeyond hm.agrees (by decide)).trans hagrees)
    (fun b hb => hb) t.pc

end Leads

/-- **What a reference does that ignores case, in code.** It goes past if the host says that the
text of the capture is found, and leaves for its target otherwise. The host is asked only about
bytes of the subject. -/
theorem leads_backReferenceIgnoreCase (offset : Label → UInt32) {k : Task} {t : Thread}
    {m : Machine} {next reg s e p : Nat} {backward : Bool} (unicode : Bool) {dest : Target}
    (hmode : k.subject.mode = k.mode) (h : Represents k t m)
    (hsaved : ∀ b, k.Needs t.regs.size m b → 8 ≤ (b - m.savedWord).toNat) (hse : s ≤ e)
    (he : e ≤ k.subject.size) (hp : p ≤ k.subject.size) (hpos : t.pos = k.position p)
    (hcap : k.HoldsCapture t reg s e) (hreg : reg < t.regs.size) (hreg' : reg + 1 < t.regs.size)
    (hdest : (targetLabel dest).index < next) :
    (k.Repeats (k.subject.equalIgnoreCaseAt unicode) backward s e p →
      CaselessLeads offset k t m (backReferenceIgnoreCase k.mode next reg backward unicode dest)
        (k.GoesPast (k.behind backward s e p t) m) 0 m) ∧
    (¬k.Repeats (k.subject.equalIgnoreCaseAt unicode) backward s e p →
      CaselessLeads offset k t m (backReferenceIgnoreCase k.mode next reg backward unicode dest)
        (k.LeavesFor (targetLabel dest) t m) 0 m) := by
  have hitems := stands_backReferenceIgnoreCase k.mode next reg backward unicode dest
  have hdone := findIdx?_binds_caselessDone k.mode next reg backward unicode dest
  have hout := findIdx?_binds_caselessDest k.mode next reg backward unicode dest hdest
  have hlength := length_backReferenceIgnoreCase k.mode next reg backward unicode dest
  generalize backReferenceIgnoreCase k.mode next reg backward unicode dest = items at *
  have hbegin : GoesTo offset (k.InSubject m) items 0 m 1 m := .declare hitems.head
  have hlast : items[caselessDoneIndex k.mode reg next backward unicode dest]? =
      some (.bind ⟨next⟩) := by
    have h := hitems.tail.right.right.tail.tail.right.head
    rwa [List.length_map, List.length_map] at h
  have hpast (m' : Machine) : Exits offset (k.InSubject m) items
      (caselessDoneIndex k.mode reg next backward unicode dest) m' (.past m') :=
    (GoesTo.bind hlast).exits (.past (List.getElem?_eq_none (Nat.le_of_eq hlength)))
  rcases measured_cases offset (k.InSubject m) hmode h hse he hp hpos hcap
      hreg hreg' backward hitems.tail.left hdone hout with
    ⟨rfl, m₁, hm₁, hgoes⟩ | ⟨hlt, hroom, m₁, hm₁, hleaves⟩ |
    ⟨hlt, hroom, hcaptured, m₁, hm₁, hgoes⟩
  · have hsame := k.subject.equalIgnoreCaseAt_zero unicode
    refine ⟨fun _ => .exit (hbegin.exits (hgoes.exits (hpast m₁))) ⟨m₁, rfl, ?_⟩,
      fun hcon => absurd (Task.repeats_empty hp hsame backward) hcon⟩
    refine h.carries_moved hm₁.agrees (by decide) ?_ (t.pc + 1)
    rw [hm₁.agrees.regs pos (by decide), h.pos, hpos, Task.landing_self]
  · exact ⟨fun hcon => absurd hcon.1 hroom, fun _ => .exit (hbegin.exits hleaves) ⟨m₁, rfl,
      h.carries_moved hm₁.agrees (by decide) ((hm₁.agrees.regs pos (by decide)).trans h.pos) t.pc⟩⟩
  · have hrest := hitems.tail.right.right
    have hskipItems := hrest.tail.tail.left
    rw [List.length_map] at hrest hskipItems
    let x := 1 + (captureLength reg ⟨next⟩ ++ captureFits backward dest).length + (hostCall
      .caseInsensitiveCompare (caselessArguments k.mode backward unicode)).length
    have htest (m' : Machine) : GoesTo offset (k.InSubject m) items x m' (x + 1)
        (after (.test .w64 .rax .rax) m') := .plain hrest.head rfl
    have htested {m' : Machine} (hm' : Carries k t m m') :
        Carries k t m (after (.test .w64 .rax .rax) m') :=
      hm'.trans (hm'.thread.carries_of_agreesBeyond (agreesBeyond_after rfl)
        (fun _ _ => List.not_mem_nil))
    refine ⟨fun hfound => (hbegin.trans hgoes).leads (leads_compare hmode h hm₁ hsaved hse he hp
        hcaptured hroom hitems.tail.right.left fun m' hrax hm' => ?_),
      fun hfails => (hbegin.trans hgoes).leads (leads_compare hmode h hm₁ hsaved hse he hp
        hcaptured hroom hitems.tail.right.left fun m' hrax hm' => ?_)⟩
    · have hholds := holds_e_test hrax
      rw [hfound.2] at hholds
      have hskip : GoesTo offset (k.InSubject m) items (x + 1) (after (.test .w64 .rax .rax) m')
          (x + 2) (after (.test .w64 .rax .rax) m') := .skip hrest.tail.head hholds
      have hmove : GoesTo offset (k.InSubject m) items (x + 2) (after (.test .w64 .rax .rax) m')
          (caselessDoneIndex k.mode reg next backward unicode dest)
          (afterAll (skipInstrs reg backward) (after (.test .w64 .rax .rax) m')) :=
        .instrs hskipItems (by cases backward <;> rfl)
      exact .exit ((((htest m').trans hskip).trans hmove).exits (hpast _)) ⟨_, rfl,
        (htested hm').trans (carries_skip (htested hm').thread hreg hreg' hse hcaptured hroom)⟩
    · have hdiffer : k.subject.equalIgnoreCaseAt unicode s (Task.opening backward p (e - s))
          (e - s) = false := Bool.eq_false_iff.mpr fun hcon => hfails ⟨hroom, hcon⟩
      have hholds := holds_e_test hrax
      rw [hdiffer] at hholds
      exact .exit ((htest m').exits (.jump hrest.tail.head hholds hout)) ⟨_, rfl, htested hm'⟩

/-! ### Emitted references -/

/-- A reference to the capture at a register: one that compares characters, or one that ignores case
and may take them for code points. -/
def Opcode.reference (caseless : Option Bool) (reg : Nat) (backward : Bool) (dest : Target) :
    Opcode :=
  match caseless with
  | none => .checkNotBackReference reg backward dest
  | some unicode => .checkNotBackReferenceIgnoreCase reg backward unicode dest

/-- How it compares texts. -/
def Subject.matchesAt (s : Subject) (caseless : Option Bool) : (i j n : Nat) → Bool :=
  match caseless with
  | none => s.sameAt
  | some unicode => s.equalIgnoreCaseAt unicode

namespace Task

variable {k : Task} {t : Thread} {reg s e p : Nat}

/-- **What a reference to a capture finds.** Whether case counts or not, the opcode is the same case
distinction with another comparison of texts; the code of both is followed against this form. -/
theorem perform_referenceOp (hmode : k.subject.mode = k.mode) (hsize : k.subject.byteSize < 2 ^ 62)
    (hse : s ≤ e) (he : e ≤ k.subject.size) (hp : p ≤ k.subject.size)
    (hpos : t.pos = k.position p) (hcap : k.HoldsCapture t reg s e) (caseless : Option Bool)
    (backward : Bool) (dest : Target) :
    k.perform (.reference caseless reg backward dest) t =
      k.repeated (k.subject.matchesAt caseless) backward s e p dest t := by
  cases caseless with
  | none => exact perform_reference hmode hsize hse he hp hpos hcap backward dest
  | some unicode =>
    exact perform_referenceIgnoreCase hmode hsize hse he hp hpos hcap backward unicode dest

end Task

namespace Assembler

variable {a b : Assembler}

/-- What is emitted for a reference that compares characters. -/
theorem opItems_backReference {reg : Nat} {backward : Bool} {dest : Target}
    (hemit : a.emit (.checkNotBackReference reg backward dest) = .ok b) (herror : b.error = none) :
    a.opItems (.checkNotBackReference reg backward dest) =
        backReference a.mode a.labels.size reg backward dest ∧
      reg < b.registers ∧ reg + 1 < b.registers := by
  obtain ⟨bl, hbl, hitems, -, -, hregs⟩ := exists_block (fun l => by simp) rfl hemit rfl herror
  obtain ⟨-, -, hbl⟩ := bind_eq_ok.mp hbl
  obtain rfl := Except.ok.inj hbl
  exact ⟨hitems, hregs reg (by simp), hregs (reg + 1) (by simp)⟩

/-- What is emitted for one that ignores case. -/
theorem opItems_backReferenceIgnoreCase {reg : Nat} {backward unicode : Bool} {dest : Target}
    (hemit : a.emit (.checkNotBackReferenceIgnoreCase reg backward unicode dest) = .ok b)
    (herror : b.error = none) :
    a.opItems (.checkNotBackReferenceIgnoreCase reg backward unicode dest) =
        backReferenceIgnoreCase a.mode a.labels.size reg backward unicode dest ∧
      reg < b.registers ∧ reg + 1 < b.registers := by
  obtain ⟨bl, hbl, hitems, -, -, hregs⟩ := exists_block (fun l => by simp) rfl hemit rfl herror
  obtain ⟨-, -, hbl⟩ := bind_eq_ok.mp hbl
  obtain rfl := Except.ok.inj hbl
  exact ⟨hitems, hregs reg (by simp), hregs (reg + 1) (by simp)⟩

/-- **What a reference to a capture does, and its code.** If there is room for the text of the
capture and it is found, the thread goes on behind it; otherwise it branches, with its position and
its registers as they were. The code of the reference does the same to the machine. All characters
that it takes in itself, or has the host compare, lie in the subject. -/
theorem reference_of_emit (offset : Label → UInt32) {f : Label → Label} (caseless : Option Bool)
    (reg : Nat) (backward : Bool) (dest : Target) {k : Task} {t : Thread} {m : Machine}
    {s e p : Nat}
    (hemit : a.emit ((Opcode.reference caseless reg backward dest).mapLabels f) = .ok b)
    (herror : b.error = none) (hlabel : (targetLabel (dest.map f)).index < a.labels.size)
    (hmode : k.mode = a.mode) (hsubject : k.subject.mode = k.mode)
    (hregs : b.registers ≤ t.regs.size) (h : Represents k t m)
    (hend : k.subject.byteSize ≤ (m.regs inputEnd).toNat)
    (hsaved : ∀ b, k.Needs t.regs.size m b → 8 ≤ (b - m.savedWord).toNat)
    (hse : s ≤ e) (he : e ≤ k.subject.size) (hp : p ≤ k.subject.size)
    (hpos : t.pos = k.position p) (hcap : k.HoldsCapture t reg s e) :
    (k.Repeats (k.subject.matchesAt caseless) backward s e p →
      k.perform (.reference caseless reg backward dest) t =
          .next (k.behind backward s e p t) ∧
        a.LeadsTo offset caseInsensitiveCompare (k.InSubject m) (k.Needs t.regs.size m)
          (.reference caseless reg backward (dest.map f)) m
          (k.GoesPast (k.behind backward s e p t) m)) ∧
    (¬k.Repeats (k.subject.matchesAt caseless) backward s e p →
      k.perform (.reference caseless reg backward dest) t = k.branch dest t ∧
        a.LeadsTo offset caseInsensitiveCompare (k.InSubject m) (k.Needs t.regs.size m)
          (.reference caseless reg backward (dest.map f)) m
          (k.LeavesFor (targetLabel (dest.map f)) t m)) := by
  have hperform := Task.perform_referenceOp hsubject h.byteSize hse he hp hpos hcap caseless
    backward dest
  cases caseless with
  | none =>
    obtain ⟨hitems, hreg, hreg'⟩ := opItems_backReference hemit herror
    obtain ⟨hpast, hleaves⟩ := exits_backReference offset hsubject h hend hse he hp
      hpos hcap (Nat.lt_of_lt_of_le hreg hregs) (Nat.lt_of_lt_of_le hreg' hregs) hlabel
    simp only [LeadsTo, Opcode.reference, hitems, ← hmode]
    refine ⟨fun hfound => ⟨hperform.trans (if_pos hfound), ?_⟩,
      fun hfails => ⟨hperform.trans (if_neg hfails), ?_⟩⟩
    · obtain ⟨m', hexit, hm'⟩ := hpast hfound
      exact .exit hexit ⟨m', rfl, hm'⟩
    · obtain ⟨m', hexit, hm'⟩ := hleaves hfails
      exact .exit hexit ⟨m', rfl, hm'⟩
  | some unicode =>
    obtain ⟨hitems, hreg, hreg'⟩ := opItems_backReferenceIgnoreCase hemit herror
    obtain ⟨hpast, hleaves⟩ := leads_backReferenceIgnoreCase offset unicode hsubject h
      hsaved hse he hp hpos hcap (Nat.lt_of_lt_of_le hreg hregs) (Nat.lt_of_lt_of_le hreg' hregs)
      hlabel
    simp only [LeadsTo, Opcode.reference, hitems, ← hmode]
    exact ⟨fun hfound => ⟨hperform.trans (if_pos hfound), hpast hfound⟩,
      fun hfails => ⟨hperform.trans (if_neg hfails), hleaves hfails⟩⟩

end Assembler

/-! ### A capture that overlaps its repetition -/

namespace Sample

/-- A task with a subject of three equal characters. -/
def repetitive : Task := { task with subject := .latin1 #[0x61, 0x61, 0x61] }

/-- A thread before the second of them, with a capture of the first two. -/
def captured : Thread := { thread with pos := -2, regs := #[-3, -1] }

/-- A machine with that thread, its frame at `0x1000`, the top of its stack below, and the subject
at `0x2000`. -/
def host : Machine where
  regs
    | .rbp => 0x1000
    | .rsp => 0xF00
    | .r12 => 0xFFFFFFFFFFFFFFFE
    | .r13 => 0x61
    | .r14 => 0x2003
    | _ => 0
  mem a :=
    if a = 0x2000 ∨ a = 0x2001 ∨ a = 0x2002 then 0x61
    else if a = 0xF80 then 0xFD
    else if a = 0xF98 then 0xFC
    else 0xFF
  flags := {}

/-- The machine represents the thread, with a native stack below the frame. -/
theorem represents_host : Represents repetitive captured host where
  pos := rfl
  char := rfl
  registers := by decide +kernel
  before := by decide +kernel
  subject := by decide +kernel
  apart := by decide +kernel
  size_regs := by decide
  byteSize := by decide

/-- Nothing that is needed lies where the call keeps the stack pointer. -/
theorem needs_host (b : UInt64) (hb : repetitive.Needs captured.regs.size host b) :
    8 ≤ (b - host.savedWord).toNat :=
  hb.outside (by decide +kernel) (by decide +kernel) (by decide +kernel) (by decide +kernel)

/-- The thread's capture is found again where the thread is, and its code goes past with the thread
behind it. -/
def FoundAgain (caseless : Option Bool) : Prop :=
  ∃ a b, Assembler.new .latin1 2 heap = .ok a ∧ a.emit (.reference caseless 0 false none) = .ok b ∧
    repetitive.perform (.reference caseless 0 false none) captured =
      .next { captured with pos := 0, pc := 1 } ∧
    a.LeadsTo (fun _ => 0) caseInsensitiveCompare (repetitive.InSubject host)
      (repetitive.Needs 2 host) (.reference caseless 0 false none) host
      (repetitive.GoesPast { captured with pos := 0, pc := 1 } host)

end Sample

/-- A capture of the first two of three equal characters is found again at the second one, also if
case is ignored. -/
theorem Assembler.reference_of_emit_overlap :
    Sample.FoundAgain none ∧ Sample.FoundAgain (some false) := by
  have hcap : Sample.repetitive.HoldsCapture Sample.captured 0 0 2 := .set (by decide) (by decide)
  have hbehind : Sample.repetitive.behind false 0 2 1 Sample.captured =
      { Sample.captured with pos := 0, pc := 1 } := rfl
  have hagain (caseless : Option Bool)
      (hrun : Sample.emits (.reference caseless 0 false none) = true)
      (hfound : Sample.repetitive.Repeats (Sample.repetitive.subject.matchesAt caseless)
        false 0 2 1) : Sample.FoundAgain caseless := by
    obtain ⟨a, b, ha, hb, herror, hregs, hmode, hsize, -⟩ := Sample.exists_emit hrun
    have hlabel : (targetLabel none).index < a.labels.size := by
      rw [hsize]
      decide
    obtain ⟨hperform, hleads⟩ := (reference_of_emit (fun _ => 0) (f := id) caseless 0 false none
      (k := Sample.repetitive) (t := Sample.captured) (m := Sample.host) (p := 1)
      (by cases caseless <;> exact hb) herror hlabel hmode.symm rfl (Nat.le_of_eq hregs)
      Sample.represents_host (by decide) Sample.needs_host (Nat.zero_le 2) (by decide) (by decide)
      (by decide) hcap).1 hfound
    rw [hbehind] at hperform hleads
    exact ⟨a, b, ha, hb, hperform, hleads⟩
  exact ⟨hagain none (by decide +kernel) (by decide +kernel),
    hagain (some false) (by decide +kernel) (by decide +kernel)⟩

end NativeMatcher
