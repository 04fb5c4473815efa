import NativeMatcher.Proofs.Loops
import NativeMatcher.Proofs.Lowering

/-!
# Calls of the host

A reference that ignores case and a look-up in a range list are left to the host. The code of a call
aligns the native stack and keeps its old pointer in the new top word, puts the arguments into their
registers, and calls a function through the host's state; afterwards it takes the stack pointer and
the start of the code from where they are kept.

What the host does in between is not in the items. It is bound by the calling convention
(`NativeMatcher.HostFunction.Returns`): its answer is in `rax`, and it gives back the registers a
function has to preserve, the top of the native stack and the bytes that are *kept* for the matcher.
In turn the call keeps to what the host is promised (`NativeMatcher.HostFunction.Called`): the stack
is aligned, and the function reads allowed bytes only. With that a call is one step
(`NativeMatcher.Assembly.leads_call`).
-/

namespace NativeMatcher

open Assembly Code X64 X64.Machine

namespace X64.Machine

variable {kept : UInt64 → Prop} {rs : List Reg} {free : List Reg} {m m' m'' : Machine}

/-- Two machines agree in the kept bytes and in the registers of a list. -/
structure AgreesOn (kept : UInt64 → Prop) (rs : List Reg) (m m' : Machine) : Prop where
  /-- The bytes are the same. -/
  mem : ∀ b, kept b → m'.mem b = m.mem b
  /-- The registers are the same. -/
  regs : ∀ r ∈ rs, m'.regs r = m.regs r

namespace AgreesOn

theorem trans (h : AgreesOn kept rs m m') (h' : AgreesOn kept rs m' m'') :
    AgreesOn kept rs m m'' :=
  ⟨fun b hb => (h'.mem b hb).trans (h.mem b hb), fun r hr => (h'.regs r hr).trans (h.regs r hr)⟩

theorem of_agreesBeyond (h : AgreesBeyond free m m') (hrs : ∀ r ∈ rs, r ∉ free) :
    AgreesOn kept rs m m' :=
  ⟨fun b _ => congrFun h.mem b, fun r hr => h.regs r (hrs r hr)⟩

end AgreesOn

/-- Where the code of a call keeps the native stack pointer: in the aligned word below it. -/
def savedWord (m : Machine) : UInt64 := (m.regs .rsp - 8) &&& (-16)

/-- What is apart from a word lies outside of it. -/
theorem outside_of_apart {b x word : UInt64} {n : Nat} (hb : (b - x).toNat < n)
    (h : 8 ≤ (x - word).toNat) (hend : (x - word).toNat + n ≤ 2 ^ 64) :
    8 ≤ (b - word).toNat := by
  have hsum : b - word = (b - x) + (x - word) := by grind
  rw [hsum, UInt64.toNat_add, Nat.mod_eq_of_lt (by omega)]
  omega

end X64.Machine

/-- What code reads for a thread lies outside of a word that is apart from it. -/
theorem Task.Needs.outside {k : Task} {count : Nat} {m : Machine} {b : UInt64}
    (hb : k.Needs count m b) {word : UInt64}
    (hregisters : ∀ i < count, 8 ≤ (m.registerAddress i - word).toNat ∧
      (m.registerAddress i - word).toNat + 8 ≤ 2 ^ 64)
    (hbefore : 8 ≤ (m.beforeAddress - word).toNat ∧ (m.beforeAddress - word).toNat + 8 ≤ 2 ^ 64)
    (hcontext : 8 ≤ (m.contextAddress - word).toNat ∧
      (m.contextAddress - word).toNat + 8 ≤ 2 ^ 64)
    (hsubject : ∀ i < k.subject.byteSize,
      8 ≤ (m.subjectAddress k.subject.byteSize i - word).toNat) : 8 ≤ (b - word).toNat := by
  cases hb with
  | register hi h => exact outside_of_apart h (hregisters _ hi).1 (hregisters _ hi).2
  | before h => exact outside_of_apart h hbefore.1 hbefore.2
  | context h => exact outside_of_apart h hcontext.1 hcontext.2
  | subject hi h =>
    rw [h]
    exact hsubject _ hi

/-- The registers that point into memory. -/
def pointers : List Reg := [.rsp, fp, inputEnd, backtrackSp]

/-- The registers that last from one opcode to the next. -/
def lasting : List Reg := pointers ++ [pos, chr]

/-- The machine `m'` goes on from `m` with a thread: it represents it, and what points into memory
is the same. -/
structure Carries (k : Task) (t : Thread) (m m' : Machine) : Prop where
  /-- The thread. -/
  thread : Represents k t m'
  /-- The pointers are the same. -/
  pointers : ∀ r ∈ pointers, m'.regs r = m.regs r

theorem Carries.trans {k : Task} {t t' : Thread} {m m' m'' : Machine} (h : Carries k t m m')
    (h' : Carries k t' m' m'') : Carries k t' m m'' :=
  ⟨h'.thread, fun r hr => (h'.pointers r hr).trans (h.pointers r hr)⟩

namespace Represents

variable {k : Task} {t : Thread} {m m' : Machine} (h : Represents k t m)

include h

/-- The position has been moved. -/
theorem carries_moved {free : List Reg} (hm : AgreesBeyond free m m')
    (hfree : ∀ r ∈ chr :: pointers, r ∉ free) {p : Int64}
    (hp : m'.regs Assembly.pos = p.toUInt64)
    (pc : Nat) : Carries k { t with pos := p, pc := pc } m m' := by
  have hregs (r : Reg) (hr : r ∈ chr :: pointers) : m'.regs r = m.regs r :=
    hm.regs r (hfree r hr)
  exact ⟨h.carry (fun b _ => congrFun hm.mem b) (hregs fp (by decide))
    (hregs inputEnd (by decide)) hp ((hregs chr (by decide)).trans h.char) pc,
    fun r hr => hregs r (List.mem_cons_of_mem _ hr)⟩

/-- It has not. -/
theorem carries_of_agreesBeyond {free : List Reg} (hm : AgreesBeyond free m m')
    (hfree : ∀ r ∈ lasting, r ∉ free) : Carries k t m m' :=
  have hlasting : ∀ r ∈ chr :: pointers, r ∈ lasting := by decide
  h.carries_moved hm (fun r hr => hfree r (hlasting r hr))
    ((hm.regs Assembly.pos (hfree Assembly.pos (by decide))).trans h.pos) t.pc

/-- Nothing that lasts has changed. -/
theorem carries {kept : UInt64 → Prop} (hm : AgreesOn kept lasting m m')
    (hkept : ∀ b, k.Needs t.regs.size m b → kept b) (pc : Nat) :
    Carries k { t with pc := pc } m m' :=
  ⟨h.carry (fun b hb => hm.mem b (hkept b hb)) (hm.regs fp (by decide))
    (hm.regs inputEnd (by decide)) ((hm.regs Assembly.pos (by decide)).trans h.pos)
    ((hm.regs chr (by decide)).trans h.char) pc,
    fun r hr => hm.regs r (List.mem_append_left _ hr)⟩

end Represents

/-- Control goes past the items, with a thread. -/
def Task.GoesPast (k : Task) (t : Thread) (m : Machine) (e : Exit) : Prop :=
  ∃ m', e = .past m' ∧ Carries k t m m'

/-- Control leaves the items for a label, with a thread. -/
def Task.LeavesFor (k : Task) (l : Label) (t : Thread) (m : Machine) (e : Exit) : Prop :=
  ∃ m', e = .jump l m' ∧ Carries k t m m'

/-- The numbers of `size` bytes each from an address on. -/
def X64.Machine.numbersAt (m : Machine) (size : Nat) (a : UInt64) : (count : Nat) → List Nat
  | 0 => []
  | n + 1 => ofBytes (m.bytesAt a size) :: m.numbersAt size (a + UInt64.ofNat size) n

/-- A function of the host, as a call sees it. -/
structure HostFunction where
  /-- The word of the host's state that holds its address. -/
  field : ContextField
  /-- What it answers. -/
  answer : Machine → UInt64
  /-- The bytes it reads through its arguments. -/
  reads : Machine → UInt64 → Prop

namespace HostFunction

/-- A function is called as it has to be; the host's state is at `context`. -/
structure Called (f : HostFunction) (context : UInt64) (allowed : UInt64 → Prop) (i : Instr)
    (m : Machine) : Prop where
  /-- It is called through the host's state. -/
  call : i = .callRm (.mem { base := .rax, disp := f.field.offset })
  /-- The state is where it is. -/
  context : m.regs .rax = context
  /-- The native stack is aligned. -/
  aligned : (m.regs .rsp).toNat % 16 = 0
  /-- The function reads allowed bytes only. -/
  reads : ∀ b, f.reads m b → allowed b

/-- A function returns as it has to. -/
structure Returns (f : HostFunction) (kept : UInt64 → Prop) (m m' : Machine) : Prop where
  /-- The answer is in `rax`. -/
  answer : m'.regs .rax = f.answer m
  /-- The registers that a function preserves and the kept bytes are as they were. -/
  agrees : AgreesOn kept (.rsp :: fp :: calleeSaved) m m'
  /-- So is the top of the native stack. -/
  top : m'.top = m.top

end HostFunction

namespace Assembly

/-! ### Before and after a call -/

section Prepare

variable {m : Machine}

theorem rsp_prepareCall : (afterAll prepareCall m).regs .rsp = m.savedWord := by
  show (subWords .w64 (m.regs .rsp) 8).1 &&& _ = _
  rw [subWords_place]
  rfl

/-- Aligning the stack for a call stores one word, which keeps the stack pointer. -/
theorem mem_prepareCall :
    (afterAll prepareCall m).mem = (m.store .w64 m.savedWord (m.regs .rsp)).mem := by
  have haddress : ((subWords .w64 (m.regs .rsp) 8).1 &&& (-16)) + 0 + 0 = m.savedWord := by
    rw [UInt64.add_zero, UInt64.add_zero, subWords_place]
    rfl
  show (m.store .w64 (((subWords .w64 (m.regs .rsp) 8).1 &&& (-16)) + 0 + 0) (m.regs .rsp)).mem = _
  rw [haddress]

/-- Preparing a call changes two registers and one word of the native stack. -/
theorem agreesOn_prepareCall {kept : UInt64 → Prop}
    (hkept : ∀ b, kept b → 8 ≤ (b - m.savedWord).toNat) {rs : List Reg}
    (hrs : ∀ r ∈ rs, r ≠ .rsp ∧ r ≠ .r10) : AgreesOn kept rs m (afterAll prepareCall m) := by
  refine ⟨fun b hb => ?_, fun r hr => ?_⟩
  · rw [mem_prepareCall]
    exact m.mem_store_of_outside (hkept b hb)
  · obtain ⟨hsp, hsave⟩ := hrs r hr
    cases r <;> first | rfl | exact absurd rfl hsp | exact absurd rfl hsave

/-- The word in which the stack pointer is kept is aligned. -/
theorem savedWord_mod (m : Machine) : m.savedWord.toNat % 16 = 0 := by
  rw [savedWord, UInt64.toNat_and, show 16 = 2 ^ 4 from rfl, Nat.and_mod_two_pow]
  exact Nat.and_zero _

end Prepare

/-! ### Arguments and answers -/

/-- A constant of 32 bits is loaded. -/
theorem regs_loadConst (w : Width) (dst : Reg) {v : UInt64} (hv : v.toNat < 2 ^ 32) (m : Machine) :
    (after (.loadConst w dst v) m).regs dst = v := by
  unfold Instr.loadConst
  split
  · next hzero =>
    refine (m.regs_setReg_self .w32 dst _).trans ?_
    show Width.w32.trunc (Width.w32.trunc (m.regs dst) ^^^ Width.w32.trunc (m.regs dst)) = v
    rw [UInt64.xor_self, hzero]
    rfl
  · rw [if_pos (.inr hv)]
    refine (m.regs_setReg_self .w32 dst _).trans ?_
    show v.toUInt32.toUInt64.toUInt32.toUInt64 = v
    apply UInt64.toNat_inj.mp
    simp
    omega

section Constant

variable {free : List Reg} {dst : Reg} (w : Width) (v : UInt64)

/-- Whichever of its forms it has, the load of a constant writes its register and no other. -/
theorem writesWithin_loadConst (hdst : dst ∈ free) :
    (Instr.loadConst w dst v).writesWithin free = true := by
  have hwithin : (Operand.reg dst).within free = true := List.contains_iff_mem.mpr hdst
  unfold Instr.loadConst
  split
  · simp [Instr.writesWithin, hwithin]
  · split
    · exact hwithin
    · split <;> exact hwithin

/-- It neither transfers control nor touches memory. -/
theorem isPlain_loadConst : isPlain (.loadConst w dst v) = true := by
  unfold Instr.loadConst
  split
  · rfl
  · split
    · rfl
    · split <;> rfl

end Constant

/-- The host's answer is tested for being zero. -/
theorem holds_e_test {m : Machine} {b : Bool} (hrax : m.regs .rax = if b then 1 else 0) :
    Cond.e.holds (after (.test .w64 .rax .rax) m).flags = !b := by
  show Cond.e.holds (logicWord .w64 (m.regs .rax &&& m.regs .rax)).2 = _
  rw [hrax]
  cases b <;> rfl

/-! ### Calls -/

/-- The machine in which a call is made that gets its arguments from the instructions `args`. -/
def calling (args : List Instr) (m : Machine) : Machine :=
  afterAll (prepareCall ++ args ++ [loadContext .rax]) m

/-- The items of such a call. -/
def hostCall (f : ContextField) (args : List Instr) : List Instr :=
  prepareCall ++ args ++ callHost f ++ reloadCodeBase

section Call

variable {kept : UInt64 → Prop} {args : List Instr} {m : Machine}

/-- What a call passes is what its arguments leave in the registers. -/
theorem agreesBeyond_calling :
    AgreesBeyond [.rax] (afterAll (prepareCall ++ args) m) (calling args m) := by
  rw [calling, afterAll_append (prepareCall ++ args)]
  exact agreesBeyond_afterAll [loadContext .rax] rfl

section Constant

variable {w : Width} {dst : Reg} {v : UInt64}

/-- The last argument may be a constant. -/
theorem regs_calling_loadConst (hdst : dst ≠ .rax) (hv : v.toNat < 2 ^ 32) :
    (calling (args ++ [Instr.loadConst w dst v]) m).regs dst = v := by
  rw [agreesBeyond_calling.regs dst (by simpa using hdst), ← List.append_assoc, afterAll_append]
  exact regs_loadConst w dst hv _

/-- It is loaded after the others. -/
theorem regs_calling_of_ne {r : Reg} (hr : r ∉ [.rax, dst]) :
    (calling (args ++ [Instr.loadConst w dst v]) m).regs r =
      (afterAll (prepareCall ++ args) m).regs r := by
  have hwrites : [Instr.loadConst w dst v].all (Instr.writesWithin [dst]) = true := by
    simpa using writesWithin_loadConst w v List.mem_cons_self
  rw [agreesBeyond_calling.regs r (by simp_all), ← List.append_assoc, afterAll_append,
    (agreesBeyond_afterAll _ hwrites).regs r (by simp_all)]

end Constant

section Arguments

variable (hargs : args.all (Instr.writesWithin callArguments) = true)

include hargs

theorem rsp_calling : (calling args m).regs .rsp = m.savedWord := by
  rw [agreesBeyond_calling.regs .rsp (by decide), afterAll_append,
    (agreesBeyond_afterAll args hargs).regs .rsp (by decide), rsp_prepareCall]

theorem mem_calling : (calling args m).mem = (m.store .w64 m.savedWord (m.regs .rsp)).mem := by
  rw [agreesBeyond_calling.mem, afterAll_append, (agreesBeyond_afterAll args hargs).mem,
    mem_prepareCall]

theorem top_calling : (calling args m).top = m.regs .rsp := by
  rw [top, rsp_calling hargs, load_congr (mem_calling hargs), load_store_self]

variable (hkept : ∀ b, kept b → 8 ≤ (b - m.savedWord).toNat)

include hkept

/-- Nothing is changed on the way but the registers of the call. -/
theorem agreesOn_calling {rs : List Reg}
    (hrs : ∀ r ∈ rs, r ∉ .rsp :: .r10 :: .rax :: callArguments) :
    AgreesOn kept rs m (calling args m) := by
  have hprepare : AgreesOn kept rs m (afterAll prepareCall m) :=
    agreesOn_prepareCall hkept fun r hr => ⟨by grind, by grind⟩
  have hput : AgreesOn kept rs (afterAll prepareCall m) (afterAll (prepareCall ++ args) m) := by
    rw [afterAll_append]
    exact .of_agreesBeyond (agreesBeyond_afterAll args hargs) fun r hr => by grind
  exact (hprepare.trans hput).trans (.of_agreesBeyond agreesBeyond_calling fun r hr => by grind)

/-- The host's state is found in the frame. -/
theorem rax_calling (hcontext : ∀ b, (b - m.contextAddress).toNat < 8 → kept b) :
    (calling args m).regs .rax = m.load .w64 m.contextAddress := by
  have hagrees : AgreesOn kept [fp] m (afterAll (prepareCall ++ args) m) := by
    rw [afterAll_append]
    exact (agreesOn_prepareCall hkept (by decide)).trans
      (.of_agreesBeyond (agreesBeyond_afterAll args hargs) (by decide))
  have haddress : (afterAll (prepareCall ++ args) m).contextAddress = m.contextAddress := by
    show (afterAll (prepareCall ++ args) m).regs fp + 0 + _ = m.regs fp + 0 + _
    rw [hagrees.regs fp (by decide)]
  rw [calling, afterAll_append (prepareCall ++ args)]
  show (afterAll (prepareCall ++ args) m).load .w64
    (afterAll (prepareCall ++ args) m).contextAddress = _
  rw [haddress]
  exact load_eq_of_bytes fun b hb => hagrees.mem b (hcontext b hb)

end Arguments

/-- The stack pointer is taken from where it was kept. -/
theorem rsp_restore (m : Machine) :
    (afterAll (.load .w64 .rsp .rsp 0 :: reloadCodeBase) m).regs .rsp = m.top := by
  have haddress : m.regs .rsp + 0 + 0 = m.regs .rsp := by
    rw [UInt64.add_zero, UInt64.add_zero]
  show m.load .w64 (m.regs .rsp + 0 + 0) = _
  rw [haddress]
  rfl

/-- Once the host has returned, and the stack pointer is restored, the machine has everything that
lasts. -/
theorem agreesOn_restore {f : HostFunction} {m₁ m₂ : Machine}
    (hm₁ : AgreesOn kept lasting.tail m m₁) (htop : m₁.top = m.regs .rsp)
    (h : f.Returns kept m₁ m₂) :
    AgreesOn kept lasting m (afterAll (.load .w64 .rsp .rsp 0 :: reloadCodeBase) m₂) := by
  have hrest : AgreesBeyond [.rsp, .rcx, codeBase] m₂
      (afterAll (.load .w64 .rsp .rsp 0 :: reloadCodeBase) m₂) := agreesBeyond_afterAll _ rfl
  refine ⟨fun b hb => ?_, fun r hr => ?_⟩
  · rw [hrest.mem, h.agrees.mem b hb, hm₁.mem b hb]
  · rcases List.mem_cons.mp hr with rfl | hr
    · rw [rsp_restore, h.top, htop]
    · rw [hrest.regs r (by revert r; decide), h.agrees.regs r (by revert r; decide), hm₁.regs r hr]

variable {offset : Label → UInt32} {allowed : UInt64 → Prop} {items : List Item} {i : Nat}
  {post : Exit → Prop}

/-- **A call of the host** goes on with its answer, and everything that lasts is as it was. The host
is any function that keeps the calling convention: it may write below the stack pointer and to the
registers that a caller has to save, and that is why the matcher saves its own around the call. -/
theorem leads_call (f : HostFunction) (hitems : Stands items i ((hostCall f.field args).map .instr))
    (hargs : args.all (Instr.writesWithin callArguments) = true) (hplain : args.all isPlain = true)
    (hkept : ∀ b, kept b → 8 ≤ (b - m.savedWord).toNat)
    (hcontext : ∀ b, (b - m.contextAddress).toNat < 8 → kept b)
    (hreads : ∀ b, f.reads (calling args m) b → allowed b)
    (hnext : ∀ m', m'.regs .rax = f.answer (calling args m) → AgreesOn kept lasting m m' →
      Leads offset allowed items (f.Called (m.load .w64 m.contextAddress) allowed)
        (f.Returns kept) post (i + (hostCall f.field args).length) m') :
    Leads offset allowed items (f.Called (m.load .w64 m.contextAddress) allowed) (f.Returns kept)
      post i m := by
  let front := prepareCall ++ args ++ [loadContext .rax]
  let jump : Instr := .callRm (.mem { base := .rax, disp := f.field.offset })
  let back := Instr.load .w64 .rsp .rsp 0 :: reloadCodeBase
  have hsplit : hostCall f.field args = front ++ jump :: back := by
    simp [hostCall, callHost, front, jump, back]
  rw [hsplit] at hitems hnext
  rw [List.map_append, List.map_cons] at hitems
  have hjump := hitems.right.head
  have hback := hitems.right.tail
  rw [List.length_map] at hjump hback
  have hfront : front.all isPlain = true := by
    simp only [front, List.all_append, hplain]
    rfl
  have hgoes : GoesTo offset allowed items i m (i + front.length) (calling args m) :=
    .instrs hitems.left hfront
  refine .call (hgoes.exits (.transfer hjump rfl)) ⟨rfl, rax_calling hargs hkept hcontext, ?_,
    hreads⟩ fun m₂ hm₂ => ?_
  · rw [rsp_calling hargs]
    exact savedWord_mod m
  · have hend : GoesTo offset allowed items (i + front.length + 1) m₂
        (i + (front ++ jump :: back).length) (afterAll back m₂) := by
      have h : GoesTo offset allowed items (i + front.length + 1) m₂ _ (afterAll back m₂) :=
        .instrs hback rfl
      simpa only [List.length_append, List.length_cons, Nat.add_assoc, Nat.add_comm 1] using h
    refine hend.leads (hnext _ ?_ ?_)
    · have hrest : AgreesBeyond [.rsp, .rcx, codeBase] m₂ (afterAll back m₂) :=
        agreesBeyond_afterAll _ rfl
      rw [hrest.regs .rax (by decide), hm₂.answer]
    · exact agreesOn_restore (agreesOn_calling hargs hkept (by decide)) (top_calling hargs) hm₂

end Call

/-! ### The call of a firing poll -/

/-- The word below the saved stack pointer, when a call is prepared one word below `sp`. -/
theorem savedWord_sub {m : Machine} {sp : UInt64} (hsp : m.regs .rsp = sp - 8)
    (hroom : 32 ≤ sp.toNat) : m.savedWord - 8 = returnSlot sp := by
  have hlt := sp.toNat_lt
  have hword : UInt64.size = 18446744073709551616 := rfl
  have height : (8 : UInt64).toNat = 8 := rfl
  have hplace : (sp - 8 - 8).toNat = sp.toNat - 16 := by
    have hfirst : (sp - 8).toNat = sp.toNat - 8 := by
      rw [UInt64.toNat_sub_of_le _ _ (by rw [UInt64.le_iff_toNat_le]; omega), height]
    rw [UInt64.toNat_sub_of_le _ _ (by rw [UInt64.le_iff_toNat_le]; omega), hfirst, height]
    omega
  have hmod : m.savedWord.toNat % 16 = 0 := savedWord_mod m
  have hsaved : m.savedWord.toNat = (sp.toNat - 16) / 16 * 16 := by
    have hdiv : m.savedWord.toNat / 16 = (sp.toNat - 16) / 16 := by
      rw [savedWord, hsp, UInt64.toNat_and, hplace, show 16 = 2 ^ 4 from rfl, Nat.and_div_two_pow]
      rw [show (-16 : UInt64).toNat / 2 ^ 4 = 2 ^ 60 - 1 from rfl, Nat.and_two_pow_sub_one_eq_mod]
      omega
    omega
  apply UInt64.toNat_inj.mp
  have hle : (8 : UInt64) ≤ m.savedWord := by
    rw [UInt64.le_iff_toNat_le]
    omega
  rw [UInt64.toNat_sub_of_le _ _ hle, hsaved, returnSlot, UInt64.toNat_ofNat_of_lt' (by omega),
    height]

/-- The address of the word below the stack pointer is where a call puts its return address. -/
theorem regs_slotBelow (m : Machine) (next : UInt64) :
    (after (.leaAt .w64 .rdi .rsp (-8)) m).regs .rdi = m.regs .rsp - 8 ∧
      ((after (.leaAt .w64 .rdi .rsp (-8)) m).push next).regs .rsp = m.regs .rsp - 8 := by
  have hdisp : (-8 : Int32).toInt64.toUInt64 = -8 := by decide
  refine ⟨?_, rfl⟩
  change m.regs .rsp + 0 + (-8 : Int32).toInt64.toUInt64 = _
  rw [UInt64.add_zero, hdisp, UInt64.sub_eq_add_neg]

/-- **The return slot of a poll is what the host is told.** The stub of a poll that fired at stack
pointer `sp` calls the host with the address `returnSlot sp`, and that is where the call puts its
return address. -/
theorem returnSlot_checkPreempt {m : Machine} {sp : UInt64} (hsp : m.regs .rsp = sp - 8)
    (hroom : 32 ≤ sp.toNat) (next : UInt64) :
    let m' := afterAll (.aluStore .sub .w64 .rsp 0 codeBase ::
      (spillStackPointer ++ prepareCall ++ [Instr.leaAt .w64 .rdi .rsp (-8)])) m
    m'.regs .rdi = returnSlot sp ∧ (m'.push next).regs .rsp = returnSlot sp := by
  let front := afterAll (.aluStore .sub .w64 .rsp 0 codeBase :: spillStackPointer) m
  have hfront : front.regs .rsp = sp - 8 := hsp
  have hslot : (afterAll prepareCall front).regs .rsp - 8 = returnSlot sp := by
    rw [rsp_prepareCall, savedWord_sub hfront hroom]
  have hprepared : afterAll (.aluStore .sub .w64 .rsp 0 codeBase ::
      (spillStackPointer ++ prepareCall ++ [Instr.leaAt .w64 .rdi .rsp (-8)])) m =
      after (.leaAt .w64 .rdi .rsp (-8)) (afterAll prepareCall front) := by
    simp only [front, afterAll, List.foldl_cons, List.foldl_append, List.foldl_nil]
  rw [hprepared, ← hslot]
  exact regs_slotBelow _ next

end Assembly

/-- Every execution of the code of an opcode ends as described; it may call a function of the host,
which returns the kept bytes. -/
def Assembler.LeadsTo (a : Assembler) (offset : Label → UInt32) (f : HostFunction)
    (allowed kept : UInt64 → Prop) (op : Opcode) (m : Machine) (post : Exit → Prop) : Prop :=
  Leads offset allowed (a.opItems op) (f.Called (m.load .w64 m.contextAddress) allowed)
    (f.Returns kept) post 0 m

end NativeMatcher
