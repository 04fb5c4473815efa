import NativeMatcher.Proofs.Independence
import NativeMatcher.Proofs.Widening

/-!
# Steps in two encodings

A step of a task that reads one byte per character, beside the step of the task that runs the same
program on the same characters, written in two bytes each. The second thread is the first one with
its position and its registers doubled (`NativeMatcher.Thread.widened`). Its backtrack stack is
another matter: a word there is doubled, and a resumption point is another code offset. Nothing in
the memory tells the one from the other. So what was pushed is written down beside the run, as the
*kinds* of the live entries (`NativeMatcher.Task.Records`), and a run is *fair*
(`NativeMatcher.Task.Fair`) if it takes every entry as what it was pushed as and stays near the
subject.

From there it goes as the model does: a fair thread and its double decide the same
(`NativeMatcher.Task.Widened.move_widens`), what they do is the same
(`NativeMatcher.Task.Widened.act_widens`), and so is a step
(`NativeMatcher.Task.Widened.step_widens`).
-/

namespace NativeMatcher

open Backtrack

/-! ### What is on the stack -/

/-- What an entry of the backtrack stack was pushed as. -/
inductive Kind where
  /-- A resumption point. -/
  | resumption
  /-- A position or a register. -/
  | word
  deriving DecidableEq, Repr

/-- What an opcode may do besides going on. -/
inductive Effect where
  /-- It goes on, here or elsewhere, or ends the match. -/
  | none
  /-- It pushes an entry. -/
  | pushes (x : Kind)
  /-- It reports a match. -/
  | reports
  deriving DecidableEq, Repr

/-- What an opcode may do besides going on. -/
def Opcode.effect : Opcode → Effect
  | .pushBacktrack _ => .pushes .resumption
  | .pushPosition | .pushRegister _ _ => .pushes .word
  | .succeed => .reports
  | _ => .none

/-- Whether an opcode pops a position or a register. -/
def Opcode.popsWord : Opcode → Bool
  | .popPosition | .popRegister _ => true
  | _ => false

namespace Task

/-- What the next step of a thread may do besides going on. -/
def effect (k : Task) (t : Thread) : Effect := ((k.opcode? t).map Opcode.effect).getD .none

/-- The kinds of the live entries, oldest first, after a step from `t` to `u`: a push adds one,
and everything else leaves those that are still live. -/
def kindsAfter (k : Task) (kinds : List Kind) (t u : Thread) : List Kind :=
  match k.effect t with
  | .pushes x => kinds ++ [x]
  | _ => kinds.take u.entries

/-- A run from `t₀`, with nothing on its stack, gets to `t`, and the live entries are of these
kinds. -/
inductive Records (k : Task) (t₀ : Thread) : Thread → List Kind → Prop
  /-- It starts there. -/
  | start : Records k t₀ t₀ []
  /-- It gets there by a step. -/
  | step {t u : Thread} {kinds : List Kind} : Records k t₀ t kinds → k.step t = .next u →
      Records k t₀ u (k.kindsAfter kinds t u)

/-! ### What is read of the subject -/

/-- The place that a start reads: the character before the position, if there is one. -/
def restartReads (k : Task) (pos : Int64) : List Int64 :=
  if pos - k.unit = k.before then [] else [pos - k.unit]

/-- The place that starting over reads. -/
def startOverReads (k : Task) (start : Int64) (t : Thread) : List Int64 :=
  if k.matcher.options.globalMode.checksZeroLength && t.pos == start then
    if t.pos = 0 then [] else k.restartReads (t.pos + k.unit)
  else k.restartReads t.pos

/-- The places of the characters that a step reads, where no surrogate pairs are looked for. -/
def reads (k : Task) (t : Thread) : List Int64 :=
  match k.opcode? t with
  | some (.load offset _ checked count) =>
    if checked && k.placeHolds t (.outside (lastOffset offset count)) then []
    else k.charPlaces count (t.pos + k.bytes offset)
  | some (.checkNotBackReference reg backward _) =>
    let length := captureLength reg t
    if length = 0 ∨ !k.captureFits backward length t then []
    else k.comparedPlaces (k.compareCount (t.reg reg) (t.reg (reg + 1))) (t.reg reg)
      (if backward then t.pos - length else t.pos)
  | some (.setPositionFromEnd count) =>
    if -(k.bytes count) ≤ t.pos then [] else [-(k.bytes count) - k.unit]
  | some .succeed =>
    let saved := k.matcher.program.saved
    if k.matcher.options.globalMode.isGlobal && !decide (t.remaining < saved + saved) then
      k.startOverReads (t.reg 0) t
    else []
  | _ => []

/-- What is asked of a thread whose live entries are of these kinds. -/
structure Fair (k : Task) (kinds : List Kind) (t : Thread) : Prop where
  /-- The position is near the end of the subject. -/
  near : Within (2 ^ 29 * k.mode.charSize) t.pos
  /-- A position or a register is popped only where one was pushed. -/
  pops : ∀ op, k.opcode? t = some op → op.popsWord = true → kinds.getLast? = some .word
  /-- A greedy loop does not meet a resumption point. -/
  loops : ∀ dest, k.opcode? t = some (.checkGreedyLoop dest) → kinds.getLast? ≠ some .resumption
  /-- A backtrack that takes an entry takes a resumption point. -/
  resumes : ∀ depth u, k.move t = .backtrack depth →
    (k.poll { t with depth := depth }).andThen k.countBacktrack = .next u →
    (kinds.take u.entries).getLast? ≠ some .word
  /-- Every character that is read belongs to the subject. -/
  reads : ∀ place ∈ k.reads t, k.Covers place

end Task

/-! ### Doubled threads -/

/-- The cursor of the doubled thread. -/
def Cursor.widened (c : Cursor) : Cursor :=
  { c with pos := twice c.pos, regs := c.regs.map twice }

/-- A cursor is moderate: its character is a byte, and doubling its registers keeps them within
32 bits. -/
def Cursor.Moderate (c : Cursor) : Prop := c.char < 256 ∧ ∀ v ∈ c.regs, Within (2 ^ 30 - 1) v

namespace Thread

variable {t u : Thread} {stack : Stack}

/-- The thread with its position and its registers doubled, and another stack. -/
def widened (t : Thread) (stack : Stack) : Thread :=
  { t with pos := twice t.pos, regs := t.regs.map twice, stack := stack }

theorem reg_widened (t : Thread) (stack : Stack) (i : Nat) :
    (t.widened stack).reg i = twice (t.reg i) := by
  simp only [reg, widened, Array.getD_eq_getD_getElem?, Array.getElem?_map]
  cases t.regs[i]? <;> rfl

theorem setReg_widened (t : Thread) (stack : Stack) (i : Nat) (v : Int64) :
    (t.widened stack).setReg i (twice v) = (t.setReg i v).widened stack := by
  simp only [setReg, widened, Array.map_setIfInBounds]

theorem within_reg (h : t.cursor.Moderate) (i : Nat) : Within (2 ^ 30 - 1) (t.reg i) := by
  rw [reg, Array.getD_eq_getD_getElem?]
  cases hi : t.regs[i]? with
  | none => exact ⟨by decide, by decide⟩
  | some v => exact h.2 v (Array.mem_of_getElem? hi)

theorem moderate_setReg (h : t.cursor.Moderate) (i : Nat) {v : Int64}
    (hv : Within (2 ^ 30 - 1) v) : (t.setReg i v).cursor.Moderate := by
  refine ⟨h.1, fun w hw => ?_⟩
  rcases Array.mem_or_eq_of_mem_setIfInBounds hw with hw | rfl
  · exact h.2 w hw
  · exact hv

theorem moderate_setRegs (h : t.cursor.Moderate) (regs : List Nat) {v : Int64}
    (hv : Within (2 ^ 30 - 1) v) : (regs.foldl (fun t r => t.setReg r v) t).cursor.Moderate := by
  induction regs generalizing t with
  | nil => exact h
  | cons r regs ih => exact ih (moderate_setReg h r hv)

/-- Setting a row of registers to a doubled value doubles what setting them to the value gives. -/
theorem setRegs_widened (t : Thread) (stack : Stack) (regs : List Nat) (v : Int64) :
    regs.foldl (fun t r => t.setReg r (twice v)) (t.widened stack) =
      (regs.foldl (fun t r => t.setReg r v) t).widened stack := by
  induction regs generalizing t with
  | nil => rfl
  | cons r regs ih =>
    rw [List.foldl_cons, List.foldl_cons, setReg_widened]
    exact ih (t.setReg r v)

end Thread

/-- The outcome with its threads doubled, and another stack. -/
def Outcome.widened (o : Outcome) (stack : Stack) : Outcome :=
  match o with
  | .next t => .next (t.widened stack)
  | .done s t => .done s (t.widened stack)
  | .stray => .stray

/-- A sequence commutes with doubling if its second part does. -/
theorem Outcome.widened_andThen {o : Outcome} {f g : Thread → Outcome} {stack : Stack}
    (h : ∀ t, g (t.widened stack) = (f t).widened stack) :
    (o.widened stack).andThen g = (o.andThen f).widened stack := by
  cases o with
  | next t => exact h t
  | done s t => rfl
  | stray => rfl

/-! ### Routines that leave the stack alone -/

/-- An outcome that leaves the cursor of a thread alone, and the stack in any case. -/
def Outcome.StaysAt (o : Outcome) (t : Thread) : Prop :=
  o.Satisfies (fun u => u.cursor = t.cursor ∧ u.stack = t.stack) fun _ u => u.stack = t.stack

theorem Outcome.StaysAt.andThen {o : Outcome} {f : Thread → Outcome} {t : Thread}
    (h : o.StaysAt t) (hf : ∀ u, (f u).StaysAt u) : (o.andThen f).StaysAt t := by
  refine Satisfies.andThen h fun u hu => ?_
  exact (hf u).imp (fun v hv => ⟨hv.1.trans hu.1, hv.2.trans hu.2⟩) fun _ v hv => hv.trans hu.2

namespace Task

/-- A poll ends the run or goes on where it was: its answer is about the guard, never about the
cursor or the stack. -/
theorem staysAt_poll {k : Task} (t : Thread) : (k.poll t).StaysAt t := by
  unfold poll
  split
  · exact ⟨rfl, rfl⟩
  · simp only
    split
    · exact rfl
    · exact ⟨rfl, rfl⟩
    · exact ⟨rfl, rfl⟩

/-- Counting backtracks touches neither the cursor nor the stack. -/
theorem staysAt_countBacktrack {k : Task} (t : Thread) : (k.countBacktrack t).StaysAt t := by
  unfold countBacktrack
  split
  · exact ⟨rfl, rfl⟩
  · simp only
    split
    · exact ⟨rfl, rfl⟩
    · split
      · exact rfl
      · unfold exit
        split <;> exact rfl

/-- The thread with its captures stored. -/
def stored (k : Task) (t : Thread) : Thread :=
  { t with output := k.storeCaptures k.matcher.program.saved t.outBase t.regs t.output }

/-- The thread that starts over after a match. -/
def rewound (k : Task) (t : Thread) : Thread :=
  { k.stored t with
    captures := t.captures + 1
    remaining := t.remaining - k.matcher.program.saved
    outBase := t.outBase + k.matcher.program.saved
    depth := 0 }

theorem succeed_eq_stored (k : Task) (t : Thread) :
    k.succeed t =
      if k.matcher.options.globalMode.isGlobal then
        if t.remaining < k.matcher.program.saved + k.matcher.program.saved then
          k.exit { k.stored t with captures := t.captures + 1 }
        else k.startOver (t.reg 0) (k.rewound t)
      else .done (.success 1) (k.stored t) := rfl

end Task

namespace Task.Widened

variable {k k' : Task} {bytes : Array UInt8} (h : k.Widened k' bytes)

include h

theorem globalMode_eq : k'.matcher.options.globalMode = k.matcher.options.globalMode := by
  rw [h.options]

/-- A poll does not look at the position, the registers or the stack. -/
theorem poll_widened (t : Thread) (stack : Stack) :
    k'.poll (t.widened stack) = (k.poll t).widened stack := by
  have hlimit : (t.widened stack).limit = t.limit := rfl
  have hguard : (t.widened stack).guard = t.guard := rfl
  simp only [poll, h.sp, h.origin, hlimit, hguard]
  split
  · rfl
  · cases t.guard.answer k.origin (returnSlot k.sp) <;> rfl

theorem exit_widened (t : Thread) (stack : Stack) :
    k'.exit (t.widened stack) = (k.exit t).widened stack := by
  unfold exit
  rw [h.globalMode_eq]
  split <;> rfl

/-- Neither does the count of backtracks. -/
theorem countBacktrack_widened (t : Thread) (stack : Stack) :
    k'.countBacktrack (t.widened stack) = (k.countBacktrack t).widened stack := by
  have hcount : (t.widened stack).backtracks = t.backtracks := rfl
  simp only [countBacktrack, h.options, hcount]
  cases k.matcher.options.backtrackLimit with
  | none => rfl
  | some limit =>
    simp only
    split
    · rfl
    · split
      · rfl
      · exact h.exit_widened { t with backtracks := t.backtracks + 1 } stack

end Task.Widened

/-! ### Memories of the same size -/

namespace Backtrack.Stack

/-- Two memories are of the same size and may grow alike. -/
structure SameShape (s s' : Stack) : Prop where
  /-- The size. -/
  capacity : s'.capacity = s.capacity
  /-- The largest size. -/
  maxBytes : s'.maxBytes = s.maxBytes
  /-- The entries kept free. -/
  slack : s'.slack = s.slack

namespace SameShape

variable {s s' : Stack} (h : s.SameShape s')

include h

theorem size : s'.size = s.size := by rw [Stack.size, Stack.size, h.capacity]

theorem inside (depth : Int) : s'.inside depth = s.inside depth := by
  rw [Stack.inside, Stack.inside, h.size]

theorem needsGrowth (depth : Int) : s'.needsGrowth depth = s.needsGrowth depth := by
  rw [Stack.needsGrowth, Stack.needsGrowth, limit, limit, h.size, h.slack]

/-- Both are written or neither is. -/
theorem write {depth : Int} {n : Nat} (hdepth : depth = 4 * ((n + 1 : Nat) : Int))
    (e e' : UInt32) :
    (s.write depth e = none ∧ s'.write depth e' = none) ∨
      ∃ w w' : Stack, s.write depth e = some w ∧ s'.write depth e' = some w' ∧ w.SameShape w' ∧
        4 * (n + 1) ≤ w.size ∧ ∀ i, w.cell i = (if i = n then e else s.cell i) ∧
          w'.cell i = if i = n then e' else s'.cell i := by
  obtain rfl : depth = ((4 * (n + 1) : Nat) : Int) := by omega
  cases hin : s.inside ((4 * (n + 1) : Nat) : Int) with
  | false =>
    have hin' := (h.inside _).trans hin
    refine Or.inl ⟨if_neg ?_, if_neg ?_⟩
    · rw [hin]
      exact Bool.false_ne_true
    · rw [hin']
      exact Bool.false_ne_true
  | true =>
    have hw := write_aligned s e hin
    have hw' := write_aligned s' e' ((h.inside _).trans hin)
    refine Or.inr ⟨_, _, hw, hw', ⟨h.capacity, h.maxBytes, h.slack⟩, ?_, fun i => ?_⟩
    · simp only [Stack.inside, Bool.and_eq_true, decide_eq_true_eq] at hin
      change 4 * (n + 1) ≤ s.size
      omega
    · exact ⟨cell_write_aligned hw, cell_write_aligned hw'⟩

/-- Both grow or neither does, and what is live is kept. -/
theorem grow {depth : Int} {n : Nat} (hdepth : depth = 4 * (n : Int)) :
    (s.grow depth = none ∧ s'.grow depth = none) ∨
      ∃ g g' : Stack, s.grow depth = some (g, depth) ∧ s'.grow depth = some (g', depth) ∧
        g.SameShape g' ∧ s.size ≤ g.size ∧
        ∀ i < n, g.cell i = s.cell i ∧ g'.cell i = s'.cell i := by
  have hlive : depth.toNat / 4 = n := by omega
  have hback : ((n * 4 : Nat) : Int) = depth := by omega
  by_cases hgrow : s.size * 2 < 18446744073709551616 ∧ s.size * 2 ≤ s.maxBytes ∧
      0 ≤ depth ∧ depth ≤ s.size
  · have hs : s.grow depth = some ({ s with
        capacity := s.capacity * 2, cells := s.cells.extract 0 n }, depth) := by
      simp only [Stack.grow, if_pos hgrow, hlive, hback]
    have hs' : s'.grow depth = some ({ s' with
        capacity := s'.capacity * 2, cells := s'.cells.extract 0 n }, depth) := by
      rw [← h.size, ← h.maxBytes] at hgrow
      simp only [Stack.grow, if_pos hgrow, hlive, hback]
    refine Or.inr ⟨_, _, hs, hs', ⟨?_, h.maxBytes, h.slack⟩, ?_, fun i hi => ?_⟩
    · simp only [h.capacity]
    · have hsize := size_grow hs
      omega
    · exact ⟨cell_grow hs (by omega), cell_grow hs' (by omega)⟩
  · refine Or.inl ⟨if_neg hgrow, if_neg ?_⟩
    rwa [h.size, h.maxBytes]

end SameShape

end Backtrack.Stack

/-! ### Threads that differ in the encoding only -/

/-- Two entries that were pushed as this kind. Words are doubled, and resumption points lead to
the same opcode. -/
def Kind.Widens (k k' : Task) : Kind → UInt32 → UInt32 → Prop
  | .resumption, e, e' => k'.opcodeAt? e' = k.opcodeAt? e
  | .word, e, e' => ∃ v, Within (2 ^ 30 - 1) v ∧ e = lowWord v ∧ e' = lowWord (twice v)

/-- The second thread is the first one in the other encoding, and the live entries are of these
kinds. -/
structure Thread.Widens (k k' : Task) (kinds : List Kind) (t u : Thread) : Prop where
  /-- The one is the other doubled, with a stack of its own. -/
  rest : u = t.widened u.stack
  /-- The memories have the same size. -/
  shape : t.stack.SameShape u.stack
  /-- The kinds of all live entries are known. -/
  depth : t.depth = 4 * (kinds.length : Int)
  /-- They are inside the memory. -/
  size : 4 * kinds.length ≤ t.stack.size
  /-- Nothing in the cursor is too large. -/
  moderate : t.cursor.Moderate
  /-- The live entries correspond. -/
  cells : ∀ (i : Nat) (x : Kind), kinds[i]? = some x →
    x.Widens k k' (t.stack.cell i) (u.stack.cell i)

/-- Two outcomes in the two encodings, where the live entries of a thread that goes on are of
the given kinds. -/
def Outcome.Widens (k k' : Task) (kinds : Thread → List Kind) : Outcome → Outcome → Prop
  | .next t, .next u => t.Widens k k' (kinds t) u
  | .done s t, .done s' u => s' = s ∧ u = t.widened u.stack ∧ t.stack.SameShape u.stack
  | .stray, .stray => True
  | _, _ => False

namespace Thread.Widens

variable {k k' : Task} {kinds : List Kind} {t u : Thread} (h : t.Widens k k' kinds u)

include h

theorem entries : t.entries = kinds.length := by
  have hdepth := h.depth
  simp only [Thread.entries]
  omega

theorem depth_eq : u.depth = t.depth := by
  rw [h.rest]
  rfl

/-- Threads that move on without touching their stacks. -/
theorem of_cursor {t' : Thread} (hcursor : t'.cursor = t.cursor) (hstack : t'.stack = t.stack) :
    t'.Widens k k' kinds (t'.widened u.stack) := by
  have hdepth : t'.depth = t.depth := congrArg Cursor.depth hcursor
  refine ⟨rfl, ?_, hdepth.trans h.depth, ?_, ?_, ?_⟩
  · rw [hstack]
    exact h.shape
  · rw [hstack]
    exact h.size
  · rw [hcursor]
    exact h.moderate
  · rw [hstack]
    exact h.cells

/-- What the top of the two stacks shows. Either both are empty, or both have an entry, and the two
entries correspond in the kind they were pushed as. -/
theorem peek_cases :
    (kinds.getLast? = none ∧ t.peek = .empty ∧ u.peek = .empty) ∨
      ∃ n x e e', kinds.length = n + 1 ∧ kinds.getLast? = some x ∧ t.peek = .entry e ∧
        u.peek = .entry e' ∧ x.Widens k k' e e' := by
  have hdepth := h.depth
  have hentries := h.entries
  have hsize := h.size
  have hentries' : u.entries = t.entries := by simp only [Thread.entries, h.depth_eq]
  have hpeek := peek_eq (t := t) (by omega) (by omega)
  have hpeek' := peek_eq (t := u) (by rw [h.depth_eq]; omega) (by rw [h.shape.size]; omega)
  rw [hentries', hentries] at hpeek'
  rw [hentries] at hpeek
  cases hlast : kinds.getLast? with
  | none =>
    have hnil : kinds.length = 0 := by simpa using hlast
    rw [if_pos hnil] at hpeek hpeek'
    exact Or.inl ⟨rfl, hpeek, hpeek'⟩
  | some x =>
    have hne : kinds.length ≠ 0 := by
      intro hcon
      simp [List.length_eq_zero_iff.mp hcon] at hlast
    obtain ⟨n, hn⟩ := Nat.exists_eq_succ_of_ne_zero hne
    rw [List.getLast?_eq_getElem?] at hlast
    rw [if_neg hne] at hpeek hpeek'
    exact Or.inr ⟨n, x, _, _, hn, rfl, hpeek, hpeek', h.cells _ x hlast⟩

/-- Threads that go on with some of their entries. -/
theorem keep {v : Thread} {n : Nat} (hstack : v.stack = t.stack) (hlive : n ≤ kinds.length)
    (hdepth : v.depth = 4 * (n : Int)) (hmoderate : v.cursor.Moderate) :
    v.Widens k k' (kinds.take v.entries) (v.widened u.stack) := by
  have hentries : v.entries = n := by
    simp only [Thread.entries]
    omega
  have hlength : (kinds.take v.entries).length = n := by
    rw [hentries, List.length_take]
    omega
  have hsize := h.size
  refine ⟨rfl, ?_, ?_, ?_, hmoderate, fun i x hx => ?_⟩
  · rw [hstack]
    exact h.shape
  · rw [hlength]
    exact hdepth
  · rw [hlength, hstack]
    omega
  · rw [List.getElem?_take] at hx
    split at hx
    · rw [hstack]
      exact h.cells i x hx
    · cases hx

omit h in
/-- Threads with nothing on their stacks. -/
theorem of_empty {stack : Stack} (hshape : t.stack.SameShape stack) (hdepth : t.depth = 0)
    (hmoderate : t.cursor.Moderate) :
    t.Widens k k' (kinds.take t.entries) (t.widened stack) := by
  have hnil : kinds.take t.entries = [] := by simp [Thread.entries, hdepth]
  rw [hnil]
  refine ⟨rfl, hshape, hdepth, Nat.zero_le _, hmoderate, fun i x hx => ?_⟩
  cases hx

/-- Threads that go on with one more entry. The entry that is new is the last of the kinds, and
those before it are as they were. -/
theorem pushed {x : Kind} {e e' : UInt32} (he : x.Widens k k' e e') {t' : Thread} {stack : Stack}
    (hshape : t'.stack.SameShape stack) (hdepth : t'.depth = 4 * ((kinds.length + 1 : Nat) : Int))
    (hsize : 4 * (kinds.length + 1) ≤ t'.stack.size) (hmoderate : t'.cursor.Moderate)
    (hcells : ∀ i < kinds.length + 1,
      t'.stack.cell i = (if i = kinds.length then e else t.stack.cell i) ∧
        stack.cell i = if i = kinds.length then e' else u.stack.cell i) :
    t'.Widens k k' (kinds ++ [x]) (t'.widened stack) := by
  have hlength : (kinds ++ [x]).length = kinds.length + 1 := by simp
  refine ⟨rfl, hshape, ?_, ?_, hmoderate, fun i y hy => ?_⟩
  · rw [hlength]
    exact hdepth
  · rw [hlength]
    exact hsize
  · obtain ⟨hi, -⟩ := List.getElem?_eq_some_iff.mp hy
    obtain ⟨hcell, hcell'⟩ := hcells i (by omega)
    change y.Widens k k' _ (stack.cell i)
    rw [hcell, hcell']
    by_cases hlast : i = kinds.length
    · obtain rfl : x = y := by simpa [hlast] using hy
      rw [if_pos hlast, if_pos hlast]
      exact he
    · rw [if_neg hlast, if_neg hlast]
      rw [List.getElem?_append_left (by omega)] at hy
      exact h.cells i y hy

/-- A push of entries that correspond. -/
theorem push {x : Kind} {e e' : UInt32} (he : x.Widens k k' e e') (checked : Bool) :
    (t.push e checked).Widens k k' (fun _ => kinds ++ [x]) (u.push e' checked) := by
  have hdepth : t.depth + 4 = 4 * ((kinds.length + 1 : Nat) : Int) := by
    have hdepth := h.depth
    omega
  have hpush : u.push e' checked = (t.widened u.stack).push e' checked := by rw [← h.rest]
  rw [hpush]
  simp only [Thread.push, Thread.widened]
  rcases h.shape.write hdepth e e' with ⟨hw, hw'⟩ | ⟨w, w', hw, hw', hshape, hroom, hcells⟩
  · rw [hw, hw']
    trivial
  · rw [hw, hw']
    simp only [hshape.needsGrowth]
    split
    · rcases hshape.grow hdepth with ⟨hg, hg'⟩ | ⟨g, g', hg, hg', hshape', hsize, hlive⟩
      · rw [hg, hg']
        exact ⟨rfl, rfl, hshape⟩
      · rw [hg, hg']
        refine h.pushed he hshape' hdepth (Nat.le_trans hroom hsize) h.moderate fun i hi => ?_
        rw [(hlive i hi).1, (hlive i hi).2]
        exact hcells i
    · exact h.pushed he hshape hdepth hroom h.moderate fun i _ => hcells i

end Thread.Widens

/-! ### Decisions -/

/-- Two moves in the two encodings, from threads whose live entries are of these kinds. What is
pushed is of the given kind. -/
inductive Move.Widens (k k' : Task) (kinds : List Kind) : Effect → Move → Move → Prop
  /-- Both go on, and keep some of the entries. -/
  | go {c : Cursor} {n : Nat} : n ≤ kinds.length → c.depth = 4 * (n : Int) → c.Moderate →
      Widens k k' kinds .none (.go c) (.go c.widened)
  /-- Both poll. -/
  | poll (pc : Nat) : Widens k k' kinds .none (.poll pc) (.poll pc)
  /-- Both backtrack, from where some of the entries are left. -/
  | backtrack {depth : Int} {n : Nat} : n ≤ kinds.length → depth = 4 * (n : Int) →
      Widens k k' kinds .none (.backtrack depth) (.backtrack depth)
  /-- Both push. -/
  | push {x : Kind} {e e' : UInt32} (checked : Bool) : x.Widens k k' e e' →
      Widens k k' kinds (.pushes x) (.push e checked) (.push e' checked)
  /-- Both end the match. -/
  | exit : Widens k k' kinds .none .exit .exit
  /-- Both report a match. -/
  | succeed : Widens k k' kinds .reports .succeed .succeed
  /-- Both go astray. -/
  | stray {x : Effect} : Widens k k' kinds x .stray .stray

namespace Task.Widened

variable {k k' : Task} {bytes : Array UInt8} (h : k.Widened k' bytes) {kinds : List Kind}
  {t : Thread} {stack : Stack}

include h

theorem near {t : Thread} (hf : k.Fair kinds t) : Within (2 ^ 29) t.pos := by
  have hnear := hf.near
  rw [h.charSize_eq] at hnear
  exact hnear

/-- A branch leaves the stack alone or backtracks to what the stack holds, which is the same number
of entries on both sides. -/
theorem branchMove_widens (dest : Target) {n : Nat} (hlive : n ≤ kinds.length)
    (hdepth : t.depth = 4 * (n : Int)) (hmoderate : t.cursor.Moderate) :
    (k.branchMove dest t).Widens k k' kinds .none (k'.branchMove dest (t.widened stack)) := by
  cases dest with
  | none => exact .backtrack hlive hdepth
  | some l =>
    simp only [branchMove, h.place?_eq]
    cases k.place? l with
    | none => exact .stray
    | some i => exact .go hlive hdepth hmoderate

/-- A branch under a condition that is the same. -/
theorem branchMoveIf_widens {c c' : Bool} (hc : c' = c) (dest : Target)
    (hw : t.Widens k k' kinds (t.widened stack)) :
    (k.branchMoveIf c dest t).Widens k k' kinds .none
      (k'.branchMoveIf c' dest (t.widened stack)) := by
  rw [hc]
  cases c with
  | true => exact h.branchMove_widens dest (Nat.le_refl _) hw.depth hw.moderate
  | false => exact .go (Nat.le_refl _) hw.depth hw.moderate

/-- What is pushed is where an opcode lies in the code of each matcher. The two entries need not be
equal, but they lead to the same opcode. -/
theorem pushMove_widens (l : Label) :
    (k.pushMove l).Widens k k' kinds (.pushes .resumption) (k'.pushMove l) := by
  simp only [pushMove, h.place?_eq]
  cases k.place? l with
  | none => exact .stray
  | some i =>
    simp only
    cases hx : k.matcher.offsets[i]? with
    | none =>
      have hx' : k'.matcher.offsets[i]? = none := by
        rw [Array.getElem?_eq_none_iff] at hx ⊢
        rw [h.offsets]
        exact hx
      simp only [hx']
      exact .stray
    | some x =>
      obtain ⟨hi, -⟩ := Array.getElem?_eq_some_iff.mp hx
      rw [← h.offsets] at hi
      have hx' := Array.getElem?_eq_getElem hi
      simp only [hx']
      exact .push true (h.lands i _ _ hx hx')

omit h in
/-- A pop of a word, where one was pushed. The word is less than `2 ^ 30` in size, so the double of
it that is popped on the other side has not been cut. -/
theorem popMove_widens (hw : t.Widens k k' kinds (t.widened stack))
    (hlast : kinds.getLast? = some .word) (f : Int64 → Thread → Thread)
    (hwide : ∀ v u, (f (twice v) (u.widened stack)).cursor = (f v u).cursor.widened)
    (hdepth : ∀ v u, (f v u).depth = u.depth)
    (hmoderate : ∀ v u, Within (2 ^ 30 - 1) v → u.cursor.Moderate → (f v u).cursor.Moderate) :
    (popMove t.peek t f).Widens k k' kinds .none
      (popMove (t.widened stack).peek (t.widened stack) f) := by
  have hdepth' := hw.depth
  rcases hw.peek_cases with ⟨hnone, -⟩ | ⟨n, x, e, e', hlength, hx, hpeek, hpeek', he⟩
  · rw [hlast] at hnone
    cases hnone
  · obtain rfl := Option.some.inj (hx.symm.trans hlast)
    obtain ⟨v, hv, rfl, rfl⟩ := he
    have hpop : signWord (lowWord v) = v := Within.signWord_lowWord (hv.mono (by decide))
    have hpop' : signWord (lowWord (twice v)) = twice v :=
      Within.signWord_lowWord ((hv.doubled (by decide)).mono (by decide))
    simp only [hpeek, hpeek', popMove, hpop, hpop']
    have hgo : (f (twice v) { t.widened stack with
        depth := (t.widened stack).depth - 4, pc := (t.widened stack).pc + 1 }).cursor =
        (f v { t with depth := t.depth - 4, pc := t.pc + 1 }).cursor.widened :=
      hwide v { t with depth := t.depth - 4, pc := t.pc + 1 }
    rw [hgo]
    refine .go (n := n) (by omega) ?_ (hmoderate v _ hv hw.moderate)
    have hd := hdepth v { t with depth := t.depth - 4, pc := t.pc + 1 }
    change (f v { t with depth := t.depth - 4, pc := t.pc + 1 }).depth = _
    rw [hd]
    change t.depth - 4 = _
    omega

/-- A greedy loop compares the position with the top entry; these are both doubled, unless the entry
is a resumption point, which a fair thread does not meet. -/
theorem greedyMove_widens (hw : t.Widens k k' kinds (t.widened stack)) (hf : k.Fair kinds t)
    {dest : Target} (hop : k.opcode? t = some (.checkGreedyLoop dest)) :
    (k.greedyMove t.peek dest t).Widens k k' kinds .none
      (k'.greedyMove (t.widened stack).peek dest (t.widened stack)) := by
  have hdepth := hw.depth
  rcases hw.peek_cases with ⟨-, hpeek, hpeek'⟩ | ⟨n, x, e, e', hlength, hx, hpeek, hpeek', he⟩
  · rw [hpeek, hpeek']
    exact .go (Nat.le_refl _) hw.depth hw.moderate
  · cases x with
    | resumption => exact absurd hx (hf.loops dest hop)
    | word =>
      obtain ⟨v, hv, rfl, rfl⟩ := he
      have hpos : Within (2 ^ 30 - 1) t.pos := (h.near hf).mono (by decide)
      have hsame : lowWord (twice v) = lowWord (twice t.pos) ↔ lowWord v = lowWord t.pos := by
        rw [Within.lowWord_inj ((hv.doubled (by decide)).mono (by decide))
          ((hpos.doubled (by decide)).mono (by decide)), hv.twice_inj hpos (by decide),
          Within.lowWord_inj (hv.mono (by decide)) (hpos.mono (by decide))]
      have hwide : (t.widened stack).pos = twice t.pos := rfl
      simp only [hpeek, hpeek', greedyMove, hwide, hsame]
      split
      · refine h.branchMove_widens (t := { t with depth := t.depth - 4 }) dest (n := n)
          (by omega) ?_ hw.moderate
        change t.depth - 4 = _
        omega
      · exact .go (Nat.le_refl _) hw.depth hw.moderate

/-- A comparison that comes out the same on both sides goes on at the doubled position or
branches. -/
theorem comparisonMove_widens (hw : t.Widens k k' kinds (t.widened stack)) (same : Option Bool)
    (dest : Target) (pos : Int64) :
    (k.comparisonMove same dest pos t).Widens k k' kinds .none
      (k'.comparisonMove same dest (twice pos) (t.widened stack)) := by
  cases same with
  | none => exact .stray
  | some same =>
    cases same with
    | false => exact h.branchMove_widens dest (Nat.le_refl _) hw.depth hw.moderate
    | true => exact .go (Nat.le_refl _) hw.depth hw.moderate

/-- A reference to a capture: the lengths of captures double, so they fit on both sides or on
neither, and the characters that are compared belong to the subject, where they are equal on both
sides. -/
theorem backReferenceMove_widens (hw : t.Widens k k' kinds (t.widened stack))
    (hf : k.Fair kinds t) {reg : Nat} {backward : Bool} {dest : Target}
    (hop : k.opcode? t = some (.checkNotBackReference reg backward dest)) :
    (k.backReferenceMove reg backward dest t).Widens k k' kinds .none
      (k'.backReferenceMove reg backward dest (t.widened stack)) := by
  have hfirst : Within (2 ^ 30 - 1) (t.reg reg) := Thread.within_reg hw.moderate reg
  have hlast : Within (2 ^ 30 - 1) (t.reg (reg + 1)) := Thread.within_reg hw.moderate (reg + 1)
  have hlength : Within (2 ^ 31) (captureLength reg t) :=
    (hlast.sub hfirst (by decide)).mono (by decide)
  have hlength' : captureLength reg (t.widened stack) = twice (captureLength reg t) := by
    rw [captureLength, Thread.reg_widened, Thread.reg_widened, ← twice_sub]
    rfl
  have hzero : twice (captureLength reg t) = 0 ↔ captureLength reg t = 0 :=
    hlength.twice_inj (b := 0) ⟨by decide, by decide⟩ (by decide)
  have hfits := h.captureFits_eq backward hlength (h.near hf) (u := t.widened stack) rfl
  have hcount := h.compareCount_eq (hfirst.mono (by decide)) (hlast.mono (by decide))
  simp only [backReferenceMove, hlength', Thread.reg_widened, hcount, hzero, hfits]
  split
  · exact .go (Nat.le_refl _) hw.depth hw.moderate
  · next hne =>
    split
    · exact h.branchMove_widens dest (Nat.le_refl _) hw.depth hw.moderate
    · next hfit =>
      have hpos : (t.widened stack).pos = twice t.pos := rfl
      have hread : ∀ place ∈ k.comparedPlaces (k.compareCount (t.reg reg) (t.reg (reg + 1)))
          (t.reg reg) (if backward then t.pos - captureLength reg t else t.pos),
          k.Covers place := by
        intro place hplace
        refine hf.reads place ?_
        simp only [reads, hop, hne, hfit]
        exact hplace
      have hhere : (if backward then (t.widened stack).pos - twice (captureLength reg t)
          else (t.widened stack).pos) =
          twice (if backward then t.pos - captureLength reg t else t.pos) := by
        rw [hpos, ← twice_sub]
        split <;> rfl
      rw [hhere, h.size_eq, hpos, h.sameChars_eq hread]
      cases backward with
      | true => exact h.comparisonMove_widens hw _ dest _
      | false => exact twice_add _ _ ▸ h.comparisonMove_widens hw _ dest _

/-- A load of at most one character. A byte of the subject is read as the same number from the
widened one; a load of more characters is read into one register and is not. -/
theorem loadMove_widens (hw : t.Widens k k' kinds (t.widened stack)) {offset : Int32}
    {count : Nat} (hcount : count ≤ 1)
    (hread : ∀ place ∈ k.charPlaces count (t.pos + k.bytes offset), k.Covers place) :
    (k.loadMove offset count t).Widens k k' kinds .none
      (k'.loadMove offset count (t.widened stack)) := by
  have hplace : (t.widened stack).pos + k'.bytes offset = twice (t.pos + k.bytes offset) :=
    h.moved_eq t.pos offset
  obtain ⟨c, hc, hc', hlt⟩ : ∃ c, k.chars? (t.pos + k.bytes offset) count = some c ∧
      k'.chars? (twice (t.pos + k.bytes offset)) count = some c ∧ c < 256 := by
    rcases Nat.le_one_iff_eq_zero_or_eq_one.mp hcount with rfl | rfl
    · exact ⟨0, by simp [chars?, Subject.wordFromEnd?, Subject.wordAt?],
        by simp [chars?, Subject.wordFromEnd?, Subject.wordAt?], by decide⟩
    · exact h.chars?_eq (hread _ (by simp [charPlaces]))
  simp only [loadMove, hplace, hc, hc']
  exact .go (Nat.le_refl _) hw.depth ⟨hlt, hw.moderate.2⟩

/-- A position that is set from the end moves only towards it, and then the character before it is
loaded. -/
theorem positionFromEndMove_widens (hw : t.Widens k k' kinds (t.widened stack))
    (hf : k.Fair kinds t) {count : Int32} (hcount : InReach count)
    (hop : k.opcode? t = some (.setPositionFromEnd count)) :
    (k.positionFromEndMove count t).Widens k k' kinds .none
      (k'.positionFromEndMove count (t.widened stack)) := by
  have hlimit : Within (2 ^ 29 - 1) (-(k.bytes count)) := (h.within_bytes hcount).neg (by decide)
  have hlimit' : -(k'.bytes count) = twice (-(k.bytes count)) := by rw [h.bytes_eq, twice_neg]
  have hle : twice (-(k.bytes count)) ≤ (t.widened stack).pos ↔ -(k.bytes count) ≤ t.pos :=
    (hlimit.mono (by decide)).twice_le_twice (h.near hf) (by decide)
  simp only [positionFromEndMove, hlimit', h.unit_eq, ← twice_sub, hle]
  split
  · exact .go (Nat.le_refl _) hw.depth hw.moderate
  · next hpast =>
    have hread : k.Covers (-(k.bytes count) - k.unit) := by
      refine hf.reads _ ?_
      simp only [reads, hop, if_neg hpast, List.mem_singleton]
    obtain ⟨c, hc, hc', hlt⟩ := h.chars?_eq hread
    simp only [hc, hc']
    exact .go (Nat.le_refl _) hw.depth ⟨hlt, hw.moderate.2⟩

omit h in
/-- With at most one character to load, the place of the last one can be addressed if that of the
first one can. -/
theorem inReach_lastOffset {offset : Int32} {count : Nat} (hoffset : InReach offset)
    (hcount : count ≤ 1) : InReach (lastOffset offset count) := by
  obtain ⟨hlow, hhigh⟩ := hoffset
  unfold lastOffset
  split
  · next hnonneg =>
    rw [Int32.le_iff_toInt_le] at hnonneg
    have hzero : (0 : Int32).toInt = 0 := rfl
    have hone : (1 : Int32).toInt = 1 := rfl
    have hsum : (offset + Int32.ofNat count).toInt = offset.toInt + count := by
      rw [Int32.toInt_add, Int32.toInt_ofNat_of_lt (by omega),
        Int.bmod_eq_of_le (by omega) (by omega)]
    have hlast : (offset + Int32.ofNat count - 1).toInt = offset.toInt + count - 1 := by
      rw [Int32.toInt_sub, hsum, hone, Int.bmod_eq_of_le (by omega) (by omega)]
    rw [InReach, hlast]
    omega
  · exact ⟨hlow, hhigh⟩

/-- **A fair thread and its double decide the same**, opcode by opcode. What the opcode reads of the
subject is the same character on both sides, and what it computes with positions doubles. -/
theorem opcodeMove_widens (hw : t.Widens k k' kinds (t.widened stack)) (hf : k.Fair kinds t)
    {op : Opcode} (hop : k.opcode? t = some op) (hn : op.IsNeutral) :
    (k.opcodeMove t.peek op t).Widens k k' kinds op.effect
      (k'.opcodeMove (t.widened stack).peek op (t.widened stack)) := by
  have hnear := h.near hf
  cases op with
  | bind l => exact .go (Nat.le_refl _) hw.depth hw.moderate
  | advance count =>
    have hpos : (t.widened stack).pos + k'.bytes count = twice (t.pos + k.bytes count) :=
      h.moved_eq t.pos count
    simp only [opcodeMove, hpos]
    exact .go (Nat.le_refl _) hw.depth hw.moderate
  | backtrack => exact .backtrack (Nat.le_refl _) hw.depth
  | onChar test dest =>
    refine h.branchMoveIf_widens ?_ dest hw
    exact test.holds_of_lt _ _ hw.moderate.1
  | onPlace test dest =>
    exact h.branchMoveIf_widens (h.placeHolds_eq test dest hn hnear rfl) dest hw
  | onRegister test dest =>
    cases test with
    | ge reg value => exact hn.elim
    | lt reg value => exact hn.elim
    | eqPosition reg =>
      refine h.branchMoveIf_widens ?_ dest hw
      rw [Bool.eq_iff_iff]
      simp only [registerHolds, beq_iff_eq, Thread.reg_widened]
      exact (Thread.within_reg hw.moderate reg).twice_inj (hnear.mono (by decide)) (by decide)
  | checkGreedyLoop dest => exact h.greedyMove_widens hw hf hop
  | checkNotBackReference reg backward dest => exact h.backReferenceMove_widens hw hf hop
  | fail => exact .exit
  | goTo dest =>
    cases dest with
    | none => exact .backtrack (Nat.le_refl _) hw.depth
    | some l =>
      have hpc : (t.widened stack).pc = t.pc := rfl
      simp only [opcodeMove, goToMove, h.place?_eq, hpc]
      cases k.place? l with
      | none => exact .stray
      | some i =>
        simp only
        split
        · exact .poll i
        · exact .go (Nat.le_refl _) hw.depth hw.moderate
  | load offset dest checked count =>
    have houtside := h.placeHolds_eq (.outside (lastOffset offset count)) dest
      (inReach_lastOffset hn.1 hn.2) hnear (u := t.widened stack) rfl
    simp only [opcodeMove, houtside]
    split
    · exact h.branchMove_widens dest (Nat.le_refl _) hw.depth hw.moderate
    · next hinside =>
      refine h.loadMove_widens hw hn.2 fun place hplace => hf.reads place ?_
      simp only [reads, hop, if_neg hinside]
      exact hplace
  | popPosition =>
    exact popMove_widens hw (hf.pops _ hop rfl) (fun v t => { t with pos := v }) (fun _ _ => rfl)
      (fun _ _ => rfl) fun _ _ _ hu => hu
  | popRegister reg =>
    refine popMove_widens hw (hf.pops _ hop rfl) (fun v t => t.setReg reg v) (fun v u => ?_)
      (fun _ _ => rfl) fun v u hv hu => Thread.moderate_setReg hu reg hv
    rw [Thread.setReg_widened]
    rfl
  | pushBacktrack l => exact h.pushMove_widens l
  | pushPosition =>
    exact .push true ⟨t.pos, hnear.mono (by decide), rfl, rfl⟩
  | pushRegister reg checked =>
    refine .push checked ⟨t.reg reg, Thread.within_reg hw.moderate reg, rfl, ?_⟩
    rw [Thread.reg_widened]
  | readPosition reg =>
    simp only [opcodeMove, Thread.reg_widened]
    exact .go (Nat.le_refl _) hw.depth hw.moderate
  | setPositionFromEnd count => exact h.positionFromEndMove_widens hw hf hn hop
  | succeed => exact .succeed
  | writePosition reg offset =>
    have hplace : (t.widened stack).pos + k'.bytes offset = twice (t.pos + k.bytes offset) :=
      h.moved_eq t.pos offset
    have hwithin : Within (2 ^ 30 - 1) (t.pos + k.bytes offset) :=
      (hnear.add (h.within_bytes hn) (by decide)).mono (by decide)
    simp only [opcodeMove, hplace, Thread.setReg_widened]
    exact .go (Nat.le_refl _) hw.depth (Thread.moderate_setReg hw.moderate reg hwithin)
  | clearRegisters first last =>
    simp only [opcodeMove, h.before_eq, Thread.setRegs_widened]
    refine .go (Nat.le_refl _) ?_
      (Thread.moderate_setRegs hw.moderate _ (h.within_before.mono (by decide)))
    change (List.foldl _ t _).depth = _
    rw [foldl_setReg]
    exact hw.depth
  | advanceRegister | checkNotBackReferenceIgnoreCase | readStackPointer | setRegister
  | writeStackPointer => exact hn.elim

omit h in
/-- An opcode of which a report is expected is a success. -/
theorem opcode?_of_reports (hx : k.effect t = .reports) : k.opcode? t = some .succeed := by
  unfold effect at hx
  cases hop : k.opcode? t with
  | none =>
    rw [hop] at hx
    cases hx
  | some op =>
    rw [hop] at hx
    cases op with
    | succeed => rfl
    | _ => cases hx

/-- **One opcode.** What the opcode does to the doubled thread is the doubled outcome of what it
does to the thread, with the same effect on the kinds of the entries: one case for each opcode, and
one lemma for each that needs more than arithmetic. -/
theorem move_widens (hw : t.Widens k k' kinds (t.widened stack)) (hf : k.Fair kinds t) :
    (k.move t).Widens k k' kinds (k.effect t) (k'.move (t.widened stack)) := by
  have hop' : k'.opcode? (t.widened stack) = k.opcode? t := by
    rw [opcode?, opcode?, h.program]
    rfl
  unfold move effect
  rw [hop']
  cases hop : k.opcode? t with
  | none => exact .stray
  | some op =>
    exact h.opcodeMove_widens hw hf hop (h.neutral op (Array.mem_of_getElem? hop))

/-! ### Doing it -/

theorem exit_widens {ledger : Thread → List Kind} (hshape : t.stack.SameShape stack) :
    (k.exit t).Widens k k' ledger (k'.exit (t.widened stack)) := by
  rw [h.exit_widened]
  unfold exit
  split <;> exact ⟨rfl, rfl, hshape⟩

omit h in
/-- The character before the start of a search is read, unless the search starts at the beginning of
the subject. -/
theorem covers_of_restartReads {pos : Int64}
    (hread : ∀ place ∈ k.restartReads pos, k.Covers place) :
    pos - k.unit = k.before ∨ k.Covers (pos - k.unit) := by
  by_cases hbefore : pos - k.unit = k.before
  · exact Or.inl hbefore
  · refine Or.inr (hread _ ?_)
    rw [restartReads, if_neg hbefore]
    exact List.mem_singleton_self _

/-- The character before an index of the subject belongs to the subject. -/
theorem covers_of_mem_restartReads {i : Nat} (hi : i ≤ bytes.size) {place : Int64}
    (hplace : place ∈ k.restartReads (k.position i)) : k.Covers place := by
  have hsize := h.size
  have hint := h.toInt_position hi
  have hpos : Within (2 ^ 29) (k.position i) := by
    rw [Within, hint]
    omega
  have hprevious := hpos.toInt_sub h.within_unit (by decide)
  rw [hint, h.toInt_unit] at hprevious
  unfold restartReads at hplace
  split at hplace
  · cases hplace
  · next hne =>
    obtain rfl := List.mem_singleton.mp hplace
    have hzero : i ≠ 0 := by
      rintro rfl
      refine hne ?_
      rw [← Int64.toInt_inj, hprevious, h.toInt_before]
      omega
    rw [Covers, hprevious, h.byteSize_eq, h.charSize_eq]
    omega

/-- A start with nothing on the stack. -/
theorem restart_widens (hshape : t.stack.SameShape stack) (hdepth : t.depth = 0)
    (hpos : Within (2 ^ 30) t.pos) (hread : ∀ place ∈ k.restartReads t.pos, k.Covers place) :
    (k.restart t).Widens k k' (fun u => kinds.take u.entries) (k'.restart (t.widened stack)) := by
  obtain ⟨c, hc, hc', hlt⟩ := h.charBefore?_eq hpos (covers_of_restartReads hread)
  have hpos' : (t.widened stack).pos = twice t.pos := rfl
  have hregs : Array.replicate k'.matcher.object.registers k'.before =
      (Array.replicate k.matcher.object.registers k.before).map twice := by
    rw [Array.map_replicate, h.registers, h.before_eq]
  rw [restart_eq_charBefore?, restart_eq_charBefore?, hpos', hc, hc']
  simp only [hregs]
  refine Thread.Widens.of_empty hshape hdepth ⟨hlt, fun v hv => ?_⟩
  rw [Array.eq_of_mem_replicate hv]
  exact h.within_before.mono (by decide)

/-- Starting over after a match. Both see an empty match where one of them does, and then move on by
one character: among characters below 256 there are no surrogate pairs. -/
theorem startOver_widens {start : Int64} (hshape : t.stack.SameShape stack) (hdepth : t.depth = 0)
    (hpos : Within (2 ^ 29) t.pos) (hstart : Within (2 ^ 30) start)
    (hread : ∀ place ∈ k.startOverReads start t, k.Covers place) :
    (k.startOver start t).Widens k k' (fun u => kinds.take u.entries)
      (k'.startOver (twice start) (t.widened stack)) := by
  have hfar : Within (2 ^ 30) t.pos := hpos.mono (by decide)
  have hpos' : (t.widened stack).pos = twice t.pos := rfl
  have hempty : (twice t.pos == twice start) = (t.pos == start) := by
    rw [Bool.eq_iff_iff, beq_iff_eq, beq_iff_eq]
    exact hfar.twice_inj hstart (by decide)
  have hend : twice t.pos = 0 ↔ t.pos = 0 :=
    hfar.twice_inj (b := 0) ⟨by decide, by decide⟩ (by decide)
  unfold startOverReads at hread
  simp only [startOver, h.globalMode_eq, hpos', hempty, hend]
  split
  · next hzero =>
    rw [if_pos hzero] at hread
    split
    · exact h.exit_widens hshape
    · next hne =>
      rw [if_neg hne] at hread
      have hcovers := covers_of_restartReads hread
      rw [Int64.add_sub_cancel] at hcovers
      obtain ⟨hafter, hafter'⟩ := h.positionAfterEmpty_eq hcovers
      rw [hafter, hafter']
      exact h.restart_widens (t := { t with pos := t.pos + k.unit }) hshape hdepth
        ((hpos.add h.within_unit (by decide)).mono (by decide)) hread
  · next hzero =>
    rw [if_neg hzero] at hread
    exact h.restart_widens hshape hdepth hfar hread

/-- The captures are stored as the same indices. -/
theorem storeCaptures_eq {regs : Array Int64} (hregs : ∀ v ∈ regs, Within (2 ^ 30 - 1) v)
    (count base : Nat) (output : Array Int32) :
    k'.storeCaptures count base (regs.map twice) output =
      k.storeCaptures count base regs output := by
  have hindex : ∀ i, k'.captureIndex ((regs.map twice).getD i 0) =
      k.captureIndex (regs.getD i 0) := by
    intro i
    simp only [Array.getD_eq_getD_getElem?, Array.getElem?_map]
    cases hi : regs[i]? with
    | none => exact h.captureIndex_eq (v := 0) ⟨by decide, by decide⟩
    | some v => exact h.captureIndex_eq ((hregs v (Array.mem_of_getElem? hi)).mono (by decide))
  simp only [storeCaptures, hindex]

theorem stored_widened (hregs : ∀ v ∈ t.regs, Within (2 ^ 30 - 1) v) (stack : Stack) :
    k'.stored (t.widened stack) = (k.stored t).widened stack := by
  have hstore := h.storeCaptures_eq hregs k.matcher.program.saved t.outBase t.output
  simp only [stored, Thread.widened, h.program, hstore]

/-- A report of a match. The captures are reported as indices of characters, so the two outputs are
equal and not doubled. -/
theorem succeed_widens (hw : t.Widens k k' kinds (t.widened stack)) (hf : k.Fair kinds t)
    (hop : k.opcode? t = some .succeed) :
    (k.succeed t).Widens k k' (fun u => kinds.take u.entries) (k'.succeed (t.widened stack)) := by
  have hstored := h.stored_widened hw.moderate.2 stack
  have hread := hf.reads
  simp only [reads, hop] at hread
  rw [succeed_eq_stored, succeed_eq_stored, h.globalMode_eq, h.program, Thread.reg_widened]
  change Outcome.Widens _ _ _ _ (if _ then if t.remaining < _ then _ else _ else _)
  split
  · next hglobal =>
    split
    · rw [hstored]
      exact h.exit_widens (t := { k.stored t with captures := t.captures + 1 }) hw.shape
    · next hroom =>
      have hrewound : k'.rewound (t.widened stack) = (k.rewound t).widened stack := by
        simp only [rewound, hstored, h.program]
        rfl
      rw [hrewound]
      have hnear := h.near hf
      refine h.startOver_widens (t := k.rewound t) hw.shape rfl hnear
        ((Thread.within_reg hw.moderate 0).mono (by decide)) ?_
      have hreads : k.startOverReads (t.reg 0) (k.rewound t) = k.startOverReads (t.reg 0) t := rfl
      rw [hreads]
      simpa [hglobal, hroom] using hread
  · rw [hstored]
    exact ⟨rfl, rfl, hw.shape⟩

/-- Resuming at an entry that was pushed to be resumed at. -/
theorem resume_widens (hw : t.Widens k k' (kinds.take t.entries) (t.widened stack))
    (hlast : (kinds.take t.entries).getLast? ≠ some .word) :
    (k.resume t).Widens k k' (fun u => kinds.take u.entries) (k'.resume (t.widened stack)) := by
  rw [resume_eq, resume_eq]
  rcases hw.peek_cases with ⟨-, hpeek, hpeek'⟩ | ⟨n, x, e, e', hlength, hx, hpeek, hpeek', he⟩
  · rw [hpeek, hpeek']
    exact h.exit_widens hw.shape
  · cases x with
    | word => exact absurd hx hlast
    | resumption =>
      rw [hpeek, hpeek']
      simp only
      rw [show k'.opcodeAt? e' = k.opcodeAt? e from he]
      cases k.opcodeAt? e with
      | none => trivial
      | some i =>
        have hdepth := hw.depth
        have hkeep := hw.keep (v := { t with depth := t.depth - 4, pc := i }) (n := n) rfl
          (by omega) (by change t.depth - 4 = _; omega) hw.moderate
        rw [List.take_take, Nat.min_eq_left (by simp only [Thread.entries]; omega)] at hkeep
        exact hkeep

/-- Backtracking, to an entry that was pushed to be resumed at. A word would be taken for a code
offset, which is why a fair thread does not backtrack to one. -/
theorem backtrack_widens (hw : t.Widens k k' (kinds.take t.entries) (t.widened stack))
    (hresumes : ∀ u, (k.poll t).andThen k.countBacktrack = .next u →
      (kinds.take u.entries).getLast? ≠ some .word) :
    (k.backtrack t).Widens k k' (fun u => kinds.take u.entries)
      (k'.backtrack (t.widened stack)) := by
  have hstays := (staysAt_poll (k := k) t).andThen fun u => staysAt_countBacktrack (k := k) u
  have hcount : (k'.poll (t.widened stack)).andThen k'.countBacktrack =
      ((k.poll t).andThen k.countBacktrack).widened stack := by
    rw [h.poll_widened]
    exact Outcome.widened_andThen fun u => h.countBacktrack_widened u stack
  rw [backtrack, backtrack, hcount]
  cases hu : (k.poll t).andThen k.countBacktrack with
  | stray => trivial
  | done s u =>
    rw [hu] at hstays
    refine ⟨rfl, rfl, ?_⟩
    rw [show u.stack = t.stack from hstays]
    exact hw.shape
  | next u =>
    rw [hu] at hstays
    obtain ⟨hcursor, hstack⟩ := hstays
    have hentries : u.entries = t.entries := congrArg (·.depth.toNat / 4) hcursor
    rw [← hentries] at hw
    exact h.resume_widens (hw.of_cursor hcursor hstack) (hresumes u hu)

/-- **What the two do is the same.** The decisions being the same, this is about carrying them out:
pushes, backtracks and reports on two stacks of the same shape. -/
theorem act_widens (hw : t.Widens k k' kinds (t.widened stack)) (hf : k.Fair kinds t) :
    (k.act (k.move t) t).Widens k k' (k.kindsAfter kinds t)
      (k'.act (k'.move (t.widened stack)) (t.widened stack)) := by
  have hmove := h.move_widens hw hf
  have hresumes := hf.resumes
  have hop : k.effect t = .reports → k.opcode? t = some .succeed := opcode?_of_reports
  unfold kindsAfter
  revert hmove hresumes hop
  generalize k.effect t = x
  generalize k.move t = m
  generalize k'.move (t.widened stack) = m'
  intro hmove hresumes hop
  cases hmove with
  | go hlive hdepth hmoderate =>
    exact hw.keep rfl hlive hdepth hmoderate
  | poll pc =>
    simp only [act]
    rw [h.poll_widened]
    have hstays := staysAt_poll (k := k) t
    cases hu : k.poll t with
    | next u =>
      rw [hu] at hstays
      obtain ⟨hcursor, hstack⟩ := hstays
      have hdepth : u.depth = 4 * (kinds.length : Int) :=
        (congrArg Cursor.depth hcursor).trans hw.depth
      have hmoderate : u.cursor.Moderate := hcursor ▸ hw.moderate
      exact hw.keep (v := { u with pc := pc }) hstack (Nat.le_refl _) hdepth hmoderate
    | done s u =>
      rw [hu] at hstays
      refine ⟨rfl, rfl, ?_⟩
      rw [show u.stack = t.stack from hstays]
      exact hw.shape
    | stray => trivial
  | @backtrack depth n hlive hdepth =>
    exact h.backtrack_widens
      (hw.keep (v := { t with depth := depth }) rfl hlive hdepth hw.moderate)
      fun u hu => hresumes depth u rfl hu
  | push checked he => exact hw.push he checked
  | exit => exact h.exit_widens hw.shape
  | succeed => exact h.succeed_widens hw hf (hop rfl)
  | stray => trivial

/-- **A step from a fair thread is a step in the other encoding.** -/
theorem step_widens {u : Thread} (hw : t.Widens k k' kinds u) (hf : k.Fair kinds t) :
    (k.step t).Widens k k' (k.kindsAfter kinds t) (k'.step u) := by
  have hrest := hw.rest
  rw [step_eq_act, step_eq_act]
  rw [hrest] at hw ⊢
  exact h.act_widens hw hf

end Task.Widened

end NativeMatcher
