import NativeMatcher.Proofs.StackSize

/-!
# The backtrack stack is never left

Generated code writes entries of its stack without asking whether there is memory below the
pointer: the limit is looked at after the write, and by some pushes not at all. That this is
safe rests on numbers that are spread over the program. The check keeps 32 entries free; a
stack that doubles once has room for all of them again; and the least size of a configuration
is more than 33 entries.

Here a run of the program is watched step by step. `NativeMatcher.Task.pointers` lists the
places at which the pointer stands during a step, and `NativeMatcher.Task.accesses` the entries
that the step reads or writes. If the discipline of the stack is kept, both stay inside the
memory that the thread has at the time, in every attempt of every match
(`NativeMatcher.Engine.stack_inside`). Nothing is asked of the frame or of the interrupts: an
attempt that gets past its first poll is settled.
-/

namespace NativeMatcher

open Backtrack

/-! ### What a step does with the stack -/

/-- The address of the backtrack stack pointer at a depth, in the memory that the thread has. -/
def Thread.address (t : Thread) (depth : Int) : Int := t.stack.top - depth

namespace Task

/-- The depths of the pointer during a step, until the thread goes on or is done: the one it
starts with, and the one from which it backtracks or to which it pushes. -/
def pointers (k : Task) (t : Thread) : List Int :=
  t.depth :: match k.move t with
    | .backtrack depth => [depth]
    | .push _ _ => [t.depth + 4]
    | _ => []

/-- The depths of the entries that a step reads or writes. A greedy loop and a backtrack look
first whether there is an entry; a pop and a push do not. -/
def accesses (k : Task) (t : Thread) : List Int :=
  (match k.opcode? t with
    | some .popPosition | some (.popRegister _) => [t.depth]
    | some (.checkGreedyLoop _) => if t.stack.isEmptyAt t.depth then [] else [t.depth]
    | _ => []) ++
  match k.move t with
  | .backtrack depth => if t.stack.isEmptyAt depth then [] else [depth]
  | .push _ _ => [t.depth + 4]
  | _ => []

end Task

/-! ### One step -/

namespace Thread

variable {cap unchecked : Nat} {t : Thread}

/-- The pointer of a tidy thread is inside its memory. -/
theorem Tidy.depth_le_size (h : t.Tidy cap unchecked) : 0 ≤ t.depth ∧ t.depth ≤ t.stack.size := by
  have hroom := h.room
  have hfew := h.few
  have hdepth := h.depth
  omega

/-- There is room for one more entry, however many went unchecked before. -/
theorem Tidy.inside_push (h : t.Tidy cap unchecked) : t.stack.inside (t.depth + 4) = true := by
  have hroom := h.room
  have hfew := h.few
  have hdepth := h.depth
  have hfour : t.stack.size = t.stack.capacity * 4 := rfl
  simp only [Stack.inside, Bool.and_eq_true, decide_eq_true_eq]
  omega

/-- Live entries are inside the memory. -/
theorem Tidy.inside_entry (h : t.Tidy cap unchecked) {depth : Int} {live : Nat}
    (hle : live ≤ t.entries) (hdepth : depth = 4 * (live : Int)) (hpos : 0 < depth) :
    t.stack.inside depth = true := by
  have hroom := h.room
  have hfew := h.few
  simp only [Stack.inside, Bool.and_eq_true, decide_eq_true_eq]
  omega

end Thread

namespace Task

variable {k : Task} {t : Thread} {cap unchecked : Nat}

/-- **During a step the pointer stays inside the memory.** The depth of a push is past the entries
of the thread, and there is room for it because the limit check keeps some entries free. -/
theorem depth_le_size_of_mem_pointers (h : t.Tidy cap unchecked) (ho : k.Orderly unchecked t)
    {depth : Int} (hd : depth ∈ k.pointers t) : 0 ≤ depth ∧ depth ≤ t.stack.size := by
  have hdepth := h.depth
  have hle := h.depth_le_size
  rcases List.mem_cons.mp hd with rfl | hd
  · exact hle
  · have hm := orderly_move h ho
    cases hmove : k.move t with
    | backtrack d =>
      simp only [hmove, List.mem_singleton] at hd
      rw [hmove] at hm
      obtain ⟨live, hlive, hdl⟩ := hm
      omega
    | push e checked =>
      simp only [hmove, List.mem_singleton] at hd
      have hin := h.inside_push
      simp only [Stack.inside, Bool.and_eq_true, decide_eq_true_eq] at hin
      omega
    | _ => simp only [hmove, List.not_mem_nil] at hd

/-- **Every entry that a step reads or writes is inside the memory.** Entries that are read are live
ones. The one that is written is covered by the room that the last limit check has left. -/
theorem inside_of_mem_accesses (h : t.Tidy cap unchecked) (ho : k.Orderly unchecked t)
    {depth : Int} (hd : depth ∈ k.accesses t) : t.stack.inside depth = true := by
  have hdepth := h.depth
  rcases List.mem_append.mp hd with hd | hd
  · cases hop : k.opcode? t with
    | none => simp only [hop, List.not_mem_nil] at hd
    | some op =>
      simp only [Orderly, hop] at ho
      cases op with
      | popPosition | popRegister =>
        simp only [hop, List.mem_singleton] at hd
        rw [hd]
        exact h.inside_entry (Nat.le_refl _) hdepth (by omega)
      | checkGreedyLoop dest =>
        simp only [hop] at hd
        split at hd
        · cases hd
        · next hempty =>
          rw [List.mem_singleton.mp hd]
          exact h.inside_entry (Nat.le_refl _) hdepth (Thread.pos_of_not_isEmptyAt hempty)
      | _ => simp only [hop, List.not_mem_nil] at hd
  · have hm := orderly_move h ho
    cases hmove : k.move t with
    | backtrack d =>
      rw [hmove] at hm
      obtain ⟨live, hle, hlive⟩ := hm
      simp only [hmove] at hd
      split at hd
      · cases hd
      · next hempty =>
        rw [List.mem_singleton.mp hd]
        exact h.inside_entry hle hlive (Thread.pos_of_not_isEmptyAt hempty)
    | push e checked =>
      simp only [hmove, List.mem_singleton] at hd
      rw [hd]
      exact h.inside_push
    | _ => simp only [hmove, List.not_mem_nil] at hd

/-- After a limit check that does not end the run there is room for 33 entries: as many as may
go unchecked, and the checked one after them. -/
theorem room_of_pushesChecked (h : t.Tidy cap unchecked) (hset : k.Settled t) {t' : Thread}
    (hpush : k.pushesChecked t = true) (hs : k.step t = .next t') :
    t'.depth + 4 * 33 ≤ t'.stack.size := by
  have hroom := lt_size_of_next h hset hs hpush
  have hdepth := h.depth
  have hslack : Assembler.stackLimitSlack = 32 := rfl
  have hfour : t'.stack.size = t'.stack.capacity * 4 := rfl
  have hdepth' : t'.depth = t.depth + 4 := by
    rcases step_cases h hset with ⟨e, u, -, -, hdone, -⟩ | ⟨e, checked, u, -, -, hnext, hpushed⟩ |
      ⟨hm, -⟩
    · rw [hdone] at hs
      cases hs
    · rw [hnext] at hs
      obtain rfl := Outcome.next.inj hs
      rw [hpushed.eq]
    · rw [pushesChecked_of_ne_push hm] at hpush
      cases hpush
  omega

end Task

/-! ### The end of a run -/

/-- A thread that is done has the memory of `t`, and its pointer is where that of `t` was,
unless the stack was emptied. -/
def Outcome.EndsAt (o : Outcome) (t : Thread) : Prop :=
  o.Satisfies (fun _ => True) fun _ u => u.stack = t.stack ∧ (u.depth = t.depth ∨ u.depth = 0)

namespace Task

variable {k : Task} {t : Thread} {cap unchecked : Nat}

theorem endsAt_exit (t : Thread) : (k.exit t).EndsAt t := by
  unfold exit
  split <;> exact ⟨rfl, Or.inl rfl⟩

theorem endsAt_restart (t u : Thread) : (k.restart u).EndsAt t := by
  rcases k.restart_cases u with h | ⟨c, h⟩
  · rw [h]
    trivial
  · rw [h]
    trivial

/-- A match that ends the run ends it at the depth where it was found, or with the stack emptied for
another start that there is no room for. -/
theorem endsAt_succeed (t : Thread) : (k.succeed t).EndsAt t := by
  unfold succeed
  simp only
  split
  · split
    · exact endsAt_exit _
    · unfold startOver
      split
      · split
        · -- The stack was emptied to start over.
          refine (endsAt_exit _).imp (fun _ => id) fun s u hu => ⟨hu.1, Or.inr ?_⟩
          simpa using hu.2
        · split
          · trivial
          · exact endsAt_restart t _
      · exact endsAt_restart t _
  · exact ⟨rfl, Or.inl rfl⟩

/-- A backtrack to the bottom of the stack fails with the stack empty. -/
theorem endsAt_resume (t : Thread) : (k.resume t).EndsAt t := by
  unfold resume
  split
  · exact endsAt_exit t
  · split
    · trivial
    · split <;> trivial

/-- Counting backtracks does not touch the stack. -/
theorem endsAt_countBacktrack (t : Thread) : (k.countBacktrack t).EndsAt t := by
  unfold countBacktrack
  split
  · trivial
  · simp only
    split
    · trivial
    · split
      · exact ⟨rfl, Or.inl rfl⟩
      · exact endsAt_exit _

/-- The poll before a backtrack grows no stack and moves no entry, so a run that it ends leaves the
stack as it was. -/
theorem endsAt_backtrack (hset : k.Settled t) : (k.backtrack t).EndsAt t := by
  simp only [backtrack, poll_of_settled hset]
  have hcount : (k.countBacktrack (t.afterPolls 1)).EndsAt t := endsAt_countBacktrack _
  cases hc : k.countBacktrack (t.afterPolls 1) with
  | next u =>
    simp only [Outcome.andThen, hc]
    have hresume : (k.resume u).EndsAt u := endsAt_resume u
    rw [eq_of_countBacktrack hc] at hresume ⊢
    exact hresume
  | done s u =>
    rw [hc] at hcount
    simpa only [Outcome.andThen, hc] using hcount
  | stray =>
    simp only [Outcome.andThen, hc]
    trivial

/-- **A run that is done leaves the pointer inside the memory.** The cases are the moves, with those
apart that may end a run. -/
theorem depth_le_size_of_done (h : t.Tidy cap unchecked) (hset : k.Settled t)
    (ho : k.Orderly unchecked t) {s : Status} {u : Thread} (hs : k.step t = .done s u) :
    0 ≤ u.depth ∧ u.depth ≤ u.stack.size := by
  have hlast : ∀ v : Thread, v.depth ∈ k.pointers t → v.stack = t.stack →
      (Outcome.done s u).EndsAt v → 0 ≤ u.depth ∧ u.depth ≤ u.stack.size := by
    intro v hv hstack hend
    have hin := depth_le_size_of_mem_pointers h ho hv
    rw [hend.1, hstack]
    rcases hend.2 with hd | hd
    · rwa [hd]
    · omega
  have hhere : t.depth ∈ k.pointers t := List.mem_cons_self
  rw [step_eq_act] at hs
  cases hmove : k.move t with
  | go c =>
    rw [hmove] at hs
    cases hs
  | poll pc =>
    simp only [hmove, act, poll_of_settled hset] at hs
    cases hs
  | backtrack depth =>
    have hd : k.Settled { t with depth := depth } := ⟨hset.limit, hset.room, hset.calm⟩
    have hend := endsAt_backtrack hd
    rw [hmove] at hs
    rw [show k.backtrack { t with depth := depth } = .done s u from hs] at hend
    refine hlast { t with depth := depth } ?_ rfl hend
    simp [pointers, hmove]
  | push e checked =>
    rw [hmove] at hs
    have hpush := Thread.push_of_tidy h e checked
    rw [show t.push e checked = .done s u from hs] at hpush
    have hin := h.inside_push
    simp only [Stack.inside, Bool.and_eq_true, decide_eq_true_eq] at hin
    split at hpush
    · obtain ⟨-, stack, heq, hsize⟩ := hpush
      obtain ⟨-, rfl⟩ := Outcome.done.inj heq
      simp only [hsize]
      omega
    · obtain ⟨t', hcon, -⟩ := hpush
      cases hcon
  | exit =>
    have hend := endsAt_exit (k := k) t
    rw [hmove] at hs
    rw [show k.exit t = .done s u from hs] at hend
    exact hlast t hhere rfl hend
  | succeed =>
    have hend := endsAt_succeed (k := k) t
    rw [hmove] at hs
    rw [show k.succeed t = .done s u from hs] at hend
    exact hlast t hhere rfl hend
  | stray =>
    rw [hmove] at hs
    cases hs

/-- A poll that ends a run only counts itself. -/
theorem eq_of_poll_done {s : Status} {u : Thread} (h : k.poll t = .done s u) :
    u = { t with polls := u.polls } := by
  unfold poll at h
  split at h
  · cases h
  · simp only at h
    split at h
    · obtain ⟨-, rfl⟩ := Outcome.done.inj h
      rfl
    · cases h
    · cases h

end Task

/-! ### Every attempt of every match -/

namespace Attempt

variable {a : Attempt}

/-- What it means that an attempt stays inside its backtrack stack. The pointer is between the
base and the top of the memory wherever the attempt gets, and where it ends; whatever it reads
or writes is an entry of that memory; and a limit check that does not end the run leaves room
for 33 entries below the pointer. -/
structure StaysInside (a : Attempt) : Prop where
  /-- At the entry. -/
  entry : a.entry.stack.base ≤ a.entry.address a.entry.depth ∧
    a.entry.address a.entry.depth ≤ a.entry.stack.top
  /-- During every step. -/
  pointer : ∀ t unchecked, a.Passes t unchecked → ∀ depth ∈ a.task.pointers t,
    t.stack.base ≤ t.address depth ∧ t.address depth ≤ t.stack.top
  /-- What a step reads or writes. -/
  access : ∀ t unchecked, a.Passes t unchecked → ∀ depth ∈ a.task.accesses t,
    t.stack.base ≤ t.address depth ∧ t.address depth + 4 ≤ t.stack.top
  /-- After a limit check. -/
  room : ∀ t unchecked t', a.Passes t unchecked → a.task.pushesChecked t = true →
    a.task.step t = .next t' → t'.stack.base + 4 * 33 ≤ t'.address t'.depth
  /-- At the end. -/
  ending : ∀ s t, a.ending = some (.done s t) →
    t.stack.base ≤ t.address t.depth ∧ t.address t.depth ≤ t.stack.top

/-- An attempt is done at its first poll, as it entered, or at a step from a thread it passes. So
what is asked of the end of an attempt is asked of one step, from a thread for which the invariant
holds. -/
theorem ending_cases {s : Status} {t : Thread} (h : a.ending = some (.done s t)) :
    (t.depth = a.entry.depth ∧ t.stack = a.entry.stack) ∨
      ∃ u unchecked, a.Passes u unchecked ∧ a.task.step u = .done s t := by
  cases hb : a.begin with
  | next t₀ =>
    rw [ending_of_begin hb] at h
    obtain ⟨n, u, hn, hu⟩ := Task.exists_last_step h
    obtain ⟨unchecked, hp⟩ := Task.exists_passes_of_steps hn
    exact Or.inr ⟨u, unchecked, ⟨t₀, hb, hp⟩, hu⟩
  | done s' t' =>
    have hend : a.ending = some (.done s' t') := by
      change a.begin.ending a.task.run = _
      rw [hb]
      rfl
    rw [hend] at h
    obtain ⟨rfl, rfl⟩ := Ending.done.inj (Option.some.inj h)
    refine Or.inl ?_
    cases hpoll : a.task.poll a.entry with
    | next u =>
      -- The start does not end a run.
      rw [begin_of_opened hpoll] at hb
      rcases a.task.restart_cases u with hr | ⟨c, hr⟩
      · rw [hr] at hb
        cases hb
      · rw [hr] at hb
        cases hb
    | done s u =>
      rw [begin, hpoll] at hb
      obtain ⟨rfl, rfl⟩ := Outcome.done.inj hb
      rw [Task.eq_of_poll_done hpoll]
      exact ⟨rfl, rfl⟩
    | stray =>
      rw [begin, hpoll] at hb
      cases hb
  | stray =>
    rw [ending_of_stray hb] at h
    cases h

end Attempt

/-- A depth inside the memory is an address between its base and its top. -/
theorem Thread.address_mem {t : Thread} {depth : Int} (h : 0 ≤ depth ∧ depth ≤ t.stack.size) :
    t.stack.base ≤ t.address depth ∧ t.address depth ≤ t.stack.top := by
  simp only [Thread.address, Stack.top]
  omega

/-- An entry inside the memory lies between its base and its top. -/
theorem Thread.address_entry {t : Thread} {depth : Int} (h : t.stack.inside depth = true) :
    t.stack.base ≤ t.address depth ∧ t.address depth + 4 ≤ t.stack.top := by
  simp only [Stack.inside, Bool.and_eq_true, decide_eq_true_eq] at h
  simp only [Thread.address, Stack.top]
  omega

namespace Engine

variable {c : Config} {e : Engine} {m : Matcher} {subject : Subject} {start : Nat}
  {origin : CallOrigin} {output : Array Int32}

/-- Wherever an attempt with the discipline gets, its thread is tidy and settled. -/
theorem tidy_of_nextAttempt (hs : e.Sane c)
    (ho : (e.nextAttempt m subject start origin output).Orderly) {t : Thread} {unchecked : Nat}
    (hp : (e.nextAttempt m subject start origin output).Passes t unchecked) :
    t.Tidy c.largestSize unchecked ∧
      (e.nextAttempt m subject start origin output).task.Settled t := by
  obtain ⟨t₀, hb, hp⟩ := hp
  obtain ⟨t₁, hpoll⟩ := Attempt.exists_poll_of_begin hb
  rcases (opens_of_poll hpoll).begin_cases hs with hstray | ⟨t₂, hb', htidy, hset, -⟩
  · rw [hb] at hstray
    cases hstray
  · rw [hb] at hb'
    obtain rfl := Outcome.next.inj hb'
    exact Task.tidy_of_passes htidy hset
      (fun u n hu => ho u n ((passes_iff_of_begin hb).mpr hu)) hp

/-- **An attempt of a sane engine stays inside the stack**, if the discipline is kept. It starts
tidy, so this is the invariant of the run put together with what it says of one step. -/
theorem staysInside_nextAttempt (hs : e.Sane c)
    (ho : (e.nextAttempt m subject start origin output).Orderly) :
    (e.nextAttempt m subject start origin output).StaysInside := by
  have hempty : ∀ t : Thread, t.depth = 0 →
      t.stack.base ≤ t.address t.depth ∧ t.address t.depth ≤ t.stack.top :=
    fun t ht => Thread.address_mem (by omega)
  refine ⟨hempty _ rfl, ?_, ?_, ?_, ?_⟩
  · intro t unchecked hp depth hd
    obtain ⟨htidy, -⟩ := tidy_of_nextAttempt hs ho hp
    exact Thread.address_mem (Task.depth_le_size_of_mem_pointers htidy (ho t unchecked hp) hd)
  · intro t unchecked hp depth hd
    obtain ⟨htidy, -⟩ := tidy_of_nextAttempt hs ho hp
    exact Thread.address_entry (Task.inside_of_mem_accesses htidy (ho t unchecked hp) hd)
  · intro t unchecked t' hp hpush hstep
    obtain ⟨htidy, hset⟩ := tidy_of_nextAttempt hs ho hp
    have hroom := Task.room_of_pushesChecked htidy hset hpush hstep
    simp only [Thread.address, Stack.top]
    omega
  · intro s t hend
    rcases Attempt.ending_cases hend with ⟨hdepth, -⟩ | ⟨u, unchecked, hp, hstep⟩
    · exact hempty t hdepth
    · obtain ⟨htidy, hset⟩ := tidy_of_nextAttempt hs ho hp
      exact Thread.address_mem (Task.depth_le_size_of_done htidy hset (ho u unchecked hp) hstep)

/-- **The backtrack stack is never left.** Take a match that pops only live entries, sets the
pointer back only to discard entries, and pushes no more than 32 entries between two limit
checks without one. In each of its attempts the pointer is always between the base and the top
of the memory, everything read or written is an entry of that memory, also by the checked push
after 32 unchecked ones, and each limit check that does not end the run leaves room for 33
entries. -/
theorem stack_inside (he : e.Reachable c) :
    ∀ h m subject start output, e.check h subject start output.size = .ok m →
      (∀ a ∈ e.tries h m subject start output, a.Orderly) →
      ∀ a ∈ e.tries h m subject start output, a.StaysInside := by
  intro h m subject start output _ ho a ha
  have hord := ho a ha
  obtain ⟨e', origin, output', hk, rfl⟩ := exists_kept_of_mem_history ha
  exact staysInside_nextAttempt (he.sane.of_kept hk) hord

/-- The program that finds a letter, on two letters and a stack as it comes. -/
theorem stack_inside_finder :
    ∃ (e : Engine) (m : Matcher), e.Reachable {} ∧
      e.check ⟨0⟩ (.latin1 #[98, 97]) 0 2 = .ok m ∧
      (∀ a ∈ e.tries ⟨0⟩ m (.latin1 #[98, 97]) 0 #[7, 7], a.Orderly) ∧
      ∀ a ∈ e.tries ⟨0⟩ m (.latin1 #[98, 97]) 0 #[7, 7], a.StaysInside := by
  have hw : Config.Words {} := by constructor <;> decide
  obtain ⟨e, m, he, -, -, -, hm, hget, hgranted⟩ :=
    Sample.exists_engine 16 hw (by decide) rfl
  have hcheck : e.check ⟨0⟩ (.latin1 #[98, 97]) 0 (#[7, 7] : Array Int32).size = .ok m :=
    Sample.check_finder he hm hget hgranted _
  have hord : ∀ a ∈ e.tries ⟨0⟩ m (.latin1 #[98, 97]) 0 #[7, 7], a.Orderly :=
    Sample.orderly_tries hm
  exact ⟨e, m, he, hcheck, hord, stack_inside he _ _ _ _ _ hcheck hord⟩

end Engine

end NativeMatcher
