import NativeMatcher.Proofs.Run

/-!
# Polls

At a poll the host may look at its pending interrupts. This file says what that does to a
run. A thread is *settled* (`NativeMatcher.Task.Settled`) once nothing is left that a poll
would do differently the second time: either no poll fires, or every poll fires, finds
nothing to take, and moves the code only under stress. From then on the host's part of the
thread is a matter of counting the polls passed
(`NativeMatcher.Task.steps_of_settled`), and no run asks to be repeated.

Both attempts that run a program start settled: the direct one if nothing is raised, the
other one after its first poll has taken a pending relocation.
-/

namespace NativeMatcher

/-! ### What the opcodes leave to the host -/

/-- The host's part of a thread is the same. -/
structure Thread.SameHost (t u : Thread) : Prop where
  /-- The interrupt limit. -/
  limit : u.limit = t.limit
  /-- The pending interrupts. -/
  guard : u.guard = t.guard
  /-- The polls that fired. -/
  polls : u.polls = t.polls
  /-- How often the code moved. -/
  relocations : u.relocations = t.relocations

theorem Thread.SameHost.refl (t : Thread) : t.SameHost t := ⟨rfl, rfl, rfl, rfl⟩

theorem Thread.SameHost.trans {t u v : Thread} (h : t.SameHost u) (h' : u.SameHost v) :
    t.SameHost v :=
  ⟨h'.limit.trans h.limit, h'.guard.trans h.guard, h'.polls.trans h.polls,
    h'.relocations.trans h.relocations⟩

/-- An outcome that leaves the host's part alone and does not ask to be repeated. -/
def Outcome.LeavesHost (o : Outcome) (t : Thread) : Prop :=
  o.Satisfies t.SameHost fun s u => s ≠ .retry ∧ t.SameHost u

theorem Outcome.LeavesHost.andThen {o : Outcome} {f : Thread → Outcome} {t : Thread}
    (h : o.LeavesHost t) (hf : ∀ u, t.SameHost u → (f u).LeavesHost u) :
    (o.andThen f).LeavesHost t := by
  refine Satisfies.andThen h fun u hu => ?_
  refine (hf u hu).imp (fun v hv => hu.trans hv) fun s v hv => ?_
  exact ⟨hv.1, hu.trans hv.2⟩

theorem Outcome.LeavesHost.of_sameHost {o : Outcome} {t u : Thread} (h : o.LeavesHost u)
    (htu : t.SameHost u) : o.LeavesHost t :=
  h.imp (fun _ hv => htu.trans hv) fun _ _ hv => ⟨hv.1, htu.trans hv.2⟩

theorem Status.ofCount_ne_retry (n : Nat) : Status.ofCount n ≠ .retry := by
  unfold Status.ofCount
  split <;> exact fun h => by cases h

/-- A push leaves what belongs to the host alone, but for the memory of the stack. -/
theorem Thread.leavesHost_push (t : Thread) (e : UInt32) (checked : Bool) :
    (t.push e checked).LeavesHost t := by
  unfold Thread.push
  simp only
  split
  · trivial
  · split
    · split
      · exact ⟨rfl, rfl, rfl, rfl⟩
      · exact ⟨by decide, rfl, rfl, rfl, rfl⟩
    · exact ⟨rfl, rfl, rfl, rfl⟩

namespace Task

variable {k : Task}

theorem leavesHost_exit (t : Thread) : (k.exit t).LeavesHost t := by
  unfold exit
  split
  · exact ⟨Status.ofCount_ne_retry _, .refl t⟩
  · exact ⟨by decide, .refl t⟩

/-- Counting a backtrack does not reach the host. -/
theorem leavesHost_countBacktrack (t : Thread) : (k.countBacktrack t).LeavesHost t := by
  unfold countBacktrack
  split
  · exact .refl t
  · simp only
    split
    · exact ⟨rfl, rfl, rfl, rfl⟩
    · split
      · exact ⟨by decide, rfl, rfl, rfl, rfl⟩
      · exact (leavesHost_exit _).of_sameHost ⟨rfl, rfl, rfl, rfl⟩

/-- Neither does resuming. -/
theorem leavesHost_resume (t : Thread) : (k.resume t).LeavesHost t := by
  unfold resume
  split
  · exact leavesHost_exit t
  · split
    · trivial
    · split
      · trivial
      · exact ⟨rfl, rfl, rfl, rfl⟩

theorem leavesHost_restart (t : Thread) : (k.restart t).LeavesHost t := by
  rcases k.restart_cases t with h | ⟨c, h⟩
  · rw [h]
    trivial
  · rw [h]
    exact ⟨rfl, rfl, rfl, rfl⟩

/-- Nor does starting over. -/
theorem leavesHost_startOver (start : Int64) (t : Thread) :
    (k.startOver start t).LeavesHost t := by
  unfold startOver
  split
  · split
    · exact leavesHost_exit t
    · split
      · trivial
      · exact (leavesHost_restart _).of_sameHost ⟨rfl, rfl, rfl, rfl⟩
  · exact leavesHost_restart t

/-- Nor does reporting a match, whose status is a number that the host sees only when the matcher
returns. -/
theorem leavesHost_succeed (t : Thread) : (k.succeed t).LeavesHost t := by
  unfold succeed
  simp only
  split
  · split
    · exact (leavesHost_exit _).of_sameHost ⟨rfl, rfl, rfl, rfl⟩
    · exact (leavesHost_startOver _ _).of_sameHost ⟨rfl, rfl, rfl, rfl⟩
  · refine ⟨?_, rfl, rfl, rfl, rfl⟩
    intro h
    cases h

end Task

/-! ### Counting polls -/

/-- Whether a move passes a poll: it backtracks or jumps back. -/
def Move.polls : Move → Bool
  | .poll _ | .backtrack _ => true
  | _ => false

/-- How many of the first `n` steps pass a poll. -/
def Task.pollCount (k : Task) : (n : Nat) → Thread → Nat
  | 0, _ => 0
  | n + 1, t =>
    (k.move t).polls.toNat +
      match k.step t with
      | .next u => pollCount k n u
      | _ => 0

namespace Thread

/-- The thread after `n` more polls of a guard that stays as it is: each fires if the limit is
raised, and each moves the code under stress. -/
def afterPolls (t : Thread) (n : Nat) : Thread :=
  { t with
    polls := t.polls + n * t.guard.isRaised.toNat
    relocations := t.relocations + n * t.guard.stress.toNat }

@[simp] theorem afterPolls_zero (t : Thread) : t.afterPolls 0 = t := by
  simp [afterPolls]

/-- With nothing raised no poll fires. -/
theorem afterPolls_of_quiet {t : Thread} (h : t.guard.isRaised = false) (n : Nat) :
    t.afterPolls n = t := by
  have hstress : t.guard.stress = false := by
    simp only [Guard.isRaised, Bool.or_eq_false_iff] at h
    exact h.1
  simp only [afterPolls, h, hstress, Bool.toNat_false, Nat.mul_zero, Nat.add_zero]

theorem afterPolls_add (t : Thread) (m n : Nat) :
    (t.afterPolls m).afterPolls n = t.afterPolls (m + n) := by
  simp only [afterPolls, Nat.add_mul, Nat.add_assoc]

theorem SameHost.afterPolls {t u : Thread} (h : t.SameHost u) (n : Nat) :
    (t.afterPolls n).SameHost (u.afterPolls n) := by
  refine ⟨h.limit, h.guard, ?_, ?_⟩
  · simp only [Thread.afterPolls, h.polls, h.guard]
  · simp only [Thread.afterPolls, h.relocations, h.guard]

end Thread

/-! ### Interrupts that stay pending -/

namespace Guard

/-- Clearing interrupts that are not pending changes nothing. -/
theorem take_of_not_intersects {g : Guard} {flags : UInt32} (h : g.intersects flags = false) :
    g.take flags = (false, g) := by
  have hand : g.pending &&& flags = 0 := by simpa [intersects] using h
  have hbits : g.pending &&& ~~~flags = g.pending := by
    apply UInt32.eq_of_toBitVec_eq
    have hand' := congrArg UInt32.toBitVec hand
    ext i hi
    have hbit := congrArg (fun b : BitVec 32 => b[i]) hand'
    simp at hbit ⊢
    grind
  simp only [take, h, hbits]

/-- Clearing interrupts leaves none of them pending. -/
theorem intersects_take (g : Guard) (flags : UInt32) :
    (g.take flags).2.intersects flags = false := by
  have hzero : g.pending &&& ~~~flags &&& flags = 0 := by
    apply UInt32.eq_of_toBitVec_eq
    ext i hi
    simp
  simp [take, intersects, hzero]

/-- What was not pending is not pending after others are cleared. -/
theorem not_intersects_take {g : Guard} {flags others : UInt32} (h : g.intersects flags = false) :
    (g.take others).2.intersects flags = false := by
  have hno : g.pending &&& flags = 0 := by simpa [intersects] using h
  have hstill : g.pending &&& ~~~others &&& flags = 0 := by
    rw [UInt32.and_assoc, UInt32.and_comm (~~~others), ← UInt32.and_assoc, hno, UInt32.zero_and]
  simp [take, intersects, hstill]

/-- A raised limit is above every stack pointer. -/
theorem not_interruptLimit_lt {g : Guard} (h : g.isRaised = true) (sp : UInt64) :
    ¬g.interruptLimit < sp := by
  have := sp.toNat_lt
  rw [interruptLimit, if_pos h, UInt64.lt_iff_toNat_lt]
  simp
  omega

end Guard

namespace Task

variable {k : Task}

/-- Nothing is left that a poll would do differently the second time: the limit is the one the
guard asks for, the matcher's frame lies above the native limit, and what still raises the limit
is neither a termination nor a relocation, nor is it met by a direct caller; then the call of the
host lies above the native limit too. -/
structure Settled (k : Task) (t : Thread) : Prop where
  /-- The limit is up to date. -/
  limit : t.limit = t.guard.interruptLimit
  /-- The frame lies above the native limit. -/
  room : t.guard.nativeLimit < k.sp
  /-- What is raised stays raised. -/
  calm : t.guard.isRaised = true → k.origin = .runtime ∧
    t.guard.intersects Interrupt.terminate = false ∧
    t.guard.intersects Interrupt.relocate = false ∧ t.guard.nativeLimit < returnSlot k.sp

/-- Whether polls get in the way depends on the host's side of a thread only. -/
theorem Settled.of_sameHost {t u : Thread} (h : k.Settled t) (htu : t.SameHost u) :
    k.Settled u := by
  refine ⟨?_, ?_, ?_⟩
  · rw [htu.limit, htu.guard]
    exact h.limit
  · rw [htu.guard]
    exact h.room
  · rw [htu.guard]
    exact h.calm

theorem Settled.afterPolls {t : Thread} (h : k.Settled t) (n : Nat) :
    k.Settled (t.afterPolls n) := ⟨h.limit, h.room, h.calm⟩

/-- A poll that lets a thread go on changes the host's part only. -/
theorem eq_of_poll {t u : Thread} (h : k.poll t = .next u) :
    u = { t with
      limit := u.limit, guard := u.guard, polls := u.polls, relocations := u.relocations } := by
  unfold poll at h
  split at h
  · obtain rfl := Outcome.next.inj h
    rfl
  · simp only at h
    split at h
    · cases h
    · obtain rfl := Outcome.next.inj h
      rfl
    · obtain rfl := Outcome.next.inj h
      rfl

/-- A poll leaves the cursor alone. -/
theorem cursor_of_poll {t u : Thread} (h : k.poll t = .next u) : u.cursor = t.cursor := by
  rw [eq_of_poll h]
  rfl

/-- A backtrack that goes on pops an entry, and changes nothing else but what is counted and what
is pending. -/
theorem backtrack_eq_next {t u : Thread} (h : k.backtrack t = .next u) :
    0 < t.depth ∧ u = { t with
      pc := u.pc, depth := t.depth - 4, backtracks := u.backtracks, limit := u.limit,
      guard := u.guard, polls := u.polls, relocations := u.relocations } := by
  obtain ⟨v, hv, hresume⟩ := Outcome.andThen_eq_next.mp h
  obtain ⟨w, hw, hcount⟩ := Outcome.andThen_eq_next.mp hv
  have hsame : v = { t with
      backtracks := v.backtracks, limit := v.limit, guard := v.guard, polls := v.polls,
      relocations := v.relocations } := by
    rw [eq_of_countBacktrack hcount, eq_of_poll hw]
  unfold resume at hresume
  split at hresume
  · exact absurd hresume (exit_ne_next _ _)
  · next hempty =>
    split at hresume
    · cases hresume
    · split at hresume
      · cases hresume
      · obtain rfl := Outcome.next.inj hresume
        have hpos := Thread.pos_of_not_isEmptyAt hempty
        rw [hsame] at hpos ⊢
        exact ⟨hpos, rfl⟩

/-- **A poll of a settled thread only counts.** So after the first poll of an attempt that goes on,
polls can be left out of the account: they change nothing that a program can see. -/
theorem poll_of_settled {t : Thread} (h : k.Settled t) : k.poll t = .next (t.afterPolls 1) := by
  cases hraised : t.guard.isRaised with
  | false =>
    have hstress : t.guard.stress = false := by
      cases hs : t.guard.stress with
      | false => rfl
      | true => simp [Guard.isRaised, hs] at hraised
    have hlimit : t.limit < k.sp := by
      rw [h.limit, Guard.interruptLimit, hraised]
      exact h.room
    simp [poll, hlimit, Thread.afterPolls, hraised, hstress]
  | true =>
    obtain ⟨horigin, hterm, hreloc, hslot⟩ := h.calm hraised
    have hroom : ¬returnSlot k.sp ≤ t.guard.nativeLimit := UInt64.not_le.mpr hslot
    -- No stack pointer is above the highest address, so the poll fires.
    have hlimit : ¬t.limit < k.sp := by
      rw [h.limit]
      exact Guard.not_interruptLimit_lt hraised k.sp
    simp only [poll, if_neg hlimit, Guard.answer, if_neg hroom, horigin, hterm,
      Guard.take_of_not_intersects hreloc, Bool.false_eq_true, if_false, Bool.false_or,
      ← h.limit, Thread.afterPolls, hraised]
    cases t.guard.stress <;> rfl

/-- **A poll that lets a thread go on leaves it settled**, if the limit was the one the guard
asks for. -/
theorem settled_of_poll {t u : Thread} (hlimit : t.limit = t.guard.interruptLimit)
    (h : k.poll t = .next u) : k.Settled u := by
  unfold poll at h
  split at h
  · next hlt =>
    obtain rfl := Outcome.next.inj h
    have hquiet : t.guard.isRaised = false := by
      rw [Bool.eq_false_iff]
      intro hraised
      rw [hlimit] at hlt
      exact Guard.not_interruptLimit_lt hraised k.sp hlt
    refine ⟨hlimit, ?_, fun hraised => ?_⟩
    · rwa [hlimit, Guard.interruptLimit, hquiet] at hlt
    · rw [hquiet] at hraised
      cases hraised
  · next hfires =>
    simp only [Guard.answer] at h
    by_cases hslot : returnSlot k.sp ≤ t.guard.nativeLimit
    · rw [if_pos hslot] at h
      cases h
    · rw [if_neg hslot] at h
      have hslot := UInt64.not_le.mp hslot
      have hroom := UInt64.lt_of_lt_of_le hslot (returnSlot_le k.sp)
      cases horigin : k.origin with
      | direct =>
        -- A direct caller is let go on only if nothing is raised, and then no poll fires.
        simp only [horigin] at h
        cases hraised : t.guard.isRaised with
        | true =>
          simp only [hraised, if_true] at h
          cases h
        | false =>
          rw [hlimit, Guard.interruptLimit, hraised] at hfires
          exact absurd hroom hfires
      | runtime =>
        simp only [horigin] at h
        cases hterm : t.guard.intersects Interrupt.terminate with
        | true =>
          simp only [hterm, if_true] at h
          cases h
        | false =>
          simp only [hterm, Bool.false_eq_true, if_false] at h
          obtain rfl := Outcome.next.inj h
          exact ⟨rfl, hroom, fun _ => ⟨horigin, Guard.not_intersects_take hterm,
            Guard.intersects_take _ _, hslot⟩⟩

/-- What a move of a settled thread leaves of the host's part. A backtrack and a jump back poll
once, and no other move polls. -/
theorem act_of_settled {t : Thread} (h : k.Settled t) (m : Move) :
    (k.act m t).LeavesHost (t.afterPolls m.polls.toNat) := by
  cases m with
  | go c =>
    simp only [Move.polls, Bool.toNat_false, Thread.afterPolls_zero]
    exact ⟨rfl, rfl, rfl, rfl⟩
  | poll pc =>
    simp only [act, poll_of_settled h]
    exact ⟨rfl, rfl, rfl, rfl⟩
  | backtrack depth =>
    have hd : k.Settled { t with depth := depth } := ⟨h.limit, h.room, h.calm⟩
    have hhost : (t.afterPolls 1).SameHost (({ t with depth := depth } : Thread).afterPolls 1) :=
      ⟨rfl, rfl, rfl, rfl⟩
    simp only [act, backtrack, poll_of_settled hd]
    refine Outcome.LeavesHost.andThen ?_ fun u _ => leavesHost_resume u
    exact (leavesHost_countBacktrack _).of_sameHost hhost
  | push e checked =>
    simp only [Move.polls, Bool.toNat_false, Thread.afterPolls_zero]
    exact t.leavesHost_push e checked
  | exit =>
    simp only [Move.polls, Bool.toNat_false, Thread.afterPolls_zero]
    exact leavesHost_exit t
  | succeed =>
    simp only [Move.polls, Bool.toNat_false, Thread.afterPolls_zero]
    exact leavesHost_succeed t
  | stray => trivial

/-- A settled thread stays settled. -/
theorem Settled.step {t u : Thread} (h : k.Settled t) (hs : k.step t = .next u) : k.Settled u := by
  have hhost := act_of_settled h (k.move t)
  rw [← step_eq_act, hs] at hhost
  exact (h.afterPolls _).of_sameHost hhost

/-- **The host's part of a settled run is a count of its polls**, and the run does not ask to
be repeated. -/
theorem steps_of_settled {t : Thread} (h : k.Settled t) (n : Nat) :
    (k.steps n t).LeavesHost (t.afterPolls (k.pollCount n t)) := by
  induction n generalizing t with
  | zero =>
    simp only [pollCount, Thread.afterPolls_zero]
    exact .refl t
  | succ n ih =>
    have hstep := act_of_settled h (k.move t)
    rw [← step_eq_act] at hstep
    rw [steps, pollCount]
    cases hs : k.step t with
    | next u =>
      rw [hs] at hstep
      have hu : k.Settled u := (h.afterPolls _).of_sameHost hstep
      have hrest := ih hu
      rw [← Thread.afterPolls_add]
      exact hrest.of_sameHost (Thread.SameHost.afterPolls hstep _)
    | done s u =>
      rw [hs] at hstep
      exact hstep
    | stray => trivial

/-- With nothing raised the host's part stays as it is. -/
theorem Settled.sameHost_of_steps {t u : Thread} {n : Nat} (h : k.Settled t)
    (hquiet : t.guard.isRaised = false) (hn : k.steps n t = .next u) : t.SameHost u := by
  have hhost := steps_of_settled h n
  rw [hn, Thread.afterPolls_of_quiet hquiet] at hhost
  exact hhost

end Task

end NativeMatcher
