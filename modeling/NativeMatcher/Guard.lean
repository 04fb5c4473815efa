import NativeMatcher.Fault
import NativeMatcher.Status

/-!
# Interrupts and the stack guard

Generated code compares its native stack pointer with the *interrupt limit* at every
poll. The limit is the lowest address the matcher may reach; a pending interrupt
raises it to the highest address, so that the next poll fires and calls the host.

What the host answers depends on who called the matcher
(`NativeMatcher.Guard.answer`). A direct caller cannot service anything in place: the
matcher unwinds and is run again by the runtime. Under the runtime a pending
termination unwinds, and a pending relocation moves the code.

The host looks at the native stack first, and not at the stack pointer of the poll but at
the lowest word the call of the host has pushed (`NativeMatcher.returnSlot`). So a matcher
whose polls would not fire by themselves may yet be refused by a poll that an interrupt made
fire.

Interrupts are bits. Two of them mean something; the others stay pending until they
are taken, and only raise the limit.
-/

namespace NativeMatcher

/-- The bit that asks to move the code. -/
def Interrupt.relocate : UInt32 := 1

/-- The bit that asks to abandon the match. -/
def Interrupt.terminate : UInt32 := 2

/-- Who called the matcher. -/
inductive CallOrigin where
  /-- The runtime, which can service interrupts. -/
  | runtime
  /-- A caller that cannot. -/
  | direct
  deriving DecidableEq, Repr

/-- The pending interrupts and the limit of the native stack. -/
structure Guard where
  /-- The pending interrupts. -/
  pending : UInt32 := 0
  /-- The lowest address of the native stack that the matcher may reach. -/
  nativeLimit : UInt64 := 0
  /-- Whether every poll fires and moves the code. -/
  stress : Bool := false
  deriving DecidableEq, Repr

/-- The host's answer to a firing poll. -/
inductive PollAnswer where
  /-- The matcher unwinds with a status. -/
  | unwind (status : Status)
  /-- The matcher goes on, as it was. -/
  | proceed
  /-- The matcher goes on after the host serviced it; `moved` tells whether the code moved. -/
  | serviced (guard : Guard) (moved : Bool)
  deriving DecidableEq, Repr

/-- Where the return address of the host's call lies when a poll at stack pointer `sp` fires:
below the return address of the stub, and below a word at a multiple of 16 that keeps the
stack pointer. -/
def returnSlot (sp : UInt64) : UInt64 := UInt64.ofNat ((sp.toNat - 16) / 16 * 16 - 8)

namespace Guard

/-- Adds pending interrupts. -/
def request (g : Guard) (flags : UInt32) : Guard := { g with pending := g.pending ||| flags }

/-- Whether one of the interrupts is pending. -/
def intersects (g : Guard) (flags : UInt32) : Bool := g.pending &&& flags != 0

/-- Clears interrupts, and tells whether one of them was pending. -/
def take (g : Guard) (flags : UInt32) : Bool × Guard :=
  (g.intersects flags, { g with pending := g.pending &&& ~~~flags })

/-- Whether an interrupt is pending. -/
def hasPending (g : Guard) : Bool := g.pending != 0

/-- Whether the next poll fires whatever the stack pointer is. -/
def isRaised (g : Guard) : Bool := g.stress || g.hasPending

/-- The same guard with another limit of the native stack. -/
def setNativeLimit (g : Guard) (limit : UInt64) : Guard := { g with nativeLimit := limit }

/-- The address generated code compares its stack pointer with. -/
def interruptLimit (g : Guard) : UInt64 :=
  if g.isRaised then 0xFFFFFFFFFFFFFFFF else g.nativeLimit

/-- The host's answer to a poll that fired, by where the return address of its call lies. -/
def answer (g : Guard) (origin : CallOrigin) (slot : UInt64) : PollAnswer :=
  if slot ≤ g.nativeLimit then .unwind .exception
  else match origin with
    | .direct => if g.isRaised then .unwind .retry else .proceed
    | .runtime =>
      if g.intersects Interrupt.terminate then .unwind .retry
      else
        let (hit, g) := g.take Interrupt.relocate
        .serviced g (hit || g.stress)

/-- Taking interrupts clears exactly them. -/
theorem pending_take (g : Guard) (flags : UInt32) :
    (g.take flags).2.pending = g.pending &&& ~~~flags := rfl

/-- A direct call never goes on past a raised limit. -/
theorem answer_direct_of_isRaised {g : Guard} {slot : UInt64} (h : g.isRaised = true)
    (hslot : ¬slot ≤ g.nativeLimit) : g.answer .direct slot = .unwind .retry := by
  simp [answer, h, hslot]

end Guard

/-- The call of the host lies below the stack pointer of the poll. -/
theorem returnSlot_le (sp : UInt64) : returnSlot sp ≤ sp := by
  have hsp := sp.toNat_lt
  have hword : UInt64.size = 18446744073709551616 := rfl
  rw [UInt64.le_iff_toNat_le, returnSlot, UInt64.toNat_ofNat_of_lt' (by omega)]
  omega

/-- The address in a moved code object that corresponds to `addr` in the old one, if `addr`
points into it. -/
def rebaseAddress (addr oldBase newBase size : Nat) : Except Fault (Option Nat) :=
  if oldBase ≤ addr ∧ addr - oldBase < size then
    some <$> Checked.size .add (newBase + (addr - oldBase))
  else .ok none

end NativeMatcher
