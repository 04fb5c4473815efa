import NativeMatcher.Fault

/-!
# Memory

No answer shows an address. Where data lies matters in two ways only:

* a block has at most `NativeMatcher.Memory.maxBlock` bytes, and asking for more is a
  fault (`NativeMatcher.Memory.request`);
* generated code compares addresses, and an offset that reaches below address zero comes
  out at the far end of the address space. So all that has to be known of
  `NativeMatcher.Memory.heap` is that it is far from zero, and farther still from the
  middle of the address space.
-/

namespace NativeMatcher.Memory

/-- The address of a block on the heap. -/
def heap : Nat := 0x600000000000

/-- The size of the largest block. -/
def maxBlock : Nat := 9223372036854775807

/-- Asks for a block of `bytes`. -/
def request (bytes : Nat) : Except Fault Unit :=
  if maxBlock < bytes then .error .capacityOverflow else .ok ()

/-- The address at an offset from `base`, as a word. -/
def address (base : Nat) (offset : Int64) : UInt64 := UInt64.ofNat base + offset.toUInt64

/-- A block can be had exactly up to the largest size. -/
theorem request_eq_ok_iff {bytes : Nat} : request bytes = .ok () ↔ bytes ≤ maxBlock := by
  unfold request
  split
  · next h => simp; omega
  · next h => simp; omega

end NativeMatcher.Memory
