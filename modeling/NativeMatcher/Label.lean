import NativeMatcher.Fault

/-!
# Labels and the fields that name them

A label stands for a code offset that may not be known yet. A *field* is one of
the 32-bit words of the code that depend on a label's offset, in one of two ways:
the displacement of a branch, counted from the end of the field, or the offset
itself, which is what a pushed resumption point holds.
-/

namespace NativeMatcher

/-- A branch target, by its index in the label table. -/
structure Label where
  /-- The index of the label. -/
  index : Nat
  deriving DecidableEq, Repr

namespace Label

/-- How a field depends on the offset of its label. -/
inductive FieldKind where
  /-- The signed distance from the end of the field. -/
  | rel32
  /-- The offset of the label itself. -/
  | codeOffset32
  deriving DecidableEq, Repr

/-- A field that waits for its label to be bound. -/
structure Use where
  /-- The code offset of the field. -/
  offset : Nat
  /-- How the field depends on the label. -/
  kind : FieldKind
  deriving DecidableEq, Repr

/-- A 64-bit size read as a signed word. -/
def signed64 (n : Nat) : Int := (n : Int).bmod 18446744073709551616

/-- `x` as a signed 64-bit word, or an overflow of `op`. -/
def word64 (op : WordOp) (x : Int) : Except Fault Int :=
  if -9223372036854775808 ≤ x ∧ x ≤ 9223372036854775807 then .ok x else .error (.overflow op)

/-- The distance from `next` to `target`, both code offsets. -/
def distance (next : Int) (target : Nat) : Except Fault Int :=
  word64 .sub (signed64 target - next)

/-- What the field at `offset` holds once its label is bound at `target`. -/
def FieldKind.resolve (kind : FieldKind) (offset target : Nat) : Except Fault UInt32 :=
  match kind with
  | .rel32 => do
    let next ← word64 .add (signed64 offset + 4)
    let d ← distance next target
    if -2147483648 ≤ d ∧ d ≤ 2147483647 then .ok (UInt32.ofInt d) else .error .displacementRange
  | .codeOffset32 =>
    if target ≤ 0xFFFFFFFF then .ok (UInt32.ofNat target) else .error .codeOffsetRange

end Label

end NativeMatcher
