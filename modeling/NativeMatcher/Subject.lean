import NativeMatcher.Mode
import NativeMatcher.Text.CaseFold

/-!
# Subjects

The text a matcher runs on, in one of the two encodings. Generated code reads it byte
by byte from the end, so a subject is also a row of bytes: those of a 16-bit unit come
lowest first, and a read need not start at a unit.

A read that is not at a unit may take in bytes next to the subject. Those are zero, up to
`NativeMatcher.Subject.margin` bytes on either side; what lies farther out is unknown.
-/

namespace NativeMatcher

/-- The text a matcher runs on. -/
inductive Subject where
  /-- One byte per character. -/
  | latin1 (bytes : Array UInt8)
  /-- One 16-bit unit per character. -/
  | uc16 (units : Array UInt16)
  deriving DecidableEq, Repr

namespace Subject

/-- The encoding. -/
def mode : Subject → Mode
  | latin1 _ => .latin1
  | uc16 _ => .uc16

/-- The length in characters. -/
def size : Subject → Nat
  | latin1 bytes => bytes.size
  | uc16 units => units.size

/-- The length in bytes. -/
def byteSize (s : Subject) : Nat := s.size * s.mode.charSize

/-- The byte at an index. -/
def byte? (s : Subject) (i : Nat) : Option UInt8 :=
  match s with
  | latin1 bytes => bytes[i]?
  | uc16 units => units[i / 2]?.map fun (u : UInt16) =>
    if i % 2 = 0 then u.toUInt8 else (u >>> 8).toUInt8

/-- How far past its ends a subject can be read: as far as the widest load reaches. -/
def margin : Nat := 4

/-- The byte at an index counted from the start of the subject, in the margins too. -/
def byteAt? (s : Subject) (i : Int) : Option UInt8 :=
  if 0 ≤ i ∧ i < s.byteSize then s.byte? i.toNat
  else if -margin ≤ i ∧ i < s.byteSize + margin then some 0
  else none

/-- The word of `count` bytes from an index on, lowest byte first. -/
def wordAt? (s : Subject) (i : Int) : (count : Nat) → Option UInt32
  | 0 => some 0
  | n + 1 => do
    let low ← s.byteAt? i
    let high ← s.wordAt? (i + 1) n
    return low.toUInt32 + (high <<< 8)

/-- The word of `count` bytes at a distance from the end of the subject. -/
def wordFromEnd? (s : Subject) (disp : Int) (count : Nat) : Option UInt32 :=
  s.wordAt? (s.byteSize + disp) count

/-- Inside the subject its own bytes are read. -/
theorem byteAt?_of_lt {s : Subject} {i : Nat} (h : i < s.byteSize) :
    s.byteAt? i = s.byte? i := by
  have h' : (0 : Int) ≤ i ∧ (i : Int) < s.byteSize := by omega
  simp [byteAt?, h']

/-- The index of the character after the one at `index`; in unicode mode a surrogate pair is
one character. -/
def step (s : Subject) (index : Nat) (unicode : Bool) : Nat :=
  match s with
  | latin1 _ => index + 1
  | uc16 units =>
    if unicode && (units[index]?.map Text.isLead).getD false
        && (units[index + 1]?.map Text.isTrail).getD false then index + 2
    else index + 1

theorem lt_step (s : Subject) (index : Nat) (unicode : Bool) : index < s.step index unicode := by
  unfold step
  split
  · omega
  · split <;> omega

end Subject

end NativeMatcher
