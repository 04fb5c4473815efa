import NativeMatcher.Text.CaseTable

/-!
# Comparing text ignoring case

Two characters are equal ignoring case when they have the same *canonical form*. In
unicode mode that is the lower case of the upper case; otherwise it is the upper case,
except that no character outside ASCII is taken into it. A case mapping to several
characters counts as none.

The definitions take the case mapping as an argument (`NativeMatcher.Text.CaseMap`);
`NativeMatcher.Text.CaseMap.standard` is the one of the tables.

In unicode mode 16-bit text is compared by code points, so a surrogate pair is one
character (`NativeMatcher.Text.codePoints`).
-/

namespace NativeMatcher.Text

/-- A case mapping; `none` stands for an image of several characters. -/
structure CaseMap where
  /-- The upper case. -/
  upper : UInt32 → Option UInt32
  /-- The lower case. -/
  lower : UInt32 → Option UInt32

/-- The case mapping of the tables. -/
def CaseMap.standard : CaseMap where
  upper c :=
    if inSortedRanges upperExpansions c.toNat then none
    else some (UInt32.ofNat (CaseRun.apply upperRuns c.toNat))
  lower c :=
    if inSortedRanges lowerExpansions c.toNat then none
    else some (UInt32.ofNat (CaseRun.apply lowerRuns c.toNat))

/-- Whether a word is a Unicode scalar value: a code point that is no surrogate. -/
def isScalar (c : UInt32) : Bool := c < 0xD800 || (0xE000 ≤ c && c ≤ 0x10FFFF)

/-- The canonical form of a character. Words that are no scalar values are their own. -/
def canonicalize (m : CaseMap) (unicode : Bool) (c : UInt32) : UInt32 :=
  if !isScalar c then c
  else if unicode then
    let u := (m.upper c).getD c
    (m.lower u).getD u
  else
    match m.upper c with
    | some u => if 128 ≤ c && u < 128 then c else u
    | none => c

/-! ### Code points of 16-bit text -/

/-- The first half of a surrogate pair. -/
def isLead (u : UInt16) : Bool := 0xD800 ≤ u && u < 0xDC00

/-- The second half of a surrogate pair. -/
def isTrail (u : UInt16) : Bool := 0xDC00 ≤ u && u < 0xE000

/-- The code point of a surrogate pair. -/
def pairValue (lead trail : UInt16) : UInt32 :=
  0x10000 + (lead.toUInt32 - 0xD800) * 0x400 + (trail.toUInt32 - 0xDC00)

/-- The code points of 16-bit text; a half of a pair on its own stands for itself. -/
def codePoints : List UInt16 → List UInt32
  | [] => []
  | [u] => [u.toUInt32]
  | u :: t :: rest =>
    if isLead u && isTrail t then pairValue u t :: codePoints rest
    else u.toUInt32 :: codePoints (t :: rest)

/-! ### Comparison -/

/-- Whether two lists of characters have the same canonical forms. -/
def equalFolded (m : CaseMap) (unicode : Bool) (a b : List UInt32) : Bool :=
  a.map (canonicalize m unicode) == b.map (canonicalize m unicode)

/-- Whether two Latin-1 texts are equal ignoring case. -/
def equalIgnoreCaseLatin1 (m : CaseMap) (unicode : Bool) (a b : List UInt8) : Bool :=
  a.length == b.length
    && equalFolded m unicode (a.map UInt8.toUInt32) (b.map UInt8.toUInt32)

/-- Whether two 16-bit texts are equal ignoring case: by code points in unicode mode, by
units otherwise. -/
def equalIgnoreCaseUc16 (m : CaseMap) (unicode : Bool) (a b : List UInt16) : Bool :=
  a.length == b.length
    && (if unicode then equalFolded m true (codePoints a) (codePoints b)
      else equalFolded m false (a.map UInt16.toUInt32) (b.map UInt16.toUInt32))

end NativeMatcher.Text
