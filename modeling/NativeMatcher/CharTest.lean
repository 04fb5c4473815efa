import NativeMatcher.CharRange
import NativeMatcher.Mode

/-!
# Character classes and character tests

A *character test* is a property of the characters loaded last, a 32-bit word. The
tests are words of the machine, not of an alphabet: a load may bring in up to four
characters at once, differences wrap around, and comparisons are unsigned.
`NativeMatcher.CharTest.holds` says when a test is true; a branching opcode is
taken exactly then.
-/

namespace NativeMatcher

/-- The character classes that a matcher can test in one opcode. -/
inductive CharClass where
  /-- Blanks, line ends and the no-break space. -/
  | whitespace
  /-- Everything but `whitespace`. -/
  | notWhitespace
  /-- ASCII letters, digits and the underscore. -/
  | word
  /-- Everything but `word`. -/
  | notWord
  /-- ASCII digits. -/
  | digit
  /-- Everything but `digit`. -/
  | notDigit
  /-- Line feed, carriage return and the two separators U+2028 and U+2029. -/
  | lineTerminator
  /-- Everything but `lineTerminator`. -/
  | notLineTerminator
  /-- Every character. -/
  | everything
  deriving DecidableEq, Repr

namespace CharClass

/-- The classes in order. -/
def all : List CharClass :=
  [whitespace, notWhitespace, word, notWord, digit, notDigit, lineTerminator, notLineTerminator,
    everything]

/-- The class's name in messages. -/
def name : CharClass → String
  | whitespace => "Whitespace"
  | notWhitespace => "NotWhitespace"
  | word => "Word"
  | notWord => "NotWord"
  | digit => "Digit"
  | notDigit => "NotDigit"
  | lineTerminator => "LineTerminator"
  | notLineTerminator => "NotLineTerminator"
  | everything => "Everything"

/-- Whether the class can be tested in one opcode: whitespace only in Latin-1. -/
def hasFastPath (mode : Mode) : CharClass → Bool
  | whitespace | notWhitespace => mode = .latin1
  | _ => true

/-- Tab to carriage return, the space and the no-break space. -/
def isBlank (c : UInt32) : Bool := (9 ≤ c && c ≤ 13) || c == 0x20 || c == 0xA0

/-- An ASCII digit. -/
def isDigit (c : UInt32) : Bool := 0x30 ≤ c && c ≤ 0x39

/-- An ASCII letter or digit, or the underscore. -/
def isWord (c : UInt32) : Bool :=
  isDigit c || (0x41 ≤ c && c ≤ 0x5A) || (0x61 ≤ c && c ≤ 0x7A) || c == 0x5F

/-- Line feed or carriage return, and outside Latin-1 the two separators. -/
def isLineEnd (mode : Mode) (c : UInt32) : Bool :=
  c == 0x0A || c == 0x0D || (mode = .uc16 && (c == 0x2028 || c == 0x2029))

/-- Whether `c` belongs to the class. -/
def contains (mode : Mode) : CharClass → UInt32 → Bool
  | whitespace, c => isBlank c
  | notWhitespace, c => !isBlank c
  | word, c => isWord c
  | notWord, c => !isWord c
  | digit, c => isDigit c
  | notDigit, c => !isDigit c
  | lineTerminator, c => isLineEnd mode c
  | notLineTerminator, c => !isLineEnd mode c
  | everything, _ => true

end CharClass

/-- How many entries a bit table has. -/
def tableSize : Nat := 128

/-- How many ranges a look-up in a range list may have. -/
def maxRangeArraySize : Nat := 128

/-- A property of the characters loaded last. -/
inductive CharTest where
  /-- The character is `c`. -/
  | equal (c : UInt32)
  /-- The character is not `c`. -/
  | notEqual (c : UInt32)
  /-- The masked character is `c`. -/
  | equalAfterAnd (c mask : UInt32)
  /-- The masked character is not `c`. -/
  | notEqualAfterAnd (c mask : UInt32)
  /-- The character less `minus`, masked, is not `c`. -/
  | notEqualAfterMinusAnd (c minus mask : UInt32)
  /-- The character is above `limit`. -/
  | greater (limit : UInt32)
  /-- The character is below `limit`. -/
  | less (limit : UInt32)
  /-- The character is at most `last - first` above `first`. -/
  | inRange (first last : UInt32)
  /-- The character is more than `last - first` above `first`. -/
  | notInRange (first last : UInt32)
  /-- The character lies in one of the ranges. -/
  | inRanges (ranges : List CharRange)
  /-- The character lies in none of the ranges. -/
  | notInRanges (ranges : List CharRange)
  /-- The table's entry for the low bits of the character is not zero. -/
  | inTable (table : Array UInt8)
  /-- The character is not in the class. -/
  | notInClass (cls : CharClass)
  deriving DecidableEq, Repr

namespace CharTest

/-- Whether the test is true of `c`. -/
def holds (mode : Mode) : CharTest → UInt32 → Bool
  | equal d, c => c == d
  | notEqual d, c => c != d
  | equalAfterAnd d mask, c => c &&& mask == d
  | notEqualAfterAnd d mask, c => c &&& mask != d
  | notEqualAfterMinusAnd d minus mask, c => (c - minus) &&& mask != d
  | greater limit, c => limit < c
  | less limit, c => c < limit
  | inRange first last, c => c - first ≤ last - first
  | notInRange first last, c => last - first < c - first
  | inRanges ranges, c => CharRange.memBoundaries (CharRange.boundaries ranges) c
  | notInRanges ranges, c => !CharRange.memBoundaries (CharRange.boundaries ranges) c
  | inTable table, c => table.getD (c &&& 127).toNat 0 != 0
  | notInClass cls, c => !cls.contains mode c

end CharTest

end NativeMatcher
