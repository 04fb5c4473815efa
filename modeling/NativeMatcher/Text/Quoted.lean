import NativeMatcher.Text.CaseTable
import NativeMatcher.Text.Unprintable

/-!
# Quoted text

Text between double quotes. The quote, the backslash and four controls have an escape
of two characters; every other character that has no glyph of its own is spelled by
its number in hexadecimal.
-/

namespace NativeMatcher.Text

/-- The digits of `n` in lower-case hexadecimal. -/
def hexDigits (n : Nat) : String := String.ofList (Nat.toDigits 16 n)

/-- Whether a character has no glyph of its own. -/
def isUnprintable (c : Char) : Bool :=
  c.toNat < 0x20 || c.toNat == 0x7F || (0x80 ≤ c.toNat && inSortedRanges unprintable c.toNat)

/-- One character of quoted text. -/
def quoteChar (c : Char) : String :=
  if c = '"' then "\\\""
  else if c = '\\' then "\\\\"
  else if c = '\n' then "\\n"
  else if c = '\r' then "\\r"
  else if c = '\t' then "\\t"
  else if c.toNat = 0 then "\\0"
  else if isUnprintable c then "\\u\x7b" ++ hexDigits c.toNat ++ "\x7d"
  else c.toString

/-- Text between double quotes. -/
def quote (s : String) : String :=
  "\"" ++ String.join (s.toList.map quoteChar) ++ "\""

end NativeMatcher.Text
