/-!
# Permissions

Two capabilities can be denied: generating machine code and running it. A denial names
source texts or denies the whole scope, and is never taken back.

A *deny list* is text: `*` denies everything, and anything else is a list of sources
separated by commas, with the blanks around each source left out.
-/

namespace NativeMatcher

namespace Permission

/-- A capability that can be denied. -/
inductive Scope where
  /-- Generating machine code for a source. -/
  | codeGeneration
  /-- Running the machine code of a source. -/
  | nativeExecution
  deriving DecidableEq, Repr

/-- The scope's name in messages. -/
def Scope.name : Scope → String
  | codeGeneration => "CodeGeneration"
  | nativeExecution => "NativeExecution"

/-- The characters left out around the sources of a deny list: the white space of Unicode. -/
def isBlank (c : Char) : Bool :=
  let n := c.toNat
  (9 ≤ n && n ≤ 13) || n == 0x20 || n == 0x85 || n == 0xA0 || n == 0x1680
    || (0x2000 ≤ n && n ≤ 0x200A) || n == 0x2028 || n == 0x2029 || n == 0x202F
    || n == 0x205F || n == 0x3000

/-- The pieces of a text between commas. -/
def splitCommas : List Char → List (List Char)
  | [] => [[]]
  | c :: cs =>
    if c = ',' then [] :: splitCommas cs
    else match splitCommas cs with
      | [] => [[c]]
      | p :: ps => (c :: p) :: ps

/-- There is always a piece. -/
theorem splitCommas_ne_nil (cs : List Char) : splitCommas cs ≠ [] := by
  cases cs with
  | nil => simp [splitCommas]
  | cons c cs =>
    unfold splitCommas
    split
    · simp
    · split <;> simp

/-- A text without the blanks at both ends. -/
def trim (cs : List Char) : List Char :=
  ((cs.dropWhile isBlank).reverse.dropWhile isBlank).reverse

/-- The sources a deny list names. -/
def sources (deny : String) : List String :=
  (((splitCommas deny.toList).map trim).filter fun p => !p.isEmpty).map String.ofList

/-- What is denied in one scope. -/
structure Denials where
  /-- Whether everything is denied. -/
  all : Bool := false
  /-- The sources that are denied. -/
  sources : List String := []
  deriving DecidableEq, Repr

namespace Denials

/-- Applies a deny list. -/
def apply (d : Denials) (deny : String) : Denials :=
  if deny = "*" then { d with all := true }
  else { d with sources := d.sources ++ Permission.sources deny }

/-- Denies sources, or everything if there are none. -/
def deny (d : Denials) (params : List String) : Denials :=
  if params.isEmpty then { d with all := true }
  else { d with sources := d.sources ++ params }

/-- Whether a source is not denied. -/
def isGranted (d : Denials) (source : String) : Bool :=
  !d.all && !d.sources.contains source

/-- A source is granted unless everything or the source itself is denied. -/
theorem isGranted_iff {d : Denials} {s : String} :
    d.isGranted s = true ↔ d.all = false ∧ s ∉ d.sources := by
  simp [isGranted]

end Denials

end Permission

open Permission in
/-- What is denied in each scope. -/
structure Permissions where
  /-- Denials of code generation. -/
  codeGeneration : Denials := {}
  /-- Denials of execution. -/
  nativeExecution : Denials := {}
  deriving DecidableEq, Repr

namespace Permissions

open Permission

/-- The denials of a scope. -/
def get (p : Permissions) : Scope → Denials
  | .codeGeneration => p.codeGeneration
  | .nativeExecution => p.nativeExecution

/-- Replaces the denials of a scope. -/
def set (p : Permissions) (s : Scope) (d : Denials) : Permissions :=
  match s with
  | .codeGeneration => { p with codeGeneration := d }
  | .nativeExecution => { p with nativeExecution := d }

/-- Applies a deny list to a scope. -/
def apply (p : Permissions) (s : Scope) (deny : String) : Permissions :=
  p.set s ((p.get s).apply deny)

/-- Denies sources in a scope. -/
def deny (p : Permissions) (s : Scope) (params : List String) : Permissions :=
  p.set s ((p.get s).deny params)

/-- Whether a source is not denied in a scope. -/
def isGranted (p : Permissions) (s : Scope) (source : String) : Bool :=
  (p.get s).isGranted source

@[simp] theorem get_set_self (p : Permissions) (s : Scope) (d : Denials) :
    (p.set s d).get s = d := by
  cases s <;> rfl

theorem get_set_of_ne (p : Permissions) {s t : Scope} (d : Denials) (h : t ≠ s) :
    (p.set s d).get t = p.get t := by
  cases s <;> cases t <;> first | rfl | exact absurd rfl h

end Permissions

end NativeMatcher
