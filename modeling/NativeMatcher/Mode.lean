/-!
# Subject encodings and compile options

A matcher is compiled for one encoding of its subject, its *mode*, and for one
way of going on after a match, its *global mode*. Together with a bound on the
number of backtracks they are the *options* of a compilation.
-/

namespace NativeMatcher

/-- The encoding of the subjects a compiled matcher reads. -/
inductive Mode where
  /-- One byte per character. -/
  | latin1
  /-- Two bytes per character, the UTF-16 code units. -/
  | uc16
  deriving DecidableEq, Repr

namespace Mode

/-- Bytes per character. -/
def charSize : Mode → Nat
  | latin1 => 1
  | uc16 => 2

/-- The largest character of the encoding. -/
def maxChar : Mode → UInt32
  | latin1 => 0xFF
  | uc16 => 0xFFFF

/-- The mode's name in messages. -/
def name : Mode → String
  | latin1 => "Latin1"
  | uc16 => "Uc16"

theorem charSize_pos (m : Mode) : 0 < m.charSize := by
  cases m <;> decide

end Mode

/-- What a matcher does once it has found a match. -/
inductive GlobalMode where
  /-- Stop at the first match. -/
  | notGlobal
  /-- Restart after each match; an empty match advances by one character. -/
  | global
  /-- Restart after each match; the program promises never to match the empty string. -/
  | noZeroLengthCheck
  /-- As `global`, but an empty match never ends up inside a surrogate pair. -/
  | unicode
  deriving DecidableEq, Repr

namespace GlobalMode

/-- Whether the matcher restarts after a match. -/
def isGlobal : GlobalMode → Bool
  | notGlobal => false
  | _ => true

/-- Whether an empty match has to be stepped over. -/
def checksZeroLength : GlobalMode → Bool
  | global | unicode => true
  | _ => false

/-- The global mode's name in messages. -/
def name : GlobalMode → String
  | notGlobal => "NotGlobal"
  | global => "Global"
  | noZeroLengthCheck => "GlobalNoZeroLengthCheck"
  | unicode => "GlobalUnicode"

end GlobalMode

/-- What shapes one compilation, apart from the program. -/
structure Options where
  /-- The encoding of the subjects. -/
  mode : Mode
  /-- What happens after a match. -/
  globalMode : GlobalMode := .notGlobal
  /-- How many backtracks are allowed, if they are counted at all. -/
  backtrackLimit : Option UInt32 := none
  /-- Whether the limit reports a fallback instead of a failure. -/
  canFallback : Bool := false
  deriving DecidableEq, Repr

namespace Options

/-- The same options with the given global mode. -/
def withGlobalMode (o : Options) (g : GlobalMode) : Options :=
  { o with globalMode := g }

/-- The same options with a bound on the number of backtracks. -/
def withBacktrackLimit (o : Options) (limit : UInt32) (canFallback : Bool) : Options :=
  { o with backtrackLimit := some limit, canFallback := canFallback }

/-- The options as one line of text. -/
def describe (o : Options) : String :=
  let limit := match o.backtrackLimit with
    | none => "None"
    | some n => "Some(" ++ toString n.toNat ++ ")"
  "CompileOptions \x7b mode: " ++ o.mode.name ++ ", global_mode: " ++ o.globalMode.name
    ++ ", backtrack_limit: " ++ limit ++ ", can_fallback: "
    ++ (if o.canFallback then "true" else "false") ++ " \x7d"

end Options

end NativeMatcher
