import NativeMatcher.Compile
import NativeMatcher.Text.Quoted

/-!
# The store of compiled programs

Every compiled program has a *handle*, its place in the store; a place is never used
again, so a handle stays good until its program is removed and is dead for ever after.

The store also remembers which program was compiled last for a source and options
(`NativeMatcher.Store.index`), so that the same program need not be compiled twice.
-/

namespace NativeMatcher

/-- The place of a compiled program in the store. -/
structure Handle where
  /-- The place. -/
  index : Nat
  deriving DecidableEq, Repr

/-- Compiled programs by handle. -/
structure Store where
  /-- The programs, in the order they were compiled; a removed one leaves its place. -/
  entries : Array (Option Matcher) := #[]
  /-- The handle of the program compiled last for a source and options. -/
  index : List ((String × Options) × Nat) := []
  deriving Repr

/-- The source and the options of a compiled program. -/
def Matcher.key (m : Matcher) : String × Options := (m.object.source, m.options)

/-- The same program with its code in fresh memory. -/
def Matcher.relocated (m : Matcher) : Matcher := { m with object := m.object.relocated }

/-- The code object as one line of text, given the address of its code. -/
def Code.Object.describe (o : Code.Object) (base : String) : String :=
  "NativeCode \x7b base: " ++ base ++ ", len: " ++ toString o.size ++ ", mode: " ++ o.mode.name
    ++ ", global_mode: " ++ o.globalMode.name ++ ", num_registers: " ++ toString o.registers
    ++ ", num_saved_registers: " ++ toString o.saved ++ ", source: " ++ Text.quote o.source
    ++ " \x7d"

namespace Store

/-- The compiled program of a handle, if it is live. -/
def get? (s : Store) (h : Handle) : Option Matcher := (s.entries[h.index]?).join

/-- The place the index has for a key. -/
def indexOf? (s : Store) (key : String × Options) : Option Nat :=
  (s.index.find? fun e => e.1 == key).map fun e => e.2

/-- The index without a key. -/
def eraseKey (s : Store) (key : String × Options) : List ((String × Options) × Nat) :=
  s.index.filter fun e => e.1 != key

/-- Adds a compiled program. -/
def insert (s : Store) (m : Matcher) : Store × Handle :=
  ({ entries := s.entries.push (some m)
     index := (m.key, s.entries.size) :: s.eraseKey m.key },
    ⟨s.entries.size⟩)

/-- The handle of the program compiled last for a source and options, if it is live and was
compiled from the same opcodes. -/
def lookup (s : Store) (source : String) (p : Program) (o : Options) : Option Handle := do
  let i ← s.indexOf? (source, o)
  let m ← s.get? ⟨i⟩
  if m.program = p then some ⟨i⟩ else none

/-- Removes a compiled program; the result is the program, if it was live. -/
def remove (s : Store) (h : Handle) : Store × Option Matcher :=
  match s.get? h with
  | none => (s, none)
  | some m =>
    ({ entries := s.entries.setIfInBounds h.index none
       index := if s.indexOf? m.key = some h.index then s.eraseKey m.key else s.index },
      some m)

/-- Moves the code of a live program. Here a move always succeeds. Where memory for the new code
is refused, a poll goes on in place and counts nothing; that is left out. -/
def relocate (s : Store) (h : Handle) : Store :=
  match s.get? h with
  | none => s
  | some m => { s with entries := s.entries.setIfInBounds h.index (some m.relocated) }

/-- Moves the code of every live program. As with one program no move fails; where one does, the
programs before it have moved and the host reports the failure. -/
def relocateAll (s : Store) : Store :=
  { s with entries := s.entries.map fun e => e.map Matcher.relocated }

/-- The handles of the live programs, in order. -/
def handles (s : Store) : List Handle :=
  ((List.range s.entries.size).map Handle.mk).filter fun h => (s.get? h).isSome

/-- The number of live programs. -/
def size (s : Store) : Nat := s.entries.countP Option.isSome

/-- Whether there are no live programs. -/
def isEmpty (s : Store) : Bool := s.size == 0

/-- Bytes of machine code of the live programs. -/
def codeSize (s : Store) : Nat :=
  s.entries.foldl (fun n e => n + (e.map fun m => m.object.size).getD 0) 0

/-! ### Lemmas -/

/-- An added program is found under its handle. -/
theorem get?_insert_self (s : Store) (m : Matcher) :
    (s.insert m).1.get? (s.insert m).2 = some m := by
  simp [insert, get?]

/-- Adding a program leaves the earlier ones alone. -/
theorem get?_insert_of_lt {s : Store} (m : Matcher) {h : Handle} (hlt : h.index < s.entries.size) :
    (s.insert m).1.get? h = s.get? h := by
  simp only [insert, get?]
  rw [Array.getElem?_push_lt hlt, Array.getElem?_eq_getElem hlt]

/-- A removed program is dead. -/
theorem get?_remove_self (s : Store) (h : Handle) : (s.remove h).1.get? h = none := by
  unfold remove
  cases hs : s.get? h with
  | none => exact hs
  | some m =>
    simp only [get?]
    rw [Array.getElem?_setIfInBounds]
    split
    · split <;> rfl
    · next hne => exact absurd rfl hne

/-- Removing a program leaves the others alone. -/
theorem get?_remove_of_ne {s : Store} {h k : Handle} (hne : k ≠ h) :
    (s.remove h).1.get? k = s.get? k := by
  have hi : h.index ≠ k.index := fun hcon => hne (by cases k; cases h; simp_all)
  unfold remove
  cases hs : s.get? h with
  | none => rfl
  | some m => simp only [get?, Array.getElem?_setIfInBounds_ne hi]

/-- Moving the code of all programs moves that of each. -/
theorem get?_relocateAll (s : Store) (h : Handle) :
    s.relocateAll.get? h = (s.get? h).map Matcher.relocated := by
  simp only [relocateAll, get?, Array.getElem?_map]
  cases s.entries[h.index]? with
  | none => rfl
  | some e => rfl

end Store

end NativeMatcher
