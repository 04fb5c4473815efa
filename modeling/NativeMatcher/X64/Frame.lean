import NativeMatcher.Frame.Layout
import NativeMatcher.X64.Reg

/-!
# The frame of a compiled matcher

The one layout the code generator uses. Above the frame pointer lie the caller's
frame pointer, the return address and the two arguments passed on the stack;
below it the six arguments passed in registers, the callee-saved registers and
four words of bookkeeping, in the order the entry sequence pushes them.
-/

namespace NativeMatcher.X64

open NativeMatcher.Frame

/-- Bytes per frame word. -/
def wordSize : Int32 := 8

/-- The slots of the arguments passed in registers, in the order of `callArguments`. -/
def parameterSlots : List Slot :=
  [.inputString, .startIndex, .inputStart, .inputEnd, .output, .outputCount]

/-- The slots of the callee-saved registers. -/
def calleeSavedSlots : List Slot := calleeSaved.map fun r => .calleeSaved r.number.toNat

/-- The bookkeeping slots. -/
def localSlots : List Slot := [.successfulCaptures, .beforeStart, .backtrackCount, .stackBase]

/-- The layout of every compiled matcher. -/
def frameLayout : Layout where
  wordSize := wordSize
  above := [.savedFramePointer, .returnAddress, .directCall, .runtimeContext]
  below := parameterSlots ++ calleeSavedSlots ++ localSlots

/-- The register whose incoming value the entry sequence saves in a slot. -/
def savedRegister (s : Slot) : Option Reg :=
  match parameterSlots.idxOf? s with
  | some i => callArguments[i]?
  | none =>
    match s with
    | .calleeSaved n => calleeSaved.find? fun r => r.number.toNat == n
    | _ => none

/-- The offset of a slot of `frameLayout` from the frame pointer. -/
def slotOffset (s : Slot) : Int32 :=
  Int32.ofInt (((frameLayout.place? s).getD 0) * wordSize.toInt)

/-- The offset of capture register `index` from the frame pointer. -/
def registerOffset (index : Nat) : Int32 :=
  Int32.ofInt (frameLayout.registerPlace index * wordSize.toInt)

/-! ### The host's state

The words of the host's state that generated code reads and writes, by their
offset from its address. -/

/-- A word of the host's state. -/
inductive ContextField where
  /-- The native stack pointer below which a poll calls the host. -/
  | interruptLimit
  /-- The start of the running code. -/
  | codeBase
  /-- The highest address of the backtrack stack. -/
  | stackMemoryTop
  /-- The address at which a checked push grows the backtrack stack. -/
  | stackLimit
  /-- The backtrack stack pointer, while the host runs. -/
  | stackPointer
  /-- The host's answer to a firing poll. -/
  | checkStackGuardState
  /-- The host's growth of the backtrack stack. -/
  | growStack
  /-- The host's comparison that ignores case. -/
  | caseInsensitiveCompare
  /-- The host's look-up in a boundary list. -/
  | isCharacterInRangeArray
  deriving DecidableEq, Repr

/-- The words of the host's state in order. -/
def ContextField.all : List ContextField :=
  [.interruptLimit, .codeBase, .stackMemoryTop, .stackLimit, .stackPointer,
    .checkStackGuardState, .growStack, .caseInsensitiveCompare, .isCharacterInRangeArray]

/-- The offset of a word of the host's state. -/
def ContextField.offset (f : ContextField) : Int32 :=
  Int32.ofNat (ContextField.all.idxOf f * 8)

end NativeMatcher.X64
