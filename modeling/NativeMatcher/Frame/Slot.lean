/-!
# The slots of a matcher's stack frame

A compiled matcher keeps its parameters, the registers it has to give back and
four words of bookkeeping at fixed places of its stack frame. This file only
names those places; `NativeMatcher.Frame.Layout` assigns them their offsets.
-/

namespace NativeMatcher.Frame

/-- A named word of a matcher's stack frame. -/
inductive Slot where
  /-- The caller's frame pointer. -/
  | savedFramePointer
  /-- The address the matcher returns to. -/
  | returnAddress
  /-- Whether the caller can service interrupts in place. -/
  | directCall
  /-- The address of the host's state. -/
  | runtimeContext
  /-- The address of the whole subject. -/
  | inputString
  /-- The index of the first character to try. -/
  | startIndex
  /-- The address of the first character to try. -/
  | inputStart
  /-- The address one past the subject. -/
  | inputEnd
  /-- Where the next capture set goes. -/
  | output
  /-- How many output registers are left. -/
  | outputCount
  /-- A callee-saved machine register, by hardware number. -/
  | calleeSaved (number : Nat)
  /-- Capture sets stored so far. -/
  | successfulCaptures
  /-- The position one character before the subject; it also marks an unset register. -/
  | beforeStart
  /-- Backtracks counted so far. -/
  | backtrackCount
  /-- The base of the backtrack stack, as an offset from its top. -/
  | stackBase
  deriving DecidableEq, Repr

/-- The slot's name in messages. -/
def Slot.name : Slot → String
  | savedFramePointer => "SavedFramePointer"
  | returnAddress => "ReturnAddress"
  | directCall => "DirectCall"
  | runtimeContext => "RuntimeContext"
  | inputString => "InputString"
  | startIndex => "StartIndex"
  | inputStart => "InputStart"
  | inputEnd => "InputEnd"
  | output => "Output"
  | outputCount => "NumOutputRegisters"
  | calleeSaved n => s!"CalleeSaved({n})"
  | successfulCaptures => "SuccessfulCaptures"
  | beforeStart => "StringStartMinusOne"
  | backtrackCount => "BacktrackCount"
  | stackBase => "StackBasePointer"

end NativeMatcher.Frame
