import NativeMatcher.Assembly.Exec
import NativeMatcher.Engine
import NativeMatcher.X64.Decode
import NativeMatcher.Proofs.Move
import NativeMatcher.Proofs.Run
import NativeMatcher.Proofs.Compiled
import NativeMatcher.Proofs.Poll
import NativeMatcher.Proofs.Growth
import NativeMatcher.Proofs.Session
import NativeMatcher.Proofs.Handles
import NativeMatcher.Proofs.Attempt
import NativeMatcher.Proofs.Discipline
import NativeMatcher.Proofs.StackSize
import NativeMatcher.Proofs.StackBounds
import NativeMatcher.Proofs.Independence
import NativeMatcher.Proofs.BacktrackLimit
import NativeMatcher.Proofs.Cache
import NativeMatcher.Proofs.Position
import NativeMatcher.Proofs.Report
import NativeMatcher.Proofs.Tracking
import NativeMatcher.Proofs.GlobalSearch
import NativeMatcher.Proofs.Reporting
import NativeMatcher.Proofs.Refusal
import NativeMatcher.Proofs.Denial
import NativeMatcher.Proofs.Recorded
import NativeMatcher.Proofs.Stored
import NativeMatcher.Proofs.Encoding
import NativeMatcher.Proofs.Layout
import NativeMatcher.Proofs.Listing
import NativeMatcher.Proofs.ControlFlow
import NativeMatcher.Proofs.Flags
import NativeMatcher.Proofs.Walk
import NativeMatcher.Proofs.CharTests
import NativeMatcher.Proofs.Lowering
import NativeMatcher.Proofs.Placement
import NativeMatcher.Proofs.Pieces
import NativeMatcher.Proofs.Completion
import NativeMatcher.Proofs.Emission
import NativeMatcher.Proofs.Outcome
import NativeMatcher.Proofs.CodeSize
import NativeMatcher.Proofs.CodeOffsets
import NativeMatcher.Proofs.Widening
import NativeMatcher.Proofs.WideStep
import NativeMatcher.Proofs.WideMatch
import NativeMatcher.Proofs.Reference
import NativeMatcher.Proofs.Relabelled
import NativeMatcher.Proofs.Renaming
import NativeMatcher.Proofs.Loads
import NativeMatcher.Proofs.RangeLists
import NativeMatcher.Proofs.Repetition
import NativeMatcher.Proofs.Progress
import NativeMatcher.Proofs.Loops
import NativeMatcher.Proofs.HostCalls
import NativeMatcher.Proofs.Comparison
import NativeMatcher.Proofs.ReferenceCode
import NativeMatcher.Proofs.RangeCode
import NativeMatcher.Proofs.CaseFolding
import NativeMatcher.Proofs.LiveEntries
import NativeMatcher.Proofs.SavedRegisters
import NativeMatcher.Proofs.FrameCode
import NativeMatcher.Proofs.CodePoints
import NativeMatcher.Proofs.Doubling
import NativeMatcher.Proofs.FrameOffsets
import NativeMatcher.Proofs.RegisterFill
import NativeMatcher.Proofs.CodeMemory
import NativeMatcher.Proofs.CodeSession
