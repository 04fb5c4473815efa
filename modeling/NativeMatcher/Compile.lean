import NativeMatcher.Assembler

/-!
# Compiling a program

A program is compiled opcode by opcode. Its labels become the labels after the
reserved ones, all declared at the start; each opcode is checked on its own before it
is emitted, and the first one that fails the check ends the compilation. What the
checks cannot see – a register out of range, a label that is never bound – the
assembler reports at the end.

The result keeps the code offset of every opcode, since a resumption point on the
backtrack stack is a code offset.
-/

namespace NativeMatcher

/-- Why compiling stopped. -/
inductive CompileFailure where
  /-- The breach of a rule. -/
  | fault (f : Fault)
  /-- A report about the program. -/
  | error (e : CompileError)
  deriving DecidableEq, Repr

/-- A compiled program. -/
structure Matcher where
  /-- The machine code. -/
  object : Code.Object
  /-- The program. -/
  program : Program
  /-- The options it was compiled with. -/
  options : Options
  /-- The code offset of each opcode. -/
  offsets : Array Nat
  deriving Repr

namespace Program

/-- The error of a target that is no label of the program. -/
def targetError? (p : Program) (dest : Target) : Option CompileError :=
  match dest with
  | some l => if l.index < p.labels then none else some (.unknownLabel l)
  | none => none

/-- The error of a bind opcode, after the labels in `bound` were bound. -/
def bindError? (p : Program) (bound : List Label) (l : Label) : Option CompileError :=
  match p.targetError? (some l) with
  | some e => some e
  | none => if bound.contains l then some (.labelRebound l) else none

/-- The error of an opcode, after the labels in `bound` were bound. -/
def opcodeError? (p : Program) (mode : Mode) (bound : List Label) (op : Opcode) :
    Option CompileError :=
  match op with
  | .bind l => p.bindError? bound l
  | .onChar (.inTable t) dest =>
    if t.size = tableSize then p.targetError? dest else some (.unsupported (.bitTable t.size))
  | .onChar (.inRanges rs) dest | .onChar (.notInRanges rs) dest =>
    match p.targetError? dest with
    | some e => some e
    | none =>
      if rs.length ≤ maxRangeArraySize then none else some (.unsupported (.rangeArray rs.length))
  | .onChar (.notInClass cls) dest =>
    match p.targetError? dest with
    | some e => some e
    | none => if cls.hasFastPath mode then none else some (.unsupported (.charClass cls))
  | op => p.targetError? op.label?

end Program

/-- The assembler's label for a label of the program. -/
def Label.shifted (l : Label) : Label := ⟨Assembly.reservedLabels + l.index⟩

/-- A compilation under way: the assembler, the labels bound so far and the code offsets of
the opcodes so far. -/
structure Compilation where
  /-- The assembler. -/
  assembler : Assembler
  /-- The labels bound so far. -/
  bound : List Label := []
  /-- The code offsets of the opcodes so far. -/
  offsets : Array Nat := #[]

namespace Compilation

/-- A fault ends a compilation. -/
def orFault {α : Type} : Except Fault α → Except CompileFailure α
  | .ok a => .ok a
  | .error f => .error (.fault f)

/-- Notes that the next opcode starts here. Out of line, so that the code emitted so far has
one owner when the opcode is emitted. -/
@[noinline] def mark (c : Compilation) : Compilation :=
  { c with offsets := c.offsets.push c.assembler.buffer.size }

/-- Checks and emits one opcode. -/
def step (p : Program) (c : Compilation) (op : Opcode) : Except CompileFailure Compilation :=
  match p.opcodeError? c.assembler.mode c.bound op with
  | some e => .error (.error e)
  | none => do
    let c := c.mark
    let assembler ← orFault (c.assembler.emit (op.mapLabels Label.shifted))
    return { c with
      assembler := assembler
      bound := match op with
        | .bind l => l :: c.bound
        | _ => c.bound }

/-- Checks and emits opcodes in order. -/
def steps (p : Program) (c : Compilation) : List Opcode → Except CompileFailure Compilation
  | [] => .ok c
  | op :: ops => do
    let c ← c.step p op
    c.steps p ops

/-- The assembler at the start of a compilation. -/
def start (p : Program) (o : Options) (heap : Nat → UInt64) :
    Except CompileFailure Compilation := do
  let a ← orFault (Assembler.new o.mode p.saved heap)
  let a := a.setGlobalMode o.globalMode
  let a := match o.backtrackLimit with
    | some limit => a.setBacktrackLimit limit o.canFallback
    | none => a
  return { assembler := { a with labels := a.labels.declareMany p.labels } }

end Compilation

/-- Compiles a program. The code holds the addresses of its tables, and where the heap puts
them no other input decides. -/
def Program.compile (p : Program) (o : Options) (source : String) (heap : Nat → UInt64) :
    Except CompileFailure Matcher := do
  let c ← Compilation.start p o heap
  let c ← c.steps p p.opcodes.toList
  let (_, result) ← Compilation.orFault (c.assembler.finish source)
  match result with
  | .ok object =>
    return { object := object, program := p, options := o, offsets := c.offsets }
  | .error e => throw (.error e)

end NativeMatcher
