import Primer.Memory.Session

/-!
# Replaying the demonstration on the memory

The program behind the demonstration defines a global, enters `main`, calls `demo`, declares `bar`
there and a pointer `baz` to a new heap block, and returns. The replay carries this out on an empty
memory and records the memory after each step. In the careful form the block is released when `demo`
returns; in the leaky form nobody releases it.
-/

namespace Primer.Storage

open Primer.Memory

/-- The moments at which the memory is recorded, in order. -/
inductive Step where
  | programStart
  | enterMain
  | enterDemo
  | declareBar
  | allocateBaz
  | returnFromDemo
  | exitMain
deriving Repr, DecidableEq

/-- The label under which a step is recorded. -/
def Step.label : Step → String
  | .programStart => "program start"
  | .enterMain => "enter main"
  | .enterDemo => "call demo"
  | .declareBar => "declare bar"
  | .allocateBaz => "malloc baz"
  | .returnFromDemo => "return from demo"
  | .exitMain => "exit main"

/-- All steps, in order. -/
def Step.all : List Step :=
  [.programStart, .enterMain, .enterDemo, .declareBar, .allocateBaz, .returnFromDemo, .exitMain]

/-- Why a replay ended early. -/
inductive ReplayFault where
  | memory (cause : Memory.Fault)
  | snapshot (cause : Log.Full)
deriving Repr, DecidableEq

/-- The text shown for a replay that ended early. -/
def ReplayFault.message : ReplayFault → String
  | .memory cause => cause.message
  | .snapshot cause => cause.message

/-- What a completed replay leaves. -/
structure Trace where
  /-- One snapshot for each step, in order. -/
  snapshots : List Snapshot
  /-- The memory after the last step. -/
  memory : Memory
  global : Address
  bar : Address
  baz : Address
deriving Repr

namespace Trace

/-- The memory as it was right after the step of a label. -/
def at? (trace : Trace) (label : String) : Option Memory :=
  (trace.snapshots.find? fun snapshot => snapshot.label = label).map Snapshot.memory

/-- The blocks that nobody released, with their sizes. -/
def leaks (trace : Trace) : List (Address × Nat) := trace.memory.heap.liveBlocks

end Trace

/-- Actions on a memory that is being recorded. -/
abbrev Replaying := StateT Session (Except ReplayFault)

namespace Replaying

/-- Ask something of the memory. -/
def perform {α : Type} (operation : Memory → Except Memory.Fault (α × Memory)) : Replaying α :=
  fun session =>
    match operation session.memory with
    | .ok (result, memory) => .ok (result, { session with memory })
    | .error fault => .error (.memory fault)

/-- Define a global. -/
def define (name : String) (value : Value) : Replaying Address :=
  perform fun memory => do
    let (address, globals) ← memory.globals.define name value
    return (address, { memory with globals })

/-- Enter a function. -/
def enter (function : String) : Replaying Unit :=
  perform fun memory => .ok ((), { memory with stack := memory.stack.push function })

/-- Return from the innermost function. -/
def leave : Replaying Unit :=
  perform fun memory =>
    match memory.stack.pop? with
    | some (_, stack) => .ok ((), { memory with stack })
    | none => .error .noStackFrame

/-- Declare a local. -/
def declare (name : String) (value : Value) : Replaying Address :=
  perform fun memory => do
    let (address, stack) ← memory.stack.declare name value
    return (address, { memory with stack })

/-- Get a block from the heap. -/
def allocate (size : Nat) : Replaying Address :=
  perform fun memory => do
    let (address, heap) ← memory.heap.allocate size
    return (address, { memory with heap })

/-- Give a block back. -/
def release (address : Address) : Replaying Unit :=
  perform fun memory => do return ((), { memory with heap := ← memory.heap.free address })

/-- Record the memory after a step. -/
def record (step : Step) : Replaying Unit := fun session =>
  match session.snapshots.push ⟨step.label, session.memory⟩ with
  | .ok snapshots => .ok ((), { session with snapshots })
  | .error full => .error (.snapshot full)

/-- The program, recorded step by step: where the global, `bar` and the block of `baz` lie. -/
def program (releaseBaz : Bool) : Replaying (Address × Address × Address) := do
  let global ← define "global" (.int 42)
  record .programStart
  enter "main"
  record .enterMain
  enter "demo"
  record .enterDemo
  let bar ← declare "bar" (.int 42)
  record .declareBar
  let baz ← allocate wordSize
  let _ ← declare "baz" (.pointer baz)
  record .allocateBaz
  if releaseBaz then
    release baz
  leave
  record .returnFromDemo
  leave
  record .exitMain
  return (global, bar, baz)

end Replaying

/-- Replay the program on an empty memory. -/
def replay (limits : Limits) (releaseBaz : Bool) : Except ReplayFault Trace := do
  let start := limits.session limits.memory
  let ((global, bar, baz), session) ← (Replaying.program releaseBaz).run start
  return { snapshots := session.snapshots.items, memory := session.memory, global, bar, baz }

end Primer.Storage
