import Primer.Memory.Session

/-!
# Operations in place

A running program keeps its memory in one place and changes it there, one field after another. Here
every operation is written in that manner, as an action that leaves a state also when it faults:
what it had changed by then stays changed. The globals are kept with a directory, which leads from a
name to a position among the variables, and with a counter for the next slot. A search by address
stops at the first hit, and only what was hit is changed.

An `Arena` is a memory kept in this way, and a `Workspace` is an arena with its recorded past. They
show what `Memory` and `Session` are.
-/

namespace Primer

/-- Operate on a part of a state. What was done to the part stays done, also after a fault. -/
def within {ε σ τ α : Type} (part : σ → τ) (put : τ → σ → σ) (operation : EStateM ε τ α) :
    EStateM ε σ α := fun state =>
  match operation (part state) with
  | .ok answer after => .ok answer (put after state)
  | .error fault after => .error fault (put after state)

namespace Memory

/-- The globals in order of definition, with the position of each name and the next slot. -/
structure Directory where
  vars : List Global := []
  index : Table Nat := {}
  next : Address := globalStart
deriving Repr, DecidableEq

namespace Directory

/-- What there is to see of the globals. -/
def globals (directory : Directory) : Globals := ⟨directory.vars⟩

/-- The global at the position that the directory gives for a name. -/
def find? (directory : Directory) (name : String) : Option Global := do
  directory.vars[← directory.index.find? name]?

end Directory

/-- Give the first local whose slot begins at an address a new value. -/
def Frame.setFirst (frame : Frame) (address : Address) (value : Value) : Frame :=
  let position := frame.locals.entries.findIdx fun entry => entry.2.address = address
  { frame with
    locals := ⟨frame.locals.entries.modify position fun entry =>
      (entry.1, { entry.2 with value })⟩ }

/-- A memory that is changed in place. -/
structure Arena where
  globals : Directory := {}
  stack : Stack := .empty
  heap : Heap
deriving Repr

namespace Arena

/-- An arena with nothing in it. -/
def empty (heapLimit : Nat) : Arena := { heap := .empty heapLimit }

/-- What there is to see of an arena. -/
def memory (arena : Arena) : Memory :=
  { globals := arena.globals.globals, stack := arena.stack, heap := arena.heap }

end Arena

/-- An operation that changes a state where it is. A fault keeps the state in which it arose. -/
abbrev InPlace (σ α : Type) := EStateM Fault σ α

namespace InPlace

/-! ## Globals -/

/-- Define a global in the next slot: the slot is taken, the name is entered into the directory, and
then the variable comes to the others. -/
def define (name : String) (value : Value) : InPlace Directory Address := do
  let directory ← get
  if (directory.index.find? name).isSome then
    throw (.duplicateGlobal name)
  else if heapStart < directory.next + wordSize then
    throw (.outOfMemory wordSize (directory.vars.length * wordSize) (heapStart - globalStart))
  else
    modify fun directory => { directory with next := directory.next + wordSize }
    modify fun directory =>
      { directory with index := directory.index.insert name directory.vars.length }
    modify fun now => { now with vars := now.vars ++ [⟨name, value, directory.next⟩] }
    return directory.next

/-- Give the global at the position that the directory has for a name a new value. -/
def setGlobal (name : String) (value : Value) : InPlace Directory Unit := do
  match (← get).index.find? name with
  | none => throw (.undefinedVariable name)
  | some position => modify fun directory =>
      { directory with vars := directory.vars.modify position fun var => { var with value } }

/-- Give the first global whose slot begins at an address a new value. -/
def setGlobalAt (address : Address) (value : Value) : InPlace Directory Unit := do
  match (← get).vars.findIdx? fun var => var.address = address with
  | none => throw (.invalidAddress address)
  | some position => modify fun directory =>
      { directory with vars := directory.vars.modify position fun var => { var with value } }

/-! ## Stack -/

/-- Enter a function. Its locals will begin at the next slot. -/
def push (function : String) : InPlace Stack Unit :=
  modify fun stack => { stack with frames := { function, base := stack.next } :: stack.frames }

/-- Leave the innermost function, if there is one: its frame goes, and then its slots are free. -/
def pop : InPlace Stack (Option Frame) := do
  match (← get).frames with
  | [] => return none
  | frame :: outer =>
    modify fun stack => { stack with frames := outer }
    modify fun stack => { stack with next := frame.base }
    return some frame

/-- Operate on the innermost frame. -/
def onCurrent {α : Type} (operation : InPlace Frame α) : InPlace Stack α := do
  match (← get).frames with
  | [] => throw .noStackFrame
  | frame :: outer =>
    within (fun _ => frame) (fun frame stack => { stack with frames := frame :: outer }) operation

/-- Declare a local of the innermost function. A name that is there already keeps its slot; a new
one is put to the others, then listed last, and then the slot is taken. -/
def declare (name : String) (value : Value) : InPlace Stack Address := do
  match ← onCurrent (return (← get).locals.find? name) with
  | some existing =>
    onCurrent (modify fun frame =>
      { frame with locals := frame.locals.insert name { existing with value } })
    return existing.address
  | none =>
    let address := (← get).next
    if globalStart < address + wordSize then
      throw (.stackOverflow globalStart)
    else
      onCurrent (modify fun frame =>
        { frame with locals := frame.locals.insert name ⟨value, address⟩ })
      onCurrent (modify fun frame => { frame with order := frame.order ++ [name] })
      modify fun stack => { stack with next := stack.next + wordSize }
      return address

/-- Declare a row of numbered locals, up to the first that is refused. -/
def declareFrom (stem : String) (index : Nat) : (count : Nat) → Declared → InPlace Stack Declared
  | 0, declared => return declared
  | count + 1, declared => fun stack =>
    match declare (stem ++ toString index) (.int (Int32.ofNat index)) stack with
    | .ok address after => declareFrom stem (index + 1) count (declared.add address) after
    | .error fault after => .ok { declared with stopped := some fault } after

/-- Give a local of the innermost function a new value. -/
def setVar (name : String) (value : Value) : InPlace Stack Unit :=
  onCurrent do
    match (← get).locals.find? name with
    | none => throw (.undefinedVariable name)
    | some var => modify fun frame =>
        { frame with locals := frame.locals.insert name { var with value } }

/-- Take a local out of the innermost function. Its name stays listed, and its slot stays taken. -/
def removeLocal (name : String) : InPlace Stack (Option Local) :=
  onCurrent do
    let removed := (← get).locals.find? name
    modify fun frame => { frame with locals := frame.locals.erase name }
    return removed

/-- Give the first local whose slot begins at an address a new value, the innermost frame first. -/
def setSlot (address : Address) (value : Value) : InPlace Stack Unit := do
  match (← get).frames.findIdx? fun frame => (frame.at? address).isSome with
  | none => throw (.invalidAddress address)
  | some depth => modify fun stack =>
      { stack with frames := stack.frames.modify depth fun frame => frame.setFirst address value }

/-! ## Heap -/

/-- Write bytes one after another. -/
def fill (offset : Nat) : List UInt8 → InPlace Block Unit
  | [] => pure ()
  | byte :: rest => do
    modify fun block => { block with cells := block.cells.setIfInBounds offset (some byte) }
    fill (offset + 1) rest

/-- Write into a block from an offset on, if the whole range lies in the block. -/
def writeInto (offset : Nat) (bytes : List UInt8) : InPlace Block Unit := do
  let block ← get
  if block.size < offset + bytes.length then
    throw (.bufferOverrun offset bytes.length block.size)
  else
    fill offset bytes

/-- Hand out a block. What is asked for is compared with the room that is left. The block is made
before anything is changed: a program that asks for more than a block can have stops, and nobody
sees the heap after that. -/
def allocate (size : Nat) : InPlace Heap Address := do
  let heap ← get
  if size = 0 then
    throw (.invalidSize size)
  else if heap.limit - heap.liveBytes < size then
    throw (.outOfMemory size heap.liveBytes heap.limit)
  else
    match Block.make size with
    | .error fault => throw fault
    | .ok block =>
      modify fun heap => { heap with next := heap.next + size }
      modify fun now => { now with blocks := now.blocks ++ [(heap.next, block)] }
      modify fun heap => { heap with liveBytes := heap.liveBytes + size }
      modify fun heap => { heap with totalBytes := heap.totalBytes + size }
      return heap.next

/-- Release the block that begins at an address: it is marked, and then its bytes are taken off. -/
def free (base : Address) : InPlace Heap Unit := do
  match (← get).block? base with
  | none => throw (.invalidFree base)
  | some block =>
    if block.released then
      throw (.doubleFree base)
    else
      modify fun heap => heap.setBlock base { block with released := true }
      modify fun heap => { heap with liveBytes := heap.liveBytes - block.size }

/-- Operate on the block in use that begins at an address. -/
def onBlock {α : Type} (base : Address) (operation : InPlace Block α) : InPlace Heap α := do
  match (← get).liveBlock base with
  | .error fault => throw fault
  | .ok block => within (fun _ => block) (fun block heap => heap.setBlock base block) operation

/-- Write into the block in use that begins at an address. -/
def writeBlock (base : Address) (offset : Nat) (bytes : List UInt8) : InPlace Heap Unit :=
  onBlock base (writeInto offset bytes)

/-- Write bytes from an address on, into the block in use that contains it. -/
def write (address : Address) (bytes : List UInt8) : InPlace Heap Unit := do
  match (← get).locate address with
  | .error fault => throw fault
  | .ok (base, offset) => writeBlock base offset bytes

/-! ## The whole memory -/

section Arena

variable {α : Type}

/-- Operate on the globals of an arena. -/
def onGlobals : InPlace Directory α → InPlace Arena α :=
  within Arena.globals fun globals arena => { arena with globals }

/-- Operate on the stack of an arena. -/
def onStack : InPlace Stack α → InPlace Arena α :=
  within Arena.stack fun stack arena => { arena with stack }

/-- Operate on the heap of an arena. -/
def onHeap : InPlace Heap α → InPlace Arena α :=
  within Arena.heap fun heap arena => { arena with heap }

/-- Ask something that changes nothing. -/
def consult (question : Arena → Except Fault α) : InPlace Arena α := fun arena =>
  match question arena with
  | .ok answer => .ok answer arena
  | .error fault => .error fault arena

/-- Store an integer at an address, in the manner of the region that the address lies in. -/
def writeInt (address : Address) (value : Int32) : InPlace Arena Unit :=
  match Region.of address with
  | .stack => onStack (setSlot address (.int value))
  | .global => onGlobals (setGlobalAt address (.int value))
  | .heap => onHeap (write address (intToBytes value))

/-- Carry out a command. -/
def perform : Command → InPlace Arena Answer
  | .define name value => return .address (← onGlobals (define name value))
  | .getGlobal name => consult fun arena => .ok (.global (arena.globals.find? name))
  | .setGlobal name value => do
    onGlobals (setGlobal name value)
    return .done
  | .globalAt address => consult fun arena => .ok (.global (arena.globals.globals.at? address))
  | .push function => do
    onStack (push function)
    return .done
  | .pop => return .frame (← onStack pop)
  | .declare name value => return .address (← onStack (declare name value))
  | .declareMany stem count => return .declared (← onStack (declareFrom stem 0 count {}))
  | .getVar name => consult fun arena => return .slot (some (← arena.stack.get name))
  | .setVar name value => do
    onStack (setVar name value)
    return .done
  | .stackAt address => consult fun arena => .ok (.slot (arena.stack.at? address))
  | .removeLocal name => return .slot (← onStack (removeLocal name))
  | .currentFrame => consult fun arena => .ok (.frame arena.stack.current?)
  | .allocate size => return .address (← onHeap (allocate size))
  | .free base => do
    onHeap (free base)
    return .done
  | .read address length => consult fun arena => return .bytes (← arena.heap.read address length)
  | .write address bytes => do
    onHeap (write address bytes)
    return .done
  | .block base => consult fun arena => return .block (← arena.heap.liveBlock base)
  | .blockWrite base offset bytes => do
    onHeap (writeBlock base offset bytes)
    return .done
  | .blockInitialized base offset length => consult fun arena => do
    let block ← arena.heap.liveBlock base
    return .flag (block.isInitialized offset length)
  | .liveBlocks => consult fun arena => .ok (.blocks arena.heap.liveBlocks)
  | .readInt address => consult fun arena => return .int (← arena.memory.readInt address)
  | .writeInt address value => do
    writeInt address value
    return .done
  | .region address => consult fun _ => .ok (.region (.of address))
  | .dump => consult fun arena => .ok (.memory arena.memory)

end Arena

/-- Keep an item if it fits: its size is counted, and then it is put to the others. -/
def keep {α : Type} [Sized α] (item : α) : EStateM Log.Full (Log α) Unit := do
  let log ← get
  if log.limit < log.used + Sized.size item then
    throw ⟨log.used, Sized.size item, log.limit⟩
  else
    modify fun log => { log with used := log.used + Sized.size item }
    modify fun log => { log with newestFirst := item :: log.newestFirst }

end InPlace

/-! ## With a recorded past -/

/-- A labelled copy of an arena. -/
structure Capture where
  label : String
  arena : Arena
deriving Repr

/-- What there is to see of a copy. -/
def Capture.snapshot (capture : Capture) : Snapshot := ⟨capture.label, capture.arena.memory⟩

instance : Sized Capture := ⟨fun capture => capture.snapshot.size⟩

/-- An arena and its recorded past. -/
structure Workspace where
  arena : Arena
  captures : Log Capture
deriving Repr

/-- Why a request was refused: the memory faulted, or there was no room to record it. -/
inductive Refusal where
  | fault (cause : Fault)
  | full (cause : Log.Full)
deriving Repr, DecidableEq

/-- What a session replies to a refused request. -/
def Refusal.reply : Refusal → Reply
  | .fault cause => .fault cause
  | .full cause => .recorded ⟨cause.requested, some cause⟩

namespace Workspace

/-- A workspace with nothing in it. -/
def empty (limits : Limits) : Workspace :=
  { arena := .empty limits.heap, captures := .empty limits.snapshots }

/-- What there is to see of a workspace. -/
def session (workspace : Workspace) : Session where
  memory := workspace.arena.memory
  snapshots := {
    limit := workspace.captures.limit
    used := workspace.captures.used
    newestFirst := workspace.captures.newestFirst.map Capture.snapshot }

/-- Carry out a request in place. -/
def perform : Request → EStateM Refusal Workspace Reply
  | .command command =>
    return .answer (← within arena (fun arena workspace => { workspace with arena })
      (EStateM.adaptExcept .fault (InPlace.perform command)))
  | .record label => do
    let capture : Capture := ⟨label, (← get).arena⟩
    within captures (fun captures workspace => { workspace with captures })
      (EStateM.adaptExcept .full (InPlace.keep capture))
    return .recorded ⟨Sized.size capture, none⟩
  | .restore index => do
    match (← get).captures.get? index with
    | none => return .restored none
    | some capture =>
      modify fun workspace => { workspace with arena := capture.arena }
      return .restored (some capture.label)

/-- The reply to a request and the workspace after it, whether it was refused or not. -/
def step (workspace : Workspace) (request : Request) : Reply × Workspace :=
  match perform request workspace with
  | .ok reply after => (reply, after)
  | .error refusal after => (refusal.reply, after)

end Workspace

end Memory

end Primer
