import Primer.Memory.Basic

/-!
# Commands to the memory

`Command` names everything a program can ask of its memory, `Answer` what it can get back, and
`perform` carries a command out. A command that faults gives no new memory.
-/

namespace Primer.Memory

/-- What can be asked of a memory. -/
inductive Command where
  | define (name : String) (value : Value)
  | getGlobal (name : String)
  | setGlobal (name : String) (value : Value)
  | globalAt (address : Address)
  | push (function : String)
  | pop
  | declare (name : String) (value : Value)
  /-- Declare `stem` followed by 0, 1, 2 and so on, each holding its own number. -/
  | declareMany (stem : String) (count : Nat)
  | getVar (name : String)
  | setVar (name : String) (value : Value)
  | stackAt (address : Address)
  | removeLocal (name : String)
  | currentFrame
  | allocate (size : Nat)
  | free (address : Address)
  | read (address : Address) (length : Nat)
  | write (address : Address) (bytes : List UInt8)
  | block (address : Address)
  | blockWrite (address : Address) (offset : Nat) (bytes : List UInt8)
  | blockInitialized (address : Address) (offset length : Nat)
  | liveBlocks
  | readInt (address : Address)
  | writeInt (address : Address) (value : Int32)
  | region (address : Address)
  | dump
deriving Repr, DecidableEq

/-- How far a row of declarations came. -/
structure Declared where
  count : Nat := 0
  first : Option Address := none
  last : Option Address := none
  /-- Why the row ended early. -/
  stopped : Option Fault := none
deriving Repr, DecidableEq

/-- Count one more declaration. -/
def Declared.add (declared : Declared) (address : Address) : Declared :=
  { declared with
    count := declared.count + 1
    first := declared.first.or (some address)
    last := some address }

/-- Declare a row of numbered locals, up to the first that is refused. -/
def Stack.declareFrom (stem : String) (index : Nat) :
    (count : Nat) → Declared → Stack → Declared × Stack
  | 0, declared, stack => (declared, stack)
  | count + 1, declared, stack =>
    match stack.declare (stem ++ toString index) (.int (Int32.ofNat index)) with
    | .ok (address, after) => declareFrom stem (index + 1) count (declared.add address) after
    | .error fault => ({ declared with stopped := some fault }, stack)

/-- What a command can give back. -/
inductive Answer where
  | done
  | address (address : Address)
  | global (found : Option Global)
  | frame (found : Option Frame)
  | slot (found : Option Local)
  | declared (row : Declared)
  | bytes (bytes : List UInt8)
  | block (block : Block)
  | flag (holds : Bool)
  | blocks (blocks : List (Address × Nat))
  | int (value : Int32)
  | region (region : Region)
  | memory (memory : Memory)
deriving Repr

/-- Carry out a command: what it gives back, and the memory after it. -/
def perform (memory : Memory) : Command → Except Fault (Answer × Memory)
  | .define name value => do
    let (address, globals) ← memory.globals.define name value
    return (.address address, { memory with globals })
  | .getGlobal name => .ok (.global (memory.globals.find? name), memory)
  | .setGlobal name value => do
    return (.done, { memory with globals := ← memory.globals.set name value })
  | .globalAt address => .ok (.global (memory.globals.at? address), memory)
  | .push function => .ok (.done, { memory with stack := memory.stack.push function })
  | .pop =>
    match memory.stack.pop? with
    | some (frame, stack) => .ok (.frame (some frame), { memory with stack })
    | none => .ok (.frame none, memory)
  | .declare name value => do
    let (address, stack) ← memory.stack.declare name value
    return (.address address, { memory with stack })
  | .declareMany stem count =>
    let (row, stack) := memory.stack.declareFrom stem 0 count {}
    .ok (.declared row, { memory with stack })
  | .getVar name => do return (.slot (some (← memory.stack.get name)), memory)
  | .setVar name value => do
    return (.done, { memory with stack := ← memory.stack.set name value })
  | .stackAt address => .ok (.slot (memory.stack.at? address), memory)
  | .removeLocal name => do
    let (removed, stack) ← memory.stack.remove name
    return (.slot removed, { memory with stack })
  | .currentFrame => .ok (.frame memory.stack.current?, memory)
  | .allocate size => do
    let (address, heap) ← memory.heap.allocate size
    return (.address address, { memory with heap })
  | .free address => do return (.done, { memory with heap := ← memory.heap.free address })
  | .read address length => do return (.bytes (← memory.heap.read address length), memory)
  | .write address bytes => do
    return (.done, { memory with heap := ← memory.heap.write address bytes })
  | .block address => do return (.block (← memory.heap.liveBlock address), memory)
  | .blockWrite address offset bytes => do
    return (.done, { memory with heap := ← memory.heap.writeBlock address offset bytes })
  | .blockInitialized address offset length => do
    let block ← memory.heap.liveBlock address
    return (.flag (block.isInitialized offset length), memory)
  | .liveBlocks => .ok (.blocks memory.heap.liveBlocks, memory)
  | .readInt address => do return (.int (← memory.readInt address), memory)
  | .writeInt address value => do return (.done, ← memory.writeInt address value)
  | .region address => .ok (.region (.of address), memory)
  | .dump => .ok (.memory memory, memory)

end Primer.Memory
