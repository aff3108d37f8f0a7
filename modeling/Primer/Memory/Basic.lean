import Primer.Log
import Primer.Memory.Globals
import Primer.Memory.Stack
import Primer.Memory.Heap

/-!
# The memory of a program

A `Memory` is globals, stack and heap together. An integer is read and written by address, and the
address decides which of the three is asked. A labelled copy of a whole memory is a `Snapshot`.
-/

namespace Primer

open Memory in
/-- Globals, stack and heap. -/
structure Memory where
  globals : Globals := .empty
  stack : Stack := .empty
  heap : Heap
deriving Repr

namespace Memory

/-- A memory with nothing in it. -/
def empty (heapLimit : Nat) : Memory := { heap := .empty heapLimit }

/-- The integer at an address. -/
def readInt (memory : Memory) (address : Address) : Except Fault Int32 :=
  match Region.of address with
  | .stack =>
    match memory.stack.at? address with
    | some var => var.value.expectInt address
    | none => .error (.invalidAddress address)
  | .global =>
    match memory.globals.at? address with
    | some var => var.value.expectInt address
    | none => .error (.invalidAddress address)
  | .heap => do
    let bytes ← memory.heap.read address wordSize
    return intOfBytes bytes

/-- Store an integer at an address, whatever was there. -/
def writeInt (memory : Memory) (address : Address) (value : Int32) : Except Fault Memory :=
  match Region.of address with
  | .stack => do return { memory with stack := ← memory.stack.setAt address (.int value) }
  | .global => do return { memory with globals := ← memory.globals.setAt address (.int value) }
  | .heap => do return { memory with heap := ← memory.heap.write address (intToBytes value) }

/-- A labelled copy of a memory. -/
structure Snapshot where
  label : String
  memory : Memory
deriving Repr

/-- The room one frame takes up: the bytes of its name and a slot for each local. -/
def Frame.charge (frame : Frame) : Nat :=
  frame.function.utf8ByteSize + frame.locals.size * wordSize

/-- The room a snapshot takes up: the frames, every byte ever handed out by the heap, 32 bytes for
each global, and the bytes of the label. -/
def Snapshot.size (snapshot : Snapshot) : Nat :=
  total Frame.charge snapshot.memory.stack.frames + snapshot.memory.heap.totalBytes +
    snapshot.memory.globals.size * 32 + snapshot.label.utf8ByteSize

instance : Sized Snapshot := ⟨Snapshot.size⟩

end Memory

end Primer
