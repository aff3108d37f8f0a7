import Primer.Memory.Block

/-!
# The heap

Blocks are handed out one directly after another from `heapStart` on, and no address is handed out
twice. A block is released by its own address, once. An access by address goes to the block that
contains the address: first it has to exist, then it must not be released, then the range has to
lie inside it, and what is read has to be written.
-/

namespace Primer.Memory

/-- All blocks ever handed out, released ones included. -/
structure Heap where
  /-- How many bytes may be in use at a time. -/
  limit : Nat
  /-- Where the next block will begin. -/
  next : Address := heapStart
  /-- The bytes in use. -/
  liveBytes : Nat := 0
  /-- The bytes ever handed out. -/
  totalBytes : Nat := 0
  /-- The blocks with their addresses, in the order in which they were handed out. -/
  blocks : List (Address × Block) := []
deriving Repr

namespace Heap

/-- A heap without blocks. -/
def empty (limit : Nat) : Heap := { limit }

/-- The block in a list that begins at an address. -/
def blockAt (base : Address) : List (Address × Block) → Option Block
  | [] => none
  | (address, block) :: rest => if address = base then some block else blockAt base rest

/-- The block that begins at an address, released or not. -/
def block? (heap : Heap) (base : Address) : Option Block := blockAt base heap.blocks

/-- Put a block in the place of the one that begins at an address. -/
def setBlock (heap : Heap) (base : Address) (block : Block) : Heap :=
  { heap with
    blocks := heap.blocks.map fun entry => if entry.1 = base then (entry.1, block) else entry }

/-- Hand out a block: its address, and the heap with it. -/
def allocate (heap : Heap) (size : Nat) : Except Fault (Address × Heap) :=
  if size = 0 then
    .error (.invalidSize size)
  else if heap.limit < heap.liveBytes + size then
    .error (.outOfMemory size heap.liveBytes heap.limit)
  else do
    let block ← Block.make size
    return (heap.next, { heap with
      next := heap.next + size
      liveBytes := heap.liveBytes + size
      totalBytes := heap.totalBytes + size
      blocks := heap.blocks ++ [(heap.next, block)] })

/-- Release the block that begins at an address. -/
def free (heap : Heap) (base : Address) : Except Fault Heap :=
  match heap.block? base with
  | none => .error (.invalidFree base)
  | some block =>
    if block.released then
      .error (.doubleFree base)
    else
      .ok { heap.setBlock base { block with released := true } with
        liveBytes := heap.liveBytes - block.size }

/-- The block that begins at an address and is in use. -/
def liveBlock (heap : Heap) (base : Address) : Except Fault Block :=
  match heap.block? base with
  | none => .error (.invalidAddress base)
  | some block => if block.released then .error (.useAfterFree base) else .ok block

/-- Write into the block that begins at an address. -/
def writeBlock (heap : Heap) (base : Address) (offset : Nat) (bytes : List UInt8) :
    Except Fault Heap := do
  let block ← heap.liveBlock base
  let block ← block.write offset bytes
  return heap.setBlock base block

/-- Where the block that contains an address begins, and the offset of the address in it. -/
def locate (heap : Heap) (address : Address) : Except Fault (Address × Nat) :=
  match heap.blocks.find? fun entry =>
      entry.1 ≤ address ∧ address < entry.1 + entry.2.size with
  | some (base, _) => .ok (base, address - base)
  | none => .error (.invalidAddress address)

/-- Write bytes from an address on. -/
def write (heap : Heap) (address : Address) (bytes : List UInt8) : Except Fault Heap := do
  let (base, offset) ← heap.locate address
  heap.writeBlock base offset bytes

/-- Read bytes from an address on. Every one of them has to be written. -/
def read (heap : Heap) (address : Address) (length : Nat) : Except Fault (List UInt8) := do
  let (base, offset) ← heap.locate address
  let block ← heap.liveBlock base
  let cells ← block.range offset length
  match cells.mapM id with
  | some bytes => return bytes
  | none => throw (.uninitializedRead address)

/-- The blocks in use, lowest address first. -/
def live (heap : Heap) : List (Address × Block) :=
  heap.blocks.filter fun entry => !entry.2.released

/-- Addresses and sizes of the blocks in use, lowest address first. -/
def liveBlocks (heap : Heap) : List (Address × Nat) :=
  heap.live.map fun entry => (entry.1, entry.2.size)

/-! ## Handing out blocks -/

/-- What comes of asking for a block. It is handed out if it is of some size, fits beside the bytes
in use and is within the capacity of a block: then it begins where the last one ended, and both
counters grow by its size. -/
theorem allocate_cases (heap : Heap) (size : Nat) :
    (size = 0 ∧ heap.allocate size = .error (.invalidSize size)) ∨
      (0 < size ∧ heap.limit < heap.liveBytes + size ∧
        heap.allocate size = .error (.outOfMemory size heap.liveBytes heap.limit)) ∨
      (0 < size ∧ heap.liveBytes + size ≤ heap.limit ∧ blockCapacity < size ∧
        heap.allocate size = .error .capacityOverflow) ∨
      (0 < size ∧ heap.liveBytes + size ≤ heap.limit ∧ size ≤ blockCapacity ∧
        heap.allocate size = .ok (heap.next, { heap with
          next := heap.next + size
          liveBytes := heap.liveBytes + size
          totalBytes := heap.totalBytes + size
          blocks := heap.blocks ++ [(heap.next, Block.fresh size)] })) := by
  unfold allocate
  by_cases hzero : size = 0
  · exact .inl ⟨hzero, if_pos hzero⟩
  · rw [if_neg hzero]
    have hpositive := Nat.pos_of_ne_zero hzero
    by_cases hfull : heap.limit < heap.liveBytes + size
    · exact .inr (.inl ⟨hpositive, hfull, if_pos hfull⟩)
    · rw [if_neg hfull]
      have hfits := Nat.le_of_not_lt hfull
      by_cases hsmall : size ≤ blockCapacity
      · rw [Block.make_of_le hsmall]
        exact .inr (.inr (.inr ⟨hpositive, hfits, hsmall, rfl⟩))
      · have hlarge := Nat.lt_of_not_le hsmall
        rw [Block.make_of_lt hlarge]
        exact .inr (.inr (.inl ⟨hpositive, hfits, hlarge, rfl⟩))

end Heap

end Primer.Memory
