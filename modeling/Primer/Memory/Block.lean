import Primer.Memory.Fault

/-!
# Blocks of the heap

A block is a fixed number of cells; a cell holds a byte once one was written there. A released block
is kept, so that a late access to it can be told from an access to nothing.
-/

namespace Primer.Memory

/-- A block of bytes. -/
structure Block where
  /-- What was written to each place last, if anything was. -/
  cells : Array (Option UInt8)
  /-- Whether the block was given back. -/
  released : Bool := false
deriving Repr, DecidableEq

/-- Put items into consecutive places of an array. -/
def overwrite {α : Type} (array : Array α) (offset : Nat) : List α → Array α
  | [] => array
  | item :: rest => overwrite (array.setIfInBounds offset item) (offset + 1) rest

/-- Write bytes into consecutive cells. -/
def writeCells (cells : Array (Option UInt8)) (offset : Nat) (bytes : List UInt8) :
    Array (Option UInt8) :=
  overwrite cells offset (bytes.map some)

namespace Block

/-- A block of the given size that nobody has written to. -/
def fresh (size : Nat) : Block := { cells := Array.replicate size none }

/-- Make room for a block that nobody has written to. A block has at most `blockCapacity` bytes. -/
def make (size : Nat) : Except Fault Block :=
  if size ≤ blockCapacity then .ok (fresh size) else .error .capacityOverflow

/-- How many bytes the block has room for. -/
def size (block : Block) : Nat := block.cells.size

/-- What a place holds: the byte written last, or zero. -/
def byte (block : Block) (index : Nat) : UInt8 := (block.cells[index]?.join).getD 0

/-- Whether a place was written. -/
def written (block : Block) (index : Nat) : Bool := (block.cells[index]?.join).isSome

/-- The cells of a range, or the fault that it leaves the block. -/
def range (block : Block) (offset length : Nat) : Except Fault (List (Option UInt8)) :=
  if offset + length ≤ block.size then
    .ok (block.cells.extract offset (offset + length)).toList
  else
    .error (.bufferOverrun offset length block.size)

/-- Whether a range lies in the block and was written throughout. -/
def isInitialized (block : Block) (offset length : Nat) : Bool :=
  match block.range offset length with
  | .ok cells => cells.all Option.isSome
  | .error _ => false

/-- Write bytes from an offset on. The whole range has to lie in the block. -/
def write (block : Block) (offset : Nat) (bytes : List UInt8) : Except Fault Block :=
  if offset + bytes.length ≤ block.size then
    .ok { block with cells := writeCells block.cells offset bytes }
  else
    .error (.bufferOverrun offset bytes.length block.size)

end Block

/-! ## Sizes and contents -/

section Overwrite

variable {α : Type} (array : Array α) (offset : Nat) (items : List α)

@[simp] theorem size_overwrite : (overwrite array offset items).size = array.size := by
  induction items generalizing array offset with
  | nil => rfl
  | cons item rest ih => simp [overwrite, ih]

/-- The places of the range hold the items, and all others what they held. -/
theorem getElem?_overwrite (index : Nat) :
    (overwrite array offset items)[index]? =
      if offset ≤ index ∧ index < offset + items.length ∧ index < array.size then
        items[index - offset]?
      else array[index]? := by
  induction items generalizing array offset with
  | nil =>
    simp only [overwrite, List.length_nil]
    rw [if_neg (by omega)]
  | cons item rest ih =>
    simp only [overwrite, ih, Array.size_setIfInBounds, Array.getElem?_setIfInBounds,
      List.length_cons]
    by_cases here : offset = index
    · subst here
      rw [if_neg (by omega)]
      by_cases inside : offset < array.size <;> simp [inside]
    · by_cases inside : offset ≤ index ∧ index < offset + (rest.length + 1) ∧ index < array.size
      · rw [if_pos (by omega), if_pos inside]
        obtain ⟨step, hstep⟩ : ∃ step, index - offset = step + 1 := ⟨index - offset - 1, by omega⟩
        rw [hstep, List.getElem?_cons_succ, show index - (offset + 1) = step by omega]
      · rw [if_neg (by omega), if_neg inside, if_neg here]

end Overwrite

@[simp] theorem size_writeCells (cells : Array (Option UInt8)) (offset : Nat)
    (bytes : List UInt8) : (writeCells cells offset bytes).size = cells.size := by
  rw [writeCells, size_overwrite]

/-- After a write, the places of the range hold the bytes, and all others what they held. -/
theorem getElem?_writeCells (cells : Array (Option UInt8)) (offset index : Nat)
    (bytes : List UInt8) :
    (writeCells cells offset bytes)[index]? =
      if offset ≤ index ∧ index < offset + bytes.length ∧ index < cells.size then
        some bytes[index - offset]?
      else cells[index]? := by
  rw [writeCells, getElem?_overwrite, List.length_map, List.getElem?_map]
  by_cases inside : offset ≤ index ∧ index < offset + bytes.length ∧ index < cells.size
  · have hlt : index - offset < bytes.length := by omega
    rw [if_pos inside, if_pos inside, List.getElem?_eq_getElem hlt, Option.map_some]
  · rw [if_neg inside, if_neg inside]

@[simp] theorem Block.size_fresh (size : Nat) : (Block.fresh size).size = size := by
  simp [Block.fresh, Block.size]

theorem Block.make_of_le {size : Nat} (small : size ≤ blockCapacity) :
    make size = .ok (fresh size) := if_pos small

theorem Block.make_of_lt {size : Nat} (large : blockCapacity < size) :
    make size = .error .capacityOverflow := if_neg (Nat.not_le.2 large)

end Primer.Memory
