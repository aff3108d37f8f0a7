/-!
# Values of three storage durations

A `Store` is what outlives a call: one global integer, and the heap cells that were made and not yet
dropped. A cell holds nothing until it is first written. The demonstration looks at a value of each
duration and leaves the store as it is.
-/

namespace Primer.Storage

/-- A heap cell for one integer. -/
structure Cell where
  /-- What was written last, if anything was. -/
  content : Option Int32 := none
deriving Repr, DecidableEq

namespace Cell

/-- Put an integer into a cell. -/
def write (_cell : Cell) (value : Int32) : Cell := ⟨some value⟩

/-- Whether the cell was written. -/
def isInitialized (cell : Cell) : Bool := cell.content.isSome

end Cell

/-- A global and the heap cells made so far. -/
structure Store where
  global : Int32 := 42
  /-- The cells in the order in which they were made, with nothing for a dropped one. -/
  cells : List (Option Cell) := []
deriving Repr, DecidableEq

namespace Store

/-- Change the global. -/
def setGlobal (store : Store) (value : Int32) : Store := { store with global := value }

/-- Make a cell: its number, and the store with it. -/
def create (store : Store) : Nat × Store :=
  (store.cells.length, { store with cells := store.cells ++ [some {}] })

/-- The cell of a number, unless it was dropped. -/
def cell? (store : Store) (index : Nat) : Option Cell := store.cells[index]?.join

/-- Write to a cell. There is no store after writing to one that is not there. -/
def write? (store : Store) (index : Nat) (value : Int32) : Option Store := do
  let cell ← store.cell? index
  return { store with cells := store.cells.set index (some (cell.write value)) }

/-- Drop a cell. There is no store after dropping one that is not there. -/
def drop? (store : Store) (index : Nat) : Option Store := do
  let _ ← store.cell? index
  return { store with cells := store.cells.set index none }

/-- What a call of the demonstration sees. -/
structure View where
  /-- The value that lives as long as the program. -/
  global : Int32
  /-- The value that lives as long as the call. -/
  bar : Int32
  /-- The value that lives as long as its owner. -/
  baz : Cell
deriving Repr, DecidableEq

/-- One value of each storage duration, as a call of the demonstration finds them. -/
def demo (store : Store) : View := { global := store.global, bar := 42, baz := {} }

end Store

end Primer.Storage
