/-!
# The address space

Addresses are natural numbers. The stack lies lowest, then the globals, then the heap; a slot of
the stack or of the globals is four bytes wide, and a block of the heap has at most `blockCapacity`
bytes.
-/

namespace Primer.Memory

/-- Addresses. -/
abbrev Address := Nat

/-- The width of an integer and of a slot, in bytes. -/
def wordSize : Nat := 4

/-- Where the slots of the stack begin. -/
def stackStart : Address := 0x4

/-- Where the globals begin and the stack has to end. -/
def globalStart : Address := 0x1000

/-- Where the heap begins and the globals have to end. -/
def heapStart : Address := 0x10000000

/-- The most bytes that one block can have: half of the addresses of a machine with 64-bit words. -/
def blockCapacity : Nat := 0x7fffffffffffffff

/-- The parts of the address space, one for each storage duration. -/
inductive Region where
  | stack
  | global
  | heap
deriving Repr, DecidableEq

/-- The region an address belongs to. -/
def Region.of (address : Address) : Region :=
  if heapStart ≤ address then .heap
  else if globalStart ≤ address then .global
  else .stack

theorem Region.of_eq_heap_iff {address : Address} : of address = .heap ↔ heapStart ≤ address := by
  unfold of
  by_cases hheap : heapStart ≤ address
  · simp [hheap]
  · by_cases hglobal : globalStart ≤ address <;> simp [hheap, hglobal]

theorem Region.of_eq_global_iff {address : Address} :
    of address = .global ↔ globalStart ≤ address ∧ address < heapStart := by
  unfold of
  by_cases hheap : heapStart ≤ address
  · simp [hheap]
  · by_cases hglobal : globalStart ≤ address
    · simp [hheap, hglobal, Nat.lt_of_not_le hheap]
    · simp [hheap, hglobal]

/-- Whatever lies below the globals belongs to the stack, also the addresses below its first
slot. -/
theorem Region.of_eq_stack_iff {address : Address} : of address = .stack ↔ address < globalStart := by
  have hregions : globalStart ≤ heapStart := by decide
  unfold of
  by_cases hheap : heapStart ≤ address
  · simp [hheap, Nat.le_trans hregions hheap]
  · by_cases hglobal : globalStart ≤ address
    · simp [hheap, hglobal]
    · simp [hheap, hglobal, Nat.lt_of_not_le hglobal]

end Primer.Memory
