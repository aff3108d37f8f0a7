import Primer.Memory.InPlace

/-!
# Blocks as a machine keeps them

A `Slab` is a block with its bytes in one array and a mark for each byte in another. Its size is a
number of 64 bits, and so are the offsets and lengths that it is asked for; their sum may take more
than 64 bits, and is then not the end of any range. A slab shows a `Block`.
-/

namespace Primer.Memory

/-- The sum of two numbers, if 64 bits hold it. A sum that has gone round is less than its parts. -/
def checkedSum (left right : UInt64) : Option UInt64 :=
  if left + right < left then none else some (left + right)

/-- Bytes that are written together. Their number has 64 bits. -/
structure Piece where
  bytes : List UInt8
  short : bytes.length < UInt64.size
deriving Repr, DecidableEq

/-- The number of bytes. -/
def Piece.length (piece : Piece) : UInt64 := UInt64.ofNatLT piece.bytes.length piece.short

/-- A block of bytes with marks. -/
structure Slab where
  /-- What was written to each place last, or zero. -/
  data : Array UInt8
  size : UInt64
  /-- Whether the block was given back. -/
  released : Bool := false
  /-- Which places were written. -/
  marks : Array Bool
deriving Repr, DecidableEq

namespace Slab

/-- A slab of the given size that nobody has written to. A program can have one only if the size is
within `blockCapacity`. -/
def fresh (size : UInt64) : Slab where
  data := Array.replicate size.toNat 0
  size := size
  marks := Array.replicate size.toNat false

/-- Where a range ends, if it lies in the slab. -/
def rangeEnd? (slab : Slab) (offset length : UInt64) : Option UInt64 :=
  (checkedSum offset length).filter fun stop => stop ≤ slab.size

/-- Whether a range lies in the slab and was written throughout. -/
def isInitialized (slab : Slab) (offset length : UInt64) : Bool :=
  match slab.rangeEnd? offset length with
  | some stop => (slab.marks.extract offset.toNat stop.toNat).all id
  | none => false

/-- Write bytes from an offset on, and mark their places. -/
def write (offset : UInt64) (piece : Piece) : InPlace Slab Unit := do
  let slab ← get
  match slab.rangeEnd? offset piece.length with
  | none => throw (.bufferOverrun offset.toNat piece.bytes.length slab.size.toNat)
  | some stop =>
    modify fun slab => { slab with data := overwrite slab.data offset.toNat piece.bytes }
    modify fun slab =>
      { slab with
        marks := overwrite slab.marks offset.toNat (List.replicate (stop - offset).toNat true) }

/-- What there is to see of a slab: the bytes in the places that are marked. -/
def block (slab : Slab) : Block where
  cells := Array.zipWith (fun byte mark => if mark then some byte else none) slab.data slab.marks
  released := slab.released

end Slab

/-! ## Sums and ranges -/

/-- The checked sum is the sum of the natural numbers, and there is none if 64 bits do not hold
it. -/
theorem checkedSum_eq_some_iff {left right sum : UInt64} :
    checkedSum left right = some sum ↔ sum.toNat = left.toNat + right.toNat := by
  have hleft := left.toNat_lt
  have hright := right.toNat_lt
  have hsum := sum.toNat_lt
  have hround := UInt64.toNat_add left right
  unfold checkedSum
  by_cases hless : left + right < left
  · rw [if_pos hless]
    rw [UInt64.lt_iff_toNat_lt] at hless
    simp only [reduceCtorEq, false_iff]
    omega
  · rw [if_neg hless, Option.some.injEq, ← UInt64.toNat_inj]
    rw [UInt64.lt_iff_toNat_lt] at hless
    omega

@[simp] theorem Piece.toNat_length (piece : Piece) : piece.length.toNat = piece.bytes.length :=
  UInt64.toNat_ofNatLT

namespace Slab

variable {slab : Slab} {offset length stop : UInt64}

theorem rangeEnd?_eq_some_iff :
    slab.rangeEnd? offset length = some stop ↔
      stop.toNat = offset.toNat + length.toNat ∧
        offset.toNat + length.toNat ≤ slab.size.toNat := by
  unfold rangeEnd?
  rw [Option.filter_eq_some_iff, checkedSum_eq_some_iff, decide_eq_true_iff,
    UInt64.le_iff_toNat_le]
  omega

/-- A range that lies in the slab has an end, whatever numbers it is given by. -/
theorem rangeEnd?_eq_none_iff :
    slab.rangeEnd? offset length = none ↔ slab.size.toNat < offset.toNat + length.toNat := by
  constructor
  · intro hnone
    apply Nat.lt_of_not_le
    intro hinside
    have hsum : (offset + length).toNat = offset.toNat + length.toNat := by
      have hsize := slab.size.toNat_lt
      rw [UInt64.toNat_add]
      omega
    have hsome := rangeEnd?_eq_some_iff.2 ⟨hsum, hinside⟩
    rw [hnone] at hsome
    cases hsome
  · intro hbeyond
    cases hend : slab.rangeEnd? offset length with
    | none => rfl
    | some stop => exact absurd (rangeEnd?_eq_some_iff.1 hend).2 (Nat.not_le_of_lt hbeyond)

end Slab

end Primer.Memory
