import Primer.Memory.Fault

/-!
# Values of slots, and integers as bytes

A slot holds an integer, a pointer, or nothing yet. In the heap an integer is four bytes, the lowest
first; a number is taken apart into bytes and put together again over the natural numbers.
-/

namespace Primer.Memory

/-- What a slot holds. -/
inductive Value where
  | int (value : Int32)
  | pointer (target : Address)
  | uninitialized
deriving Repr, DecidableEq

namespace Value

/-- A slot that nobody has written. -/
instance : Inhabited Value := ⟨.uninitialized⟩

/-- Whether something was written. -/
def isInitialized : Value → Bool
  | uninitialized => false
  | _ => true

/-- The integer, if it is one. -/
def int? : Value → Option Int32
  | int value => some value
  | _ => none

/-- The target, if it is a pointer. -/
def pointer? : Value → Option Address
  | pointer target => some target
  | _ => none

/-- The integer stored at an address, or why there is none. -/
def expectInt (value : Value) (address : Address) : Except Fault Int32 :=
  match value with
  | int value => .ok value
  | pointer _ => .error (.typeMismatch "int" address)
  | uninitialized => .error (.uninitializedRead address)

end Value

/-- The lowest `count` bytes of a number, the lowest first. -/
def littleEndian : (count : Nat) → Nat → List UInt8
  | 0, _ => []
  | count + 1, number => UInt8.ofNat number :: littleEndian count (number / 256)

/-- The number whose bytes these are, the lowest first. -/
def ofLittleEndian : List UInt8 → Nat
  | [] => 0
  | byte :: rest => byte.toNat + 256 * ofLittleEndian rest

/-- An integer as bytes of the heap. -/
def intToBytes (value : Int32) : List UInt8 := littleEndian wordSize value.toUInt32.toNat

/-- The integer that bytes of the heap stand for. -/
def intOfBytes (bytes : List UInt8) : Int32 := (UInt32.ofNat (ofLittleEndian bytes)).toInt32

/-! ## Bytes and numbers -/

@[simp] theorem length_littleEndian (count number : Nat) :
    (littleEndian count number).length = count := by
  induction count generalizing number with
  | zero => rfl
  | succ count ih => simp [littleEndian, ih]

/-- Four bytes hold a number below two to the 32nd. -/
theorem ofLittleEndian_littleEndian (number : Nat) :
    ofLittleEndian (littleEndian wordSize number) = number % 4294967296 := by
  simp only [wordSize, littleEndian, ofLittleEndian, UInt8.toNat_ofNat']
  omega

@[simp] theorem length_intToBytes (value : Int32) : (intToBytes value).length = wordSize := by
  simp [intToBytes]

/-- An integer taken apart and put together is itself. -/
@[simp] theorem intOfBytes_intToBytes (value : Int32) : intOfBytes (intToBytes value) = value := by
  have small : value.toUInt32.toNat % 4294967296 = value.toUInt32.toNat :=
    Nat.mod_eq_of_lt value.toUInt32.toNat_lt
  simp [intOfBytes, intToBytes, ofLittleEndian_littleEndian, small]

end Primer.Memory
