import Primer.Memory.Layout

/-!
# Faults of the memory

One constructor for each way in which an access to the memory can go wrong, with what is known about
it, and the text shown for it. After `capacityOverflow` a program does not go on; all other faults
are reported to it.
-/

namespace Primer.Memory

/-- Why an operation on the memory was refused. -/
inductive Fault where
  /-- A request for `requested` bytes over the `allocated` ones would exceed `limit`. -/
  | outOfMemory (requested allocated limit : Nat)
  /-- A block of this size cannot be asked for. -/
  | invalidSize (size : Nat)
  /-- The block at this address was released before. -/
  | doubleFree (address : Address)
  /-- No block was ever handed out at this address. -/
  | invalidFree (address : Address)
  /-- The block at this address has been released. -/
  | useAfterFree (address : Address)
  /-- Nothing lives at this address. -/
  | invalidAddress (address : Address)
  /-- What is stored at this address was never written. -/
  | uninitializedRead (address : Address)
  /-- The value at this address is not of the expected kind. -/
  | typeMismatch (expected : String) (address : Address)
  /-- `length` bytes from `offset` on leave a block of the given size. -/
  | bufferOverrun (offset length size : Nat)
  /-- No variable has this name. -/
  | undefinedVariable (name : String)
  /-- A global has this name already. -/
  | duplicateGlobal (name : String)
  /-- No function is running. -/
  | noStackFrame
  /-- There is no slot left below `limit`. -/
  | stackOverflow (limit : Address)
  /-- More bytes were asked for than a block can have. The program stops here. -/
  | capacityOverflow
deriving Repr, DecidableEq

/-- An address as it is shown: hexadecimal, in lower case. -/
def Address.text (address : Address) : String :=
  "0x" ++ String.ofList (Nat.toDigits 16 address)

/-- The text shown for a fault. -/
def Fault.message : Fault → String
  | .outOfMemory requested allocated limit =>
    "Out of memory: requested " ++ toString requested ++ " bytes, " ++ toString allocated ++
      " already allocated, limit is " ++ toString limit
  | .invalidSize size => "Invalid allocation size: " ++ toString size ++ " (must be positive)"
  | .doubleFree address => "Double free detected at address " ++ Address.text address
  | .invalidFree address =>
    "Invalid free: address " ++ Address.text address ++ " was never allocated"
  | .useAfterFree address =>
    "Use-after-free: address " ++ Address.text address ++ " has been freed"
  | .invalidAddress address =>
    "Invalid pointer: address " ++ Address.text address ++ " not in any live allocation"
  | .uninitializedRead address => "Uninitialized read at address " ++ Address.text address
  | .typeMismatch expected address =>
    "Type mismatch at address " ++ Address.text address ++ ": expected " ++ expected
  | .bufferOverrun offset length size =>
    "Buffer overrun: " ++ toString length ++ " bytes at offset " ++ toString offset ++
      " in block of size " ++ toString size
  | .undefinedVariable name => "Undefined variable '" ++ name ++ "'"
  | .duplicateGlobal name => "Global '" ++ name ++ "' is already defined"
  | .noStackFrame => "No stack frame available"
  | .stackOverflow limit => "Stack overflow: no slot left below " ++ Address.text limit
  | .capacityOverflow => "capacity overflow"

end Primer.Memory
