import Primer.Memory.Value

/-!
# Globals

A global is defined once and keeps its slot for ever. Slots are handed out one after another from
`globalStart` on, in the order of definition.
-/

namespace Primer.Memory

/-- A global variable and its slot. -/
structure Global where
  name : String
  value : Value
  address : Address
deriving Repr, DecidableEq

/-- The globals, in order of definition. -/
structure Globals where
  vars : List Global := []
deriving Repr, DecidableEq

namespace Globals

/-- No globals. -/
def empty : Globals := {}

/-- How many globals there are. -/
def size (globals : Globals) : Nat := globals.vars.length

/-- The slot that the next definition gets. -/
def next (globals : Globals) : Address := globalStart + wordSize * globals.size

/-- The global of a name. -/
def find? (globals : Globals) (name : String) : Option Global :=
  globals.vars.find? fun var => var.name = name

/-- The global whose slot begins at an address. -/
def at? (globals : Globals) (address : Address) : Option Global :=
  globals.vars.find? fun var => var.address = address

/-- Define a global: its slot, and the globals with it. A name can be defined only once. -/
def define (globals : Globals) (name : String) (value : Value) :
    Except Fault (Address × Globals) :=
  if (globals.find? name).isSome then
    .error (.duplicateGlobal name)
  else if heapStart < globals.next + wordSize then
    .error (.outOfMemory wordSize (globals.size * wordSize) (heapStart - globalStart))
  else
    .ok (globals.next, ⟨globals.vars ++ [⟨name, value, globals.next⟩]⟩)

/-- Give a new value to each global that fits a description. -/
def assign (globals : Globals) (which : Global → Bool) (value : Value) : Globals :=
  ⟨globals.vars.map fun var => if which var then { var with value } else var⟩

/-- Give a global a new value. -/
def set (globals : Globals) (name : String) (value : Value) : Except Fault Globals :=
  if (globals.find? name).isSome then
    .ok (globals.assign (fun var => var.name = name) value)
  else
    .error (.undefinedVariable name)

/-- Give the global at an address a new value. -/
def setAt (globals : Globals) (address : Address) (value : Value) : Except Fault Globals :=
  if (globals.at? address).isSome then
    .ok (globals.assign (fun var => var.address = address) value)
  else
    .error (.invalidAddress address)

end Globals

end Primer.Memory
