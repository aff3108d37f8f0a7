import Primer.Table
import Primer.Memory.Value

/-!
# The call stack

Each running function has a `Frame` with its locals. Slots are handed out upward from `stackStart`;
when a frame is left, the next slot is again the one at which the frame began. Names are looked up
in the innermost frame only, addresses in all frames.

Beside its locals a frame keeps the order in which names were declared. Taking a local out of the
frame leaves its name in that order, so that a name declared again after that stands there twice.
-/

namespace Primer.Memory

/-- A local variable's value and slot. -/
structure Local where
  value : Value
  address : Address
deriving Repr, DecidableEq

/-- What a running function has on the stack. -/
structure Frame where
  function : String
  /-- The slot that was next when the function was entered. -/
  base : Address
  locals : Table Local := {}
  /-- The names in order of declaration. -/
  order : List String := []
deriving Repr, DecidableEq

namespace Frame

/-- The locals in order of declaration, names that are gone left out. -/
def orderedLocals (frame : Frame) : List (String × Local) :=
  frame.order.filterMap fun name => (frame.locals.find? name).map fun var => (name, var)

/-- The local whose slot begins at an address. -/
def at? (frame : Frame) (address : Address) : Option Local :=
  frame.locals.values.find? fun var => var.address = address

/-- Give the local at an address a new value. -/
def setAt (frame : Frame) (address : Address) (value : Value) : Frame :=
  { frame with
    locals := frame.locals.map fun var => if var.address = address then { var with value } else var }

end Frame

/-- The running functions and the next slot. -/
structure Stack where
  /-- The frames, innermost first. -/
  frames : List Frame := []
  next : Address := stackStart
deriving Repr, DecidableEq

namespace Stack

/-- No function runs. -/
def empty : Stack := {}

/-- How many functions run. -/
def depth (stack : Stack) : Nat := stack.frames.length

/-- The innermost frame. -/
def current? (stack : Stack) : Option Frame := stack.frames.head?

/-- Enter a function. -/
def push (stack : Stack) (function : String) : Stack :=
  { stack with frames := { function, base := stack.next } :: stack.frames }

/-- Leave the innermost function: its frame, and the stack without it. -/
def pop? (stack : Stack) : Option (Frame × Stack) :=
  match stack.frames with
  | [] => none
  | frame :: frames => some (frame, { frames, next := frame.base })

/-- Declare a local of the innermost function: its slot, and the stack with it. A name that is
there already keeps its slot and gets the new value. -/
def declare (stack : Stack) (name : String) (value : Value) : Except Fault (Address × Stack) :=
  match stack.frames with
  | [] => .error .noStackFrame
  | frame :: frames =>
    match frame.locals.find? name with
    | some existing =>
      let locals := frame.locals.insert name { existing with value }
      .ok (existing.address, { stack with frames := { frame with locals } :: frames })
    | none =>
      if globalStart < stack.next + wordSize then
        .error (.stackOverflow globalStart)
      else
        let locals := frame.locals.insert name ⟨value, stack.next⟩
        let order := frame.order ++ [name]
        .ok (stack.next, {
          frames := { frame with locals, order } :: frames
          next := stack.next + wordSize })

/-- The local of a name in the innermost function. -/
def get (stack : Stack) (name : String) : Except Fault Local :=
  match stack.frames with
  | [] => .error .noStackFrame
  | frame :: _ =>
    match frame.locals.find? name with
    | some var => .ok var
    | none => .error (.undefinedVariable name)

/-- Give a local of the innermost function a new value. -/
def set (stack : Stack) (name : String) (value : Value) : Except Fault Stack :=
  match stack.frames with
  | [] => .error .noStackFrame
  | frame :: frames =>
    match frame.locals.find? name with
    | some var =>
      let locals := frame.locals.insert name { var with value }
      .ok { stack with frames := { frame with locals } :: frames }
    | none => .error (.undefinedVariable name)

/-- Take a local out of the innermost function: the local, if it was there, and the stack without
it. Neither the slot nor the place of the name in the order of declaration is given back. -/
def remove (stack : Stack) (name : String) : Except Fault (Option Local × Stack) :=
  match stack.frames with
  | [] => .error .noStackFrame
  | frame :: frames =>
    let locals := frame.locals.erase name
    .ok (frame.locals.find? name, { stack with frames := { frame with locals } :: frames })

/-- The local of any function whose slot begins at an address. -/
def at? (stack : Stack) (address : Address) : Option Local :=
  stack.frames.findSome? fun frame => frame.at? address

/-- Give the local at an address a new value. -/
def setAt (stack : Stack) (address : Address) (value : Value) : Except Fault Stack :=
  if (stack.at? address).isSome then
    .ok { stack with frames := stack.frames.map fun frame => frame.setAt address value }
  else
    .error (.invalidAddress address)

end Stack

end Primer.Memory
