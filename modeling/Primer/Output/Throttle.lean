import Primer.Output.Console

/-!
# Consoles that take little at a time

A `Throttle` passes bytes on to a console, at most `chunk` in one write and at most `room` in all.
-/

namespace Primer.Output

/-- A console behind limits; nothing stands for no limit. -/
structure Throttle where
  console : Console := {}
  /-- How many bytes may still be passed on. -/
  room : Option Nat := none
  /-- How many bytes one write may pass on. -/
  chunk : Option Nat := none
deriving Repr, DecidableEq

/-- The smaller of a number and a limit. -/
def within (limit : Option Nat) (count : Nat) : Nat :=
  match limit with
  | some limit => min count limit
  | none => count

namespace Throttle

/-- How many of `offered` bytes the next write passes on. -/
def share (throttle : Throttle) (offered : Nat) : Nat :=
  within throttle.chunk (within throttle.room offered)

/-- Act on the console behind the limits. -/
def onConsole {α : Type} (action : Writing Console α) : Writing Throttle α := fun throttle =>
  match action throttle.console with
  | .ok value console => .ok value { throttle with console }
  | .error fault console => .error fault { throttle with console }

/-- What is done to the console of a throttle leaves the limits alone. -/
theorem attempt_onConsole {α : Type} (action : Writing Console α) (throttle : Throttle) :
    (onConsole action).attempt throttle =
      ((action.attempt throttle.console).1,
        { throttle with console := (action.attempt throttle.console).2 }) := by
  simp only [Writing.attempt, onConsole]
  cases action throttle.console <;> rfl

/-- Pass on as many bytes as the limits allow. What the console refuses uses up no room. -/
def write (bytes : List UInt8) : Writing Throttle Nat := do
  let count := (← get).share bytes.length
  if count = 0 then
    return 0
  else
    let _ ← onConsole (Console.write (bytes.take count))
    modify fun throttle => { throttle with room := throttle.room.map fun room => room - count }
    return count

instance : Sink Throttle := ⟨write⟩

theorem sink_write (bytes : List UInt8) : Sink.write bytes = write bytes := rfl

/-- A write passes its share of the bytes on to the console. The room shrinks only if the console
takes them. -/
theorem attempt_write {throttle : Throttle} {bytes : List UInt8} {count : Nat}
    (shared : throttle.share bytes.length = count) :
    (write bytes).attempt throttle =
      if count = 0 then (.ok 0, throttle)
      else
        match (Console.write (bytes.take count)).attempt throttle.console with
        | (.ok _, console) =>
          (.ok count, { throttle with console, room := throttle.room.map fun room => room - count })
        | (.error fault, console) => (.error fault, { throttle with console }) := by
  unfold write
  simp only [Writing.attempt_bind, Writing.attempt_get, shared]
  split
  · rfl
  · simp only [Writing.attempt_bind, attempt_onConsole, Writing.attempt_modify,
      Writing.attempt_pure]
    rcases (Console.write (bytes.take count)).attempt throttle.console with ⟨fault | _, console⟩ <;>
      rfl

end Throttle

end Primer.Output
