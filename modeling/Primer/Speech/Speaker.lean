import Primer.Output.Throttle

/-!
# Speakers

A speaker says its line to a sink. Who speaks may be known from the type, or only from a `Handle`
that carries some speaker together with its way of speaking; a handle is itself a speaker. The way
to a speaker makes no difference to what is said.
-/

namespace Primer.Speech

open Primer.Output

universe u

/-- Something that can speak. -/
class Speaker (α : Type u) where
  /-- Say the line to a sink. -/
  speak {σ : Type} [Sink σ] : α → Writing σ Unit

/-- A speaker of a type that is not known. -/
structure Handle where
  {α : Type}
  [speaker : Speaker α]
  value : α

/-- Let the speaker behind a handle speak. -/
def Handle.speak {σ : Type} [Sink σ] (handle : Handle) : Writing σ Unit :=
  handle.speaker.speak handle.value

instance : Speaker Handle := ⟨Handle.speak⟩

/-- A cow. -/
structure Cow where
deriving Repr, DecidableEq

/-- What a cow says. -/
def Cow.line : List UInt8 := Text.Utf8.encode "Moo\n".toList

instance : Speaker Cow := ⟨fun _ => writeAll Cow.line⟩

/-- A speaker that says given bytes. -/
structure Reciter where
  line : List UInt8
deriving Repr, DecidableEq

instance : Speaker Reciter := ⟨fun reciter => writeAll reciter.line⟩

/-- The ways to a speaker. -/
inductive Route where
  /-- By its own type. -/
  | direct
  /-- Through a handle. -/
  | dynamic
  /-- Through a handle taken as a speaker in its own right. -/
  | erased
deriving Repr, DecidableEq

/-- Let a speaker speak by a given way. -/
def Route.speak {α σ : Type} [Speaker α] [Sink σ] (route : Route) (speaker : α) : Writing σ Unit :=
  match route with
  | .direct => Speaker.speak speaker
  | .dynamic => (Handle.mk speaker).speak
  | .erased => Speaker.speak (Handle.mk speaker)

/-- The demonstration: a cow speaks through a handle. -/
def demo {σ : Type} [Sink σ] : Writing σ Unit := Route.dynamic.speak Cow.mk

/-- One request to speak. -/
inductive Call where
  /-- Give the demonstration. -/
  | demo
  /-- Let a cow speak. -/
  | cow (route : Route)
  /-- Let a reciter say given bytes. -/
  | recite (route : Route) (line : List UInt8)
deriving Repr, DecidableEq

/-- Carry out a request. -/
def Call.perform {σ : Type} [Sink σ] : Call → Writing σ Unit
  | .demo => Speech.demo
  | .cow route => route.speak Cow.mk
  | .recite route line => route.speak (Reciter.mk line)

/-- Carry out requests one after another, also after one that failed: what each comes to, and the
sink after it. -/
def Call.performAll {σ : Type} [Sink σ] (sink : σ) : List Call → List (Except WriteFault Unit × σ)
  | [] => []
  | call :: rest =>
    let outcome := call.perform.attempt sink
    outcome :: performAll outcome.2 rest

end Primer.Speech
