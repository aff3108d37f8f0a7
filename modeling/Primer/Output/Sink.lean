import Primer.Text.Utf8

/-!
# Sinks for bytes

A `Sink` takes bytes, possibly fewer than it was offered. `writeAll` keeps offering what is left
until all is taken; a sink that takes nothing ends the attempt.
-/

namespace Primer.Output

open Primer.Text

/-- Why a write did not come to its end. -/
inductive WriteFault where
  /-- The bytes are not UTF-8. -/
  | invalidText (cause : Utf8.Error)
  /-- The sink took nothing though there was something to take. -/
  | nothingTaken
deriving Repr, DecidableEq

/-- The text shown for a write that did not come to its end. -/
def WriteFault.message : WriteFault → String
  | .invalidText cause => cause.message
  | .nothingTaken => "failed to write whole buffer"

/-- Actions on a sink. What was done to the sink before a fault stays done. -/
abbrev Writing (σ : Type) := EStateM WriteFault σ

/-- Carry out an action: what it comes to, and the sink after it. -/
def Writing.attempt {σ α : Type} (action : Writing σ α) (sink : σ) : Except WriteFault α × σ :=
  match action sink with
  | .ok value after => (.ok value, after)
  | .error fault after => (.error fault, after)

namespace Writing

variable {σ α β : Type}

@[simp] theorem attempt_pure (value : α) (sink : σ) :
    (pure value : Writing σ α).attempt sink = (.ok value, sink) := rfl

@[simp] theorem attempt_throw (fault : WriteFault) (sink : σ) :
    (throw fault : Writing σ α).attempt sink = (.error fault, sink) := rfl

@[simp] theorem attempt_get (sink : σ) : (get : Writing σ σ).attempt sink = (.ok sink, sink) := rfl

@[simp] theorem attempt_modify (change : σ → σ) (sink : σ) :
    (modify change : Writing σ PUnit).attempt sink = (.ok (), change sink) := rfl

/-- An action goes on where the one before it left the sink, unless that one failed. -/
theorem attempt_bind (action : Writing σ α) (next : α → Writing σ β) (sink : σ) :
    (action >>= next).attempt sink =
      match action.attempt sink with
      | (.ok value, after) => (next value).attempt after
      | (.error fault, after) => (.error fault, after) := by
  simp only [attempt, bind, EStateM.bind]
  cases action sink <;> rfl

end Writing

/-- Something that takes bytes. -/
class Sink (σ : Type) where
  /-- Offer bytes: how many of them were taken, from the first on. -/
  write : List UInt8 → Writing σ Nat

/-- Offer bytes until all are taken. -/
def writeAll {σ : Type} [Sink σ] (bytes : List UInt8) : Writing σ Unit := do
  match bytes with
  | [] => return
  | first :: rest =>
    match ← Sink.write (first :: rest) with
    | 0 => throw .nothingTaken
    | taken + 1 => writeAll (rest.drop taken)
termination_by bytes.length
decreasing_by
  simp only [List.length_drop, List.length_cons]
  omega

/-! ## What is offered again -/

section

variable {σ : Type} [Sink σ]

@[simp] theorem attempt_writeAll_nil (sink : σ) : (writeAll []).attempt sink = (.ok (), sink) := by
  rw [writeAll]
  rfl

/-- One round of writing all bytes: after a write that took some of them, the others are still to be
written. -/
theorem attempt_writeAll_cons (first : UInt8) (rest : List UInt8) (sink : σ) :
    (writeAll (first :: rest)).attempt sink =
      match (Sink.write (first :: rest)).attempt sink with
      | (.ok 0, after) => (.error .nothingTaken, after)
      | (.ok (taken + 1), after) => (writeAll (rest.drop taken)).attempt after
      | (.error fault, after) => (.error fault, after) := by
  rw [writeAll, Writing.attempt_bind]
  rcases (Sink.write (first :: rest)).attempt sink with ⟨fault | _ | taken, after⟩ <;> rfl

end

end Primer.Output
