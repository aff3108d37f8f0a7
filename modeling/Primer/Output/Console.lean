import Primer.Output.Sink
import Primer.Text.Lines

/-!
# The console

A console collects text. Bytes offered to it are taken all at once if they are UTF-8, and not at all
otherwise. A `Request` is anything that can be asked of a console, and `serve` answers requests one
after another.
-/

namespace Primer.Output

open Primer.Text

/-- The text printed so far. -/
structure Console where
  text : String := ""
deriving Repr, DecidableEq

/-- What can be asked of a console. -/
inductive Request where
  | print (text : String)
  | write (bytes : List UInt8)
  | writeAll (bytes : List UInt8)
  | flush
deriving Repr, DecidableEq

/-- What a console replies. -/
inductive Reply where
  | done
  /-- So many bytes were taken. -/
  | taken (count : Nat)
  | fault (fault : WriteFault)
deriving Repr, DecidableEq

namespace Console

/-- A console that nobody has printed to. -/
def empty : Console := {}

/-- Add text at the end. -/
def print (console : Console) (text : String) : Console := ⟨console.text ++ text⟩

/-- Add the text that bytes stand for, all of it or nothing. -/
def write (bytes : List UInt8) : Writing Console Nat := do
  match Utf8.decode bytes with
  | .ok chars =>
    modify fun console => console.print (String.ofList chars)
    return bytes.length
  | .error cause => throw (.invalidText cause)

instance : Sink Console := ⟨write⟩

theorem sink_write (bytes : List UInt8) : Sink.write bytes = write bytes := rfl

/-- Pass on what was held back. A console holds nothing back. -/
def flush : Writing Console Unit := pure ()

/-- The lines printed so far. -/
def lines (console : Console) : List String := Text.lines console.text

/-- Whether nothing was printed. -/
def isEmpty (console : Console) : Bool := console.text.isEmpty

/-- Carry out one request. -/
def step (console : Console) : Request → Reply × Console
  | .print text => (.done, console.print text)
  | .write bytes => reply .taken ((write bytes).attempt console)
  | .writeAll bytes => reply (fun _ => .done) ((writeAll bytes).attempt console)
  | .flush => reply (fun _ => .done) (flush.attempt console)
where
  /-- Reply what an action came to. -/
  reply {α : Type} (success : α → Reply) : Except WriteFault α × Console → Reply × Console
    | (.ok value, after) => (success value, after)
    | (.error fault, after) => (.fault fault, after)

/-- Carry out requests one after another: the replies, and the console after all of them. -/
def serve (console : Console) : List Request → List Reply × Console
  | [] => ([], console)
  | request :: rest =>
    let (reply, after) := console.step request
    let (replies, last) := after.serve rest
    (reply :: replies, last)

end Console

end Primer.Output
