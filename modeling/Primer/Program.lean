import Primer.Speech.Speaker

/-!
# The program

The program lets a cow speak. It takes no notice of its arguments.
-/

namespace Primer.Program

open Primer.Output

/-- What a run of the program shows. -/
structure Exit where
  code : UInt32 := 0
  stdout : String := ""
  stderr : String := ""
deriving Repr, DecidableEq

/-- Run the program with arguments. -/
def run (_args : List String) : Exit :=
  match Speech.demo.attempt Console.empty with
  | (.ok (), console) => { stdout := console.text }
  | (.error fault, console) => { code := 1, stdout := console.text, stderr := fault.message }

end Primer.Program
