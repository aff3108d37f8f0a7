import Primer.Program

/-!
# The command line
-/

/-- Run the program and show what it leaves. -/
def main (args : List String) : IO UInt32 := do
  let exit := Primer.Program.run args
  IO.print exit.stdout
  IO.eprint exit.stderr
  return exit.code
