import Primer.Table
import Primer.Log
import Primer.Lang.Stmt

/-!
# The machine that runs statements

A `Machine` holds the symbol table, the number of assignments carried out, and, if it was asked to
record, a log with the whole symbol table after each assignment. Actions of the machine (`Exec`)
either finish or stop with a `Fault`, and in both cases leave a machine: what was assigned before
a fault stays assigned.

A loop has a budget of iterations that is counted anew each time the loop is entered. The test
comes first, so a loop that needs exactly its budget finishes.
-/

namespace Primer.Lang

/-- Why a program stopped before its end. -/
inductive Fault where
  /-- An operation had no result. -/
  | arith (cause : ArithFault)
  /-- A loop wanted to go on after `limit` iterations. -/
  | loopLimit (limit : Nat)
  /-- The history had no room for the symbol table. -/
  | history (cause : Log.Full)
deriving Repr, DecidableEq

/-- The text shown for a stopped program. -/
def Fault.message : Fault → String
  | .arith cause => cause.message
  | .loopLimit limit => "Loop exceeded " ++ toString limit ++ " iterations"
  | .history cause => "History operation failed: " ++ cause.message

/-- The symbol table as it was right after the assignment numbered `step`, counted from one. -/
structure Snapshot where
  step : Nat
  symbols : Table Int32
deriving Repr, DecidableEq

/-- The room one variable takes up: the bytes of its name and four bytes for its value. -/
def entryCharge (entry : String × Int32) : Nat := entry.1.utf8ByteSize + 4

/-- The room a snapshot takes up: its variables, and eight bytes for the step number. -/
def Snapshot.size (snapshot : Snapshot) : Nat := total entryCharge snapshot.symbols.entries + 8

instance : Sized Snapshot := ⟨Snapshot.size⟩

/-- The state of a running program. -/
structure Machine where
  symbols : Table Int32 := {}
  steps : Nat := 0
  history : Option (Log Snapshot) := none
deriving Repr

namespace Machine

/-- A machine that keeps no history. -/
def plain : Machine := {}

/-- A machine that records every assignment in a log of the given size. -/
def recording (limit : Nat) : Machine := { history := some (Log.empty limit) }

/-- What a variable reads as: its value, or zero before its first assignment. -/
def read (machine : Machine) (name : String) : Int32 := (machine.symbols.find? name).getD 0

/-- The value of an expression in the present state. -/
def evaluate (machine : Machine) (expr : Expr) : Except Fault Int32 :=
  (expr.eval machine.read).mapError .arith

/-- One line `name: value` for each variable, in the order of first assignment. -/
def render (machine : Machine) : String :=
  String.join (machine.symbols.entries.map fun entry =>
    entry.1 ++ ": " ++ toString entry.2.toInt ++ "\n")

end Machine

/-- Actions of the machine. A fault keeps the state in which it arose. -/
abbrev Exec := EStateM Fault Machine

namespace Exec

/-- The value of an expression, or the fault that it has none. -/
def evaluate (expr : Expr) : Exec Int32 := fun machine =>
  match machine.evaluate expr with
  | .ok value => .ok value machine
  | .error fault => .error fault machine

/-- Give a variable a value and count the assignment; a machine with a history then records the
new symbol table. A full history is a fault, though the variable has its new value already. -/
def store (name : String) (value : Int32) : Exec Unit := fun machine =>
  let symbols := machine.symbols.insert name value
  let steps := machine.steps + 1
  match machine.history with
  | none => .ok () { symbols, steps, history := none }
  | some log =>
    match log.push ⟨steps, symbols⟩ with
    | .ok longer => .ok () { symbols, steps, history := some longer }
    | .error full => .error (.history full) { symbols, steps, history := some log }

/-- Run the body while the test is not zero, at most `budget` times. A test that still holds then
is the fault that the loop exceeded its `limit`. -/
def repeatWhile (limit : Nat) (test : Expr) (body : Exec Unit) : (budget : Nat) → Exec Unit
  | 0 => do
    if (← evaluate test) ≠ 0 then
      throw (.loopLimit limit)
  | budget + 1 => do
    if (← evaluate test) ≠ 0 then
      body
      repeatWhile limit test body budget

end Exec

mutual

/-- Run a statement with at most `limit` iterations for each entry into a loop. -/
def Stmt.exec (limit : Nat) : Stmt → Exec Unit
  | .assign name value => do
    Exec.store name (← Exec.evaluate value)
  | .block body => Stmt.execAll limit body
  | .branch test yes no => do
    if (← Exec.evaluate test) ≠ 0 then
      yes.exec limit
    else
      no.exec limit
  | .loop test body => Exec.repeatWhile limit test (body.exec limit) limit

/-- Run statements one after another. -/
def Stmt.execAll (limit : Nat) : List Stmt → Exec Unit
  | [] => pure ()
  | first :: rest => do
    first.exec limit
    Stmt.execAll limit rest

end

/-- How a machine is set up. -/
structure Settings where
  /-- Iterations allowed for each entry into a loop. -/
  loopLimit : Nat := 1000000
  /-- Whether assignments are recorded. -/
  recordHistory : Bool := false
  /-- Room for recorded symbol tables. -/
  historyLimit : Nat := 16777216
deriving Repr, DecidableEq

/-- The machine that a program starts on. -/
def Settings.machine (settings : Settings) : Machine :=
  if settings.recordHistory then .recording settings.historyLimit else .plain

/-- Run a program: the machine it leaves, and whether it finished. -/
def Machine.run (limit : Nat) (program : Stmt) (machine : Machine) : Except Fault Unit × Machine :=
  match program.exec limit machine with
  | .ok () after => (.ok (), after)
  | .error fault after => (.error fault, after)

end Primer.Lang
