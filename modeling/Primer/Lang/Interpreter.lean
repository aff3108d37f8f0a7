import Primer.Lang.Machine

/-!
# Values and order apart

A running program keeps the values of its variables in a map, and apart from the map it lists their
names in the order of first assignment. An assignment changes the two one after the other.
Whatever shows the variables in order goes through the list and looks each name up, and finding a
name without a value there is an accident that no program asked for (`Halt.missing`).

An `Interpreter` is kept in this way and knows its settings. Its loops count their iterations up to
the limit. It shows what a `Machine` is.
-/

namespace Primer.Lang

/-- Why an interpreter stopped: its program faulted, or a listed name had no value. -/
inductive Halt where
  | fault (cause : Fault)
  | missing (name : String)
deriving Repr, DecidableEq

/-- The state of a running program, with values and order apart. -/
structure Interpreter where
  settings : Settings := {}
  /-- The values by name. Nobody relies on their order. -/
  values : Table Int32 := {}
  /-- The names in the order of first assignment. -/
  order : List String := []
  steps : Nat := 0
  history : Option (Log Snapshot) := none
deriving Repr

/-- The interpreter that a program starts on. -/
def Settings.interpreter (settings : Settings) : Interpreter where
  settings := settings
  history := if settings.recordHistory then some (.empty settings.historyLimit) else none

namespace Interpreter

/-- The value of a variable, if it was assigned. -/
def get? (interpreter : Interpreter) (name : String) : Option Int32 :=
  interpreter.values.find? name

/-- The value of an expression. A variable that was not assigned reads as zero. -/
def evaluate (interpreter : Interpreter) (expr : Expr) : Except Fault Int32 :=
  (expr.eval fun name => (interpreter.get? name).getD 0).mapError .arith

/-- A listed name with its value. -/
def entry (interpreter : Interpreter) (name : String) : Except Halt (String × Int32) :=
  match interpreter.get? name with
  | some value => .ok (name, value)
  | none => .error (.missing name)

/-- All variables in the order of first assignment. -/
def symbols (interpreter : Interpreter) : Except Halt (List (String × Int32)) :=
  interpreter.order.mapM interpreter.entry

/-- What there is to see of an interpreter. -/
def machine (interpreter : Interpreter) : Except Halt Machine := do
  return { symbols := ⟨← interpreter.symbols⟩, steps := interpreter.steps,
           history := interpreter.history }

/-- One line for each variable, in the order of first assignment. -/
def render (interpreter : Interpreter) : Except Halt String := do
  return (← interpreter.machine).render

end Interpreter

/-- Actions of an interpreter. What was done before a halt stays done. -/
abbrev Running := EStateM Halt Interpreter

namespace Running

/-- The value of an expression, or the fault that it has none. -/
def evaluate (expr : Expr) : Running Int32 := fun interpreter =>
  match interpreter.evaluate expr with
  | .ok value => .ok value interpreter
  | .error fault => .error (.fault fault) interpreter

/-- The variables in order, or the accident that a value is missing. -/
def symbols : Running (List (String × Int32)) := fun interpreter =>
  match interpreter.symbols with
  | .ok symbols => .ok symbols interpreter
  | .error halt => .error halt interpreter

/-- Record the variables, if there is a history. A full history is a fault. -/
def record : Running Unit := do
  match (← get).history with
  | none => return
  | some log =>
    let symbols ← symbols
    match log.push ⟨(← get).steps, ⟨symbols⟩⟩ with
    | .ok longer => modify fun interpreter => { interpreter with history := some longer }
    | .error full => throw (.fault (.history full))

/-- Give a variable a value: in the map, in the list if the map did not know it, and in the count.
Only then is the new state recorded. -/
def store (name : String) (value : Int32) : Running Unit := do
  let replaced := (← get).values.find? name
  modify fun interpreter => { interpreter with values := interpreter.values.insert name value }
  if replaced.isNone then
    modify fun interpreter => { interpreter with order := interpreter.order ++ [name] }
  modify fun interpreter => { interpreter with steps := interpreter.steps + 1 }
  record

/-- Run the body while the test is not zero. A test that holds after `limit` iterations is the fault
that the loop exceeded its limit. -/
def repeatWhile (limit : Nat) (test : Expr) (body : Running Unit) (iterations : Nat) :
    Running Unit := do
  if (← evaluate test) ≠ 0 then
    if iterations < limit then
      body
      repeatWhile limit test body (iterations + 1)
    else
      throw (.fault (.loopLimit limit))
termination_by limit - iterations

end Running

mutual

/-- Run a statement with at most as many iterations for each entry into a loop as the settings
allow. -/
def Stmt.run : Stmt → Running Unit
  | .assign name value => do
    Running.store name (← Running.evaluate value)
  | .block body => Stmt.runAll body
  | .branch test yes no => do
    if (← Running.evaluate test) ≠ 0 then
      yes.run
    else
      no.run
  | .loop test body => do
    let limit := (← get).settings.loopLimit
    Running.repeatWhile limit test body.run 0

/-- Run statements one after another. -/
def Stmt.runAll : List Stmt → Running Unit
  | [] => pure ()
  | first :: rest => do
    first.run
    Stmt.runAll rest

end

/-- Run a program: whether it finished, and the interpreter that it leaves. -/
def Interpreter.run (interpreter : Interpreter) (program : Stmt) :
    Except Halt Unit × Interpreter :=
  match program.run interpreter with
  | .ok () after => (.ok (), after)
  | .error halt after => (.error halt, after)

end Primer.Lang
