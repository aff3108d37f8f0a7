import Primer.Lang.Machine

/-!
# Natural semantics

The language by rules, without a machine: `Evaluates` says what an expression is worth in a symbol
table, and a `Derivation` is a tree that takes a statement from one table to another. A derivation
knows how often each of its loops went round, so a bound on loops is a property of trees
(`Derivation.Within`) and not one of the rules. `Finishes` says that there is a tree within a bound.

A run that goes over the bound has no tree. It is described from its start: `Reaches` says that a
statement comes to its turn, all before it having finished, and `Overruns` that a loop came to its
turn, went round as often as the bound allows, and had a test that still held.
-/

namespace Primer.Lang

/-- The value of an expression in a symbol table. An operation has the exact result of its operands,
and none if that is no 32-bit integer. -/
inductive Evaluates (symbols : Table Int32) : Expr → Int32 → Prop
  | number (value : Int32) : Evaluates symbols (.number value) value
  | known {name : String} {value : Int32} (found : symbols.find? name = some value) :
      Evaluates symbols (.var name) value
  | unknown {name : String} (missing : symbols.find? name = none) :
      Evaluates symbols (.var name) 0
  | binary {op : Op} {left right : Expr} {l r value : Int32} (hl : Evaluates symbols left l)
      (hr : Evaluates symbols right r) (divisor : op = .div → r ≠ 0)
      (exact : value.toInt = op.exact l.toInt r.toInt) :
      Evaluates symbols (.binary op left right) value

/-- A test holds if it has a value and the value is not zero. -/
def Holds (symbols : Table Int32) (test : Expr) : Prop :=
  ∃ value, Evaluates symbols test value ∧ value ≠ 0

/-- Derivations: how a statement takes one symbol table to another. -/
inductive Derivation : Stmt → Table Int32 → Table Int32 → Type
  | assign {name : String} {expr : Expr} {value : Int32} {start : Table Int32}
      (worth : Evaluates start expr value) :
      Derivation (.assign name expr) start (start.insert name value)
  | nil {start : Table Int32} : Derivation (.block []) start start
  | cons {first : Stmt} {rest : List Stmt} {start middle stop : Table Int32}
      (head : Derivation first start middle) (tail : Derivation (.block rest) middle stop) :
      Derivation (.block (first :: rest)) start stop
  | yes {test : Expr} {yes no : Stmt} {start stop : Table Int32} (holds : Holds start test)
      (taken : Derivation yes start stop) : Derivation (.branch test yes no) start stop
  | no {test : Expr} {yes no : Stmt} {start stop : Table Int32} (fails : Evaluates start test 0)
      (taken : Derivation no start stop) : Derivation (.branch test yes no) start stop
  | done {test : Expr} {body : Stmt} {start : Table Int32} (fails : Evaluates start test 0) :
      Derivation (.loop test body) start start
  | again {test : Expr} {body : Stmt} {start middle stop : Table Int32} (holds : Holds start test)
      (once : Derivation body start middle) (rest : Derivation (.loop test body) middle stop) :
      Derivation (.loop test body) start stop

namespace Derivation

/-- How often the loop at the root of a derivation goes round. -/
def iterations {stmt : Stmt} {start stop : Table Int32} : Derivation stmt start stop → Nat
  | again _ _ rest => rest.iterations + 1
  | _ => 0

/-- Each execution of a loop in the derivation goes round at most `limit` times. -/
def Within (limit : Nat) {stmt : Stmt} {start stop : Table Int32} :
    Derivation stmt start stop → Prop
  | assign _ => True
  | nil => True
  | cons head tail => head.Within limit ∧ tail.Within limit
  | yes _ taken => taken.Within limit
  | no _ taken => taken.Within limit
  | done _ => True
  | again _ once rest => rest.iterations + 1 ≤ limit ∧ once.Within limit ∧ rest.Within limit

end Derivation

/-- A statement takes one table to another, and each loop on the way goes round at most `limit`
times. -/
def Finishes (limit : Nat) (stmt : Stmt) (start stop : Table Int32) : Prop :=
  ∃ derivation : Derivation stmt start stop, derivation.Within limit

/-- A loop goes round `count` times and is then to be tested again. -/
inductive Iterates (limit : Nat) (test : Expr) (body : Stmt) :
    (count : Nat) → Table Int32 → Table Int32 → Prop
  | zero {start : Table Int32} : Iterates limit test body 0 start start
  | succ {count : Nat} {start middle stop : Table Int32} (holds : Holds start test)
      (once : Finishes limit body start middle) (more : Iterates limit test body count middle stop) :
      Iterates limit test body (count + 1) start stop

/-- Running a statement comes to a part of it: all that comes before the part has finished. -/
inductive Reaches (limit : Nat) : Stmt → Table Int32 → Stmt → Table Int32 → Prop
  | here {stmt : Stmt} {start : Table Int32} : Reaches limit stmt start stmt start
  | head {first part : Stmt} {rest : List Stmt} {start there : Table Int32}
      (next : Reaches limit first start part there) :
      Reaches limit (.block (first :: rest)) start part there
  | tail {first part : Stmt} {rest : List Stmt} {start middle there : Table Int32}
      (done : Finishes limit first start middle)
      (next : Reaches limit (.block rest) middle part there) :
      Reaches limit (.block (first :: rest)) start part there
  | yes {test : Expr} {yes no part : Stmt} {start there : Table Int32} (holds : Holds start test)
      (next : Reaches limit yes start part there) :
      Reaches limit (.branch test yes no) start part there
  | no {test : Expr} {yes no part : Stmt} {start there : Table Int32}
      (fails : Evaluates start test 0) (next : Reaches limit no start part there) :
      Reaches limit (.branch test yes no) start part there
  | loop {count : Nat} {test : Expr} {body part : Stmt} {start middle there : Table Int32}
      (allowed : count < limit) (rounds : Iterates limit test body count start middle)
      (holds : Holds middle test) (next : Reaches limit body middle part there) :
      Reaches limit (.loop test body) start part there

/-- Some execution of a loop has gone round `limit` times, and then its test holds. -/
def Overruns (limit : Nat) (stmt : Stmt) (start : Table Int32) : Prop :=
  ∃ test body there stop, Reaches limit stmt start (.loop test body) there ∧
    Iterates limit test body limit there stop ∧ Holds stop test

/-! ## Loops by their number of rounds -/

theorem Iterates.snoc {limit count : Nat} {test : Expr} {body : Stmt}
    {start middle stop : Table Int32} (rounds : Iterates limit test body count start middle)
    (holds : Holds middle test) (once : Finishes limit body middle stop) :
    Iterates limit test body (count + 1) start stop := by
  induction rounds with
  | zero => exact .succ holds once .zero
  | succ first round _ ih => exact .succ first round (ih holds once)

/-- A derivation of a loop is a number of rounds, after which the test is zero. -/
theorem Derivation.iterates {limit : Nat} {stmt : Stmt} {start stop : Table Int32}
    (derivation : Derivation stmt start stop) (within : derivation.Within limit) {test : Expr}
    {body : Stmt} (isLoop : stmt = .loop test body) :
    Iterates limit test body derivation.iterations start stop ∧ Evaluates stop test 0 := by
  induction derivation with
  | done fails =>
    cases isLoop
    exact ⟨.zero, fails⟩
  | again holds once rest _ ih =>
    cases isLoop
    obtain ⟨_, onceWithin, restWithin⟩ := within
    obtain ⟨rounds, fails⟩ := ih restWithin rfl
    exact ⟨.succ holds ⟨once, onceWithin⟩ rounds, fails⟩
  | _ => cases isLoop

/-- A derivation within a limit goes round no more often than the limit says. -/
theorem Derivation.iterations_le {limit : Nat} {stmt : Stmt} {start stop : Table Int32}
    (derivation : Derivation stmt start stop) (within : derivation.Within limit) :
    derivation.iterations ≤ limit := by
  cases derivation with
  | again holds once rest => exact within.1
  | _ => exact Nat.zero_le limit

/-- Rounds within the limit, after which the test is zero, make a derivation of the loop. -/
theorem Iterates.derivation {limit count : Nat} {test : Expr} {body : Stmt}
    {start stop : Table Int32} (rounds : Iterates limit test body count start stop)
    (fails : Evaluates stop test 0) (allowed : count ≤ limit) :
    ∃ derivation : Derivation (.loop test body) start stop,
      derivation.Within limit ∧ derivation.iterations = count := by
  induction rounds with
  | zero => exact ⟨.done fails, trivial, rfl⟩
  | succ holds once _ ih =>
    obtain ⟨round, roundWithin⟩ := once
    obtain ⟨rest, restWithin, same⟩ := ih fails (Nat.le_of_succ_le allowed)
    refine ⟨.again holds round rest, ⟨?_, roundWithin, restWithin⟩, ?_⟩
    · rw [same]
      exact allowed
    · rw [Derivation.iterations, same]

/-- A loop finishes if and only if its test fails after a number of rounds that the limit allows,
the limit itself included. -/
theorem finishes_loop_iff {limit : Nat} {test : Expr} {body : Stmt} {start stop : Table Int32} :
    Finishes limit (.loop test body) start stop ↔
      ∃ count, count ≤ limit ∧ Iterates limit test body count start stop ∧
        Evaluates stop test 0 := by
  constructor
  · rintro ⟨derivation, within⟩
    exact ⟨derivation.iterations, derivation.iterations_le within, derivation.iterates within rfl⟩
  · rintro ⟨count, allowed, rounds, fails⟩
    obtain ⟨derivation, within, _⟩ := rounds.derivation fails allowed
    exact ⟨derivation, within⟩

end Primer.Lang
