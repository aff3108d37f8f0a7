import Primer.Proofs.Lang.Equations
import Primer.Proofs.Lang.Natural

/-!
# The machine runs the natural semantics

A machine without a history finishes a program exactly where the rules say that it finishes within
the loop limit, and stops at the limit exactly where some loop overruns it
(`run_agrees_with_derivations`). From the rules to the machine, a statement that finishes is run to
its end (`Finishes.exec_eq_ok`) and a fault of a part that comes to its turn is the fault of the
whole (`Reaches.exec_eq_error`). From the machine to the rules, every run is accounted for by an
`Outcome`.
-/

namespace Primer.Lang

/-! ## Expressions -/

/-- An operation succeeds if and only if its exact result is a word, division by zero apart. -/
theorem Op.apply_eq_ok_iff {op : Op} {left right value : Int32} :
    op.apply left right = .ok value ↔
      (op = .div → right ≠ 0) ∧ value.toInt = op.exact left.toInt right.toInt := by
  unfold Op.apply
  by_cases zero : op = .div ∧ right = 0
  · rw [if_pos zero]
    refine ⟨nofun, fun ⟨nonzero, _⟩ => ?_⟩
    exact absurd zero.2 (nonzero zero.1)
  · rw [if_neg zero, ← narrow?_eq_some_iff]
    have divisor : op = .div → right ≠ 0 := fun isDiv isZero => zero ⟨isDiv, isZero⟩
    cases narrow? (op.exact left.toInt right.toInt) with
    | none => simp
    | some result =>
      simp only [Except.ok.injEq, Option.some.injEq]
      exact ⟨fun same => ⟨divisor, same⟩, And.right⟩

/-- Evaluation gives the value that the rules give, and a value only where they give one. -/
theorem eval_eq_ok_iff {symbols : Table Int32} {expr : Expr} {value : Int32} :
    expr.eval (fun name => (symbols.find? name).getD 0) = .ok value ↔
      Evaluates symbols expr value := by
  induction expr generalizing value with
  | number word =>
    constructor
    · intro h
      cases h
      exact .number word
    · intro h
      cases h
      rfl
  | var name =>
    cases found : symbols.find? name with
    | none =>
      simp only [Expr.eval, found, Option.getD_none, Except.ok.injEq]
      refine ⟨fun h => h ▸ .unknown found, fun h => ?_⟩
      cases h with
      | known other => rw [found] at other; cases other
      | unknown _ => rfl
    | some word =>
      simp only [Expr.eval, found, Option.getD_some, Except.ok.injEq]
      refine ⟨fun h => h ▸ .known found, fun h => ?_⟩
      cases h with
      | known other => rw [found] at other; cases other; rfl
      | unknown other => rw [found] at other; cases other
  | binary op left right ihl ihr =>
    simp only [Expr.eval, bind, Except.bind]
    constructor
    · intro h
      cases hl : left.eval (fun name => (symbols.find? name).getD 0) with
      | error fault => rw [hl] at h; cases h
      | ok l =>
        cases hr : right.eval (fun name => (symbols.find? name).getD 0) with
        | error fault => rw [hl, hr] at h; cases h
        | ok r =>
          rw [hl, hr] at h
          obtain ⟨divisor, exact⟩ := Op.apply_eq_ok_iff.1 h
          exact .binary (ihl.1 hl) (ihr.1 hr) divisor exact
    · intro h
      cases h with
      | binary hl hr divisor exact =>
        rw [ihl.2 hl, ihr.2 hr]
        exact Op.apply_eq_ok_iff.2 ⟨divisor, exact⟩

theorem evaluate_eq_ok_iff {machine : Machine} {expr : Expr} {value : Int32} :
    machine.evaluate expr = .ok value ↔ Evaluates machine.symbols expr value := by
  rw [← eval_eq_ok_iff]
  unfold Machine.evaluate
  show (expr.eval (fun name => (machine.symbols.find? name).getD 0)).mapError _ = _ ↔ _
  cases expr.eval (fun name => (machine.symbols.find? name).getD 0) with
  | error cause => exact ⟨nofun, nofun⟩
  | ok result =>
    constructor <;> intro same
    · exact congrArg Except.ok (Except.ok.inj same)
    · exact congrArg Except.ok (Except.ok.inj same)

/-- An expression has a value by the rules, or the machine stops with a fault of arithmetic. -/
theorem evaluate_cases (machine : Machine) (expr : Expr) :
    (∃ value, machine.evaluate expr = .ok value ∧ Evaluates machine.symbols expr value) ∨
      ∃ cause, machine.evaluate expr = .error (.arith cause) := by
  cases h : machine.evaluate expr with
  | ok value => exact .inl ⟨value, rfl, evaluate_eq_ok_iff.1 h⟩
  | error fault =>
    obtain ⟨cause, rfl⟩ := evaluate_eq_error h
    exact .inr ⟨cause, rfl⟩

/-! ## Tests -/

section Test

variable {limit budget : Nat} {machine : Machine} {test : Expr} {yes no : Stmt} {body : Exec Unit}

/-- A test holds, or fails, or stops the machine with a fault of arithmetic. -/
theorem test_cases (machine : Machine) (test : Expr) :
    Holds machine.symbols test ∨ Evaluates machine.symbols test 0 ∨
      ∃ cause, machine.evaluate test = .error (.arith cause) := by
  rcases evaluate_cases machine test with ⟨value, _, valued⟩ | faulted
  · by_cases zero : value = 0
    · exact .inr (.inl (zero ▸ valued))
    · exact .inl ⟨value, valued, zero⟩
  · exact .inr (.inr faulted)

theorem exec_branch_of_holds (holds : Holds machine.symbols test) :
    (Stmt.branch test yes no).exec limit machine = yes.exec limit machine := by
  obtain ⟨value, worth, nonzero⟩ := holds
  rw [exec_branch, evaluate_eq_ok_iff.2 worth]
  exact if_pos nonzero

theorem exec_branch_of_fails (fails : Evaluates machine.symbols test 0) :
    (Stmt.branch test yes no).exec limit machine = no.exec limit machine := by
  rw [exec_branch, evaluate_eq_ok_iff.2 fails]
  rfl

theorem repeatWhile_of_fails (fails : Evaluates machine.symbols test 0) :
    Exec.repeatWhile limit test body budget machine = .ok () machine := by
  have worth := evaluate_eq_ok_iff.2 fails
  cases budget with
  | zero => rw [repeatWhile_zero, worth]; rfl
  | succ budget => rw [repeatWhile_succ, worth]; rfl

theorem repeatWhile_of_fault {fault : Fault} (faulted : machine.evaluate test = .error fault) :
    Exec.repeatWhile limit test body budget machine = .error fault machine := by
  cases budget with
  | zero => rw [repeatWhile_zero, faulted]
  | succ budget => rw [repeatWhile_succ, faulted]

theorem repeatWhile_zero_of_holds (holds : Holds machine.symbols test) :
    Exec.repeatWhile limit test body 0 machine = .error (.loopLimit limit) machine := by
  obtain ⟨value, worth, nonzero⟩ := holds
  rw [repeatWhile_zero, evaluate_eq_ok_iff.2 worth]
  exact if_pos nonzero

/-- One round of a loop: the body, and then the loop with a budget less by one. -/
theorem repeatWhile_succ_of_holds (holds : Holds machine.symbols test) :
    Exec.repeatWhile limit test body (budget + 1) machine =
      match body machine with
      | .ok () after => Exec.repeatWhile limit test body budget after
      | .error fault after => .error fault after := by
  obtain ⟨value, worth, nonzero⟩ := holds
  rw [repeatWhile_succ, evaluate_eq_ok_iff.2 worth]
  exact if_pos nonzero

end Test

/-! ## From the rules to the machine -/

/-- Rounds of a loop whose body is run as the rules say are taken off the budget. -/
theorem Iterates.repeatWhile_eq {limit count : Nat} {test : Expr} {body : Stmt}
    {start stop : Table Int32} (rounds : Iterates limit test body count start stop)
    (runs : ∀ {start stop} steps, Finishes limit body start stop →
      ∃ after, body.exec limit ⟨start, steps, none⟩ = .ok () ⟨stop, after, none⟩)
    (budget steps : Nat) :
    ∃ after, Exec.repeatWhile limit test (body.exec limit) (budget + count) ⟨start, steps, none⟩ =
      Exec.repeatWhile limit test (body.exec limit) budget ⟨stop, after, none⟩ := by
  induction rounds generalizing steps with
  | zero => exact ⟨steps, rfl⟩
  | succ holds once more ih =>
    obtain ⟨between, ran⟩ := runs steps once
    obtain ⟨after, rest⟩ := ih between
    refine ⟨after, ?_⟩
    rw [← Nat.add_assoc, repeatWhile_succ_of_holds holds, ran]
    exact rest

/-- The machine runs a statement that finishes to its end. -/
theorem Finishes.exec_eq_ok {limit : Nat} {stmt : Stmt} {start stop : Table Int32} (steps : Nat)
    (finishes : Finishes limit stmt start stop) :
    ∃ after, stmt.exec limit ⟨start, steps, none⟩ = .ok () ⟨stop, after, none⟩ := by
  induction stmt using Stmt.blockInduction generalizing start stop steps with
  | assign name expr =>
    obtain ⟨derivation, _⟩ := finishes
    cases derivation with
    | assign worth =>
      rw [exec_assign, evaluate_eq_ok_iff.2 worth]
      exact ⟨steps + 1, rfl⟩
  | nil =>
    obtain ⟨derivation, _⟩ := finishes
    cases derivation
    exact ⟨steps, exec_nil⟩
  | cons first rest ihFirst ihRest =>
    obtain ⟨derivation, within⟩ := finishes
    cases derivation with
    | cons head tail =>
      obtain ⟨between, ranFirst⟩ := ihFirst steps ⟨head, within.1⟩
      obtain ⟨after, ranRest⟩ := ihRest between ⟨tail, within.2⟩
      refine ⟨after, ?_⟩
      rw [exec_cons, ranFirst]
      exact ranRest
  | branch test yes no ihYes ihNo =>
    obtain ⟨derivation, within⟩ := finishes
    cases derivation with
    | yes holds taken =>
      rw [exec_branch_of_holds holds]
      exact ihYes steps ⟨taken, within⟩
    | no fails taken =>
      rw [exec_branch_of_fails fails]
      exact ihNo steps ⟨taken, within⟩
  | loop test body ih =>
    obtain ⟨count, allowed, rounds, fails⟩ := finishes_loop_iff.1 finishes
    obtain ⟨after, ran⟩ := rounds.repeatWhile_eq ih (limit - count) steps
    refine ⟨after, ?_⟩
    rw [Nat.sub_add_cancel allowed] at ran
    rw [exec_loop, ran]
    exact repeatWhile_of_fails fails

/-- The fault of a part that comes to its turn is the fault of the whole statement. -/
theorem Reaches.exec_eq_error {limit : Nat} {stmt part : Stmt} {start there : Table Int32}
    (reaches : Reaches limit stmt start part there) (steps : Nat) :
    ∃ between, ∀ {fault machine},
      part.exec limit ⟨there, between, none⟩ = .error fault machine →
        stmt.exec limit ⟨start, steps, none⟩ = .error fault machine := by
  induction reaches generalizing steps with
  | here => exact ⟨steps, fun faulted => faulted⟩
  | head next ih =>
    obtain ⟨between, passes⟩ := ih steps
    refine ⟨between, fun faulted => ?_⟩
    rw [exec_cons, passes faulted]
  | tail done next ih =>
    obtain ⟨first, ran⟩ := done.exec_eq_ok steps
    obtain ⟨between, passes⟩ := ih first
    refine ⟨between, fun faulted => ?_⟩
    rw [exec_cons, ran]
    exact passes faulted
  | yes holds next ih =>
    rw [exec_branch_of_holds holds]
    exact ih steps
  | no fails next ih =>
    rw [exec_branch_of_fails fails]
    exact ih steps
  | @loop count test body part start middle there allowed rounds holds next ih =>
    -- The part comes to its turn in a round that the budget still has.
    obtain ⟨budget, split⟩ : ∃ budget, limit = budget + 1 + count := ⟨limit - count - 1, by omega⟩
    obtain ⟨first, ran⟩ := rounds.repeatWhile_eq Finishes.exec_eq_ok (budget + 1) steps
    obtain ⟨between, passes⟩ := ih first
    refine ⟨between, fun faulted => ?_⟩
    rw [← split] at ran
    rw [exec_loop, ran, repeatWhile_succ_of_holds holds, passes faulted]

/-- If some loop that is reached overruns its limit, the program stops there. -/
theorem Overruns.exec_eq_error {limit : Nat} {stmt : Stmt} {start : Table Int32} (steps : Nat)
    (overruns : Overruns limit stmt start) :
    ∃ machine, stmt.exec limit ⟨start, steps, none⟩ = .error (.loopLimit limit) machine := by
  obtain ⟨test, body, there, stop, reaches, rounds, holds⟩ := overruns
  obtain ⟨between, passes⟩ := reaches.exec_eq_error steps
  obtain ⟨after, ran⟩ := rounds.repeatWhile_eq Finishes.exec_eq_ok 0 between
  refine ⟨⟨stop, after, none⟩, passes ?_⟩
  rw [Nat.zero_add] at ran
  rw [exec_loop, ran]
  exact repeatWhile_zero_of_holds holds

/-! ## From the machine to the rules -/

/-- What the rules say about the result of running a statement from a symbol table. -/
inductive Outcome (limit : Nat) (stmt : Stmt) (start : Table Int32) :
    EStateM.Result Fault Machine Unit → Prop
  | finished {stop : Table Int32} {steps : Nat} (finishes : Finishes limit stmt start stop) :
      Outcome limit stmt start (.ok () ⟨stop, steps, none⟩)
  | overran {machine : Machine} (overruns : Overruns limit stmt start) :
      Outcome limit stmt start (.error (.loopLimit limit) machine)
  | stuck {cause : ArithFault} {machine : Machine} :
      Outcome limit stmt start (.error (.arith cause) machine)

/-- A part that overruns makes the whole overrun. -/
theorem Overruns.of_reaches {limit : Nat} {stmt part : Stmt} {start there : Table Int32}
    (overruns : Overruns limit part there)
    (reach : ∀ {inner elsewhere}, Reaches limit part there inner elsewhere →
      Reaches limit stmt start inner elsewhere) : Overruns limit stmt start := by
  obtain ⟨test, body, place, stop, inside, rounds, holds⟩ := overruns
  exact ⟨test, body, place, stop, reach inside, rounds, holds⟩

/-- The outcome of the part that a statement comes to last is the outcome of the statement. -/
theorem Outcome.of_part {limit : Nat} {stmt part : Stmt} {start there : Table Int32}
    {result : EStateM.Result Fault Machine Unit} (outcome : Outcome limit part there result)
    (finish : ∀ {stop}, Finishes limit part there stop → Finishes limit stmt start stop)
    (reach : ∀ {inner elsewhere}, Reaches limit part there inner elsewhere →
      Reaches limit stmt start inner elsewhere) : Outcome limit stmt start result := by
  cases outcome with
  | finished finishes => exact .finished (finish finishes)
  | overran overruns => exact .overran (overruns.of_reaches reach)
  | stuck => exact .stuck

/-- A run of a loop that has gone round `count` times has an outcome, if the runs of its body have.
The budget counts down while the rounds count up, so their sum stays the limit. -/
theorem repeatWhile_outcome {limit : Nat} {test : Expr} {body : Stmt}
    (runs : ∀ start steps, Outcome limit body start (body.exec limit ⟨start, steps, none⟩)) :
    ∀ (budget count : Nat) {start middle : Table Int32} (steps : Nat), budget + count = limit →
      Iterates limit test body count start middle →
      Outcome limit (.loop test body) start
        (Exec.repeatWhile limit test (body.exec limit) budget ⟨middle, steps, none⟩) := by
  intro budget
  induction budget with
  | zero =>
    intro count start middle steps sum rounds
    rw [Nat.zero_add] at sum
    subst sum
    rcases test_cases ⟨middle, steps, none⟩ test with holds | fails | ⟨cause, faulted⟩
    · rw [repeatWhile_zero_of_holds holds]
      exact .overran ⟨test, body, start, middle, .here, rounds, holds⟩
    · rw [repeatWhile_of_fails fails]
      exact .finished (finishes_loop_iff.2 ⟨count, Nat.le_refl count, rounds, fails⟩)
    · rw [repeatWhile_of_fault faulted]
      exact .stuck
  | succ budget ih =>
    intro count start middle steps sum rounds
    rcases test_cases ⟨middle, steps, none⟩ test with holds | fails | ⟨cause, faulted⟩
    · rw [repeatWhile_succ_of_holds holds]
      have outcome := runs middle steps
      generalize body.exec limit ⟨middle, steps, none⟩ = result at outcome ⊢
      cases outcome with
      | finished once => exact ih (count + 1) _ (by omega) (rounds.snoc holds once)
      | overran overruns => exact .overran (overruns.of_reaches (.loop (by omega) rounds holds))
      | stuck => exact .stuck
    · rw [repeatWhile_of_fails fails]
      exact .finished (finishes_loop_iff.2 ⟨count, by omega, rounds, fails⟩)
    · rw [repeatWhile_of_fault faulted]
      exact .stuck

/-- Every run without a history has an outcome. -/
theorem exec_outcome (limit : Nat) (stmt : Stmt) (start : Table Int32) (steps : Nat) :
    Outcome limit stmt start (stmt.exec limit ⟨start, steps, none⟩) := by
  induction stmt using Stmt.blockInduction generalizing start steps with
  | assign name expr =>
    rw [exec_assign]
    rcases evaluate_cases ⟨start, steps, none⟩ expr with ⟨value, worth, valued⟩ | ⟨cause, fault⟩
    · rw [worth]
      exact .finished ⟨.assign valued, trivial⟩
    · rw [fault]
      exact .stuck
  | nil =>
    rw [exec_nil]
    exact .finished ⟨.nil, trivial⟩
  | cons first rest ihFirst ihRest =>
    rw [exec_cons]
    have outcome := ihFirst start steps
    generalize first.exec limit ⟨start, steps, none⟩ = result at outcome ⊢
    cases outcome with
    | @finished middle between done =>
      refine (ihRest middle between).of_part (fun finishes => ?_) (.tail done)
      obtain ⟨head, headWithin⟩ := done
      obtain ⟨tail, tailWithin⟩ := finishes
      exact ⟨.cons head tail, headWithin, tailWithin⟩
    | overran overruns => exact .overran (overruns.of_reaches .head)
    | stuck => exact .stuck
  | branch test yes no ihYes ihNo =>
    rcases test_cases ⟨start, steps, none⟩ test with holds | fails | ⟨cause, faulted⟩
    · rw [exec_branch_of_holds holds]
      refine (ihYes start steps).of_part (fun finishes => ?_) (.yes holds)
      obtain ⟨taken, within⟩ := finishes
      exact ⟨.yes holds taken, within⟩
    · rw [exec_branch_of_fails fails]
      refine (ihNo start steps).of_part (fun finishes => ?_) (.no fails)
      obtain ⟨taken, within⟩ := finishes
      exact ⟨.no fails taken, within⟩
    · rw [exec_branch, faulted]
      exact .stuck
  | loop test body ih =>
    rw [exec_loop]
    exact repeatWhile_outcome ih limit 0 steps (Nat.add_zero limit) .zero

/-! ## Runs of programs -/

section Run

variable (limit : Nat) (program : Stmt) (start : Table Int32) (steps : Nat)

/-- A run ends with a table if and only if there is a derivation that ends with it. -/
theorem run_eq_ok_iff (stop : Table Int32) :
    (Machine.run limit program ⟨start, steps, none⟩).1 = .ok () ∧
        (Machine.run limit program ⟨start, steps, none⟩).2.symbols = stop ↔
      Finishes limit program start stop := by
  unfold Machine.run
  constructor
  · intro ran
    have outcome := exec_outcome limit program start steps
    generalize program.exec limit ⟨start, steps, none⟩ = result at outcome ran
    cases outcome with
    | finished finishes => exact ran.2 ▸ finishes
    | overran _ => cases ran.1
    | stuck => cases ran.1
  · intro finishes
    obtain ⟨after, ran⟩ := finishes.exec_eq_ok steps
    rw [ran]
    exact ⟨rfl, rfl⟩

theorem run_eq_error_iff :
    (∃ fault, (Machine.run limit program ⟨start, steps, none⟩).1 = .error fault) ↔
      ¬ ∃ stop, Finishes limit program start stop := by
  constructor
  · rintro ⟨fault, faulted⟩ ⟨stop, finishes⟩
    have ran := ((run_eq_ok_iff limit program start steps stop).2 finishes).1
    rw [faulted] at ran
    cases ran
  · intro unfinished
    cases ran : (Machine.run limit program ⟨start, steps, none⟩).1 with
    | error fault => exact ⟨fault, rfl⟩
    | ok _ =>
      have finishes := (run_eq_ok_iff limit program start steps _).1 ⟨ran, rfl⟩
      exact absurd ⟨_, finishes⟩ unfinished

/-- A run exceeds the loop limit if and only if a loop that is reached overruns it. -/
theorem run_eq_loopLimit_iff (exceeded : Nat) :
    (Machine.run limit program ⟨start, steps, none⟩).1 = .error (.loopLimit exceeded) ↔
      exceeded = limit ∧ Overruns limit program start := by
  unfold Machine.run
  constructor
  · intro ran
    have outcome := exec_outcome limit program start steps
    generalize program.exec limit ⟨start, steps, none⟩ = result at outcome ran
    cases outcome with
    | finished _ => cases ran
    | overran overruns =>
      cases ran
      exact ⟨rfl, overruns⟩
    | stuck => cases ran
  · rintro ⟨rfl, overruns⟩
    obtain ⟨machine, ran⟩ := overruns.exec_eq_error steps
    rw [ran]

/-- **Runs are derivations.** Without a history, a program finishes in a table exactly if the rules
derive that table with every execution of a loop within the limit, and faults in all other cases.
The fault is the loop limit exactly if some execution of a loop goes round as often as the limit
allows and its test then still holds. -/
theorem run_agrees_with_derivations :
    let run := Machine.run limit program { symbols := start, steps, history := none }
    (∀ stop, run.1 = .ok () ∧ run.2.symbols = stop ↔
        ∃ derivation : Derivation program start stop, derivation.Within limit) ∧
      ((∃ fault, run.1 = .error fault) ↔
        ¬ ∃ stop, ∃ derivation : Derivation program start stop, derivation.Within limit) ∧
      (∀ exceeded, run.1 = .error (.loopLimit exceeded) ↔
        exceeded = limit ∧ ∃ test body there stop,
          Reaches limit program start (.loop test body) there ∧
            Iterates limit test body limit there stop ∧ Holds stop test) :=
  ⟨run_eq_ok_iff limit program start steps, run_eq_error_iff limit program start steps,
    run_eq_loopLimit_iff limit program start steps⟩

end Run

end Primer.Lang
