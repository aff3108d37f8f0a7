import Primer.Lang.Machine

/-!
# Equations of the machine

One equation for each form of statement, with the monad opened, and the induction that goes with
them: a block is empty, or it is a first statement and the block of the others
(`Stmt.blockInduction`). Proofs about runs rest on these and do not open `Stmt.exec` again.
-/

namespace Primer.Lang

/-- What holds of assignments, of the empty block, of a block if it holds of its first statement
and of the block of the others, and of branches and loops if it holds of their parts, holds of every
statement. -/
@[elab_as_elim]
theorem Stmt.blockInduction {motive : Stmt → Prop}
    (assign : ∀ name value, motive (.assign name value))
    (nil : motive (.block []))
    (cons : ∀ first rest, motive first → motive (.block rest) → motive (.block (first :: rest)))
    (branch : ∀ test yes no, motive yes → motive no → motive (.branch test yes no))
    (loop : ∀ test body, motive body → motive (.loop test body)) (stmt : Stmt) : motive stmt :=
  @Stmt.rec motive (fun body => motive (.block body)) assign (fun _ whole => whole) branch loop
    nil cons stmt

variable {limit : Nat} {machine : Machine}

/-- Evaluation stops with a fault of arithmetic or not at all. -/
theorem evaluate_eq_error {expr : Expr} {fault : Fault} (faulted : machine.evaluate expr = .error fault) :
    ∃ cause, fault = .arith cause := by
  unfold Machine.evaluate at faulted
  cases hvalue : expr.eval machine.read with
  | ok value =>
    rw [hvalue] at faulted
    cases faulted
  | error cause =>
    rw [hvalue] at faulted
    cases faulted
    exact ⟨cause, rfl⟩

theorem exec_assign (name : String) (value : Expr) :
    (Stmt.assign name value).exec limit machine =
      match machine.evaluate value with
      | .ok value => Exec.store name value machine
      | .error fault => .error fault machine := by
  simp only [Stmt.exec, bind, EStateM.bind, Exec.evaluate]
  cases machine.evaluate value <;> rfl

theorem exec_nil : (Stmt.block []).exec limit machine = .ok () machine := by
  simp only [Stmt.exec, Stmt.execAll]
  rfl

theorem exec_cons (first : Stmt) (rest : List Stmt) :
    (Stmt.block (first :: rest)).exec limit machine =
      match first.exec limit machine with
      | .ok () after => (Stmt.block rest).exec limit after
      | .error fault after => .error fault after := by
  simp only [Stmt.exec, Stmt.execAll, bind, EStateM.bind]
  cases first.exec limit machine <;> rfl

theorem exec_branch (test : Expr) (yes no : Stmt) :
    (Stmt.branch test yes no).exec limit machine =
      match machine.evaluate test with
      | .ok value => if value ≠ 0 then yes.exec limit machine else no.exec limit machine
      | .error fault => .error fault machine := by
  simp only [Stmt.exec, bind, EStateM.bind, Exec.evaluate]
  cases machine.evaluate test with
  | error fault => rfl
  | ok value =>
    by_cases zero : value = 0
    · simp only [zero, ne_eq, not_true_eq_false, if_false]
    · simp only [zero, ne_eq, not_false_eq_true, if_true]

theorem exec_loop (test : Expr) (body : Stmt) :
    (Stmt.loop test body).exec limit machine =
      Exec.repeatWhile limit test (body.exec limit) limit machine := by
  simp only [Stmt.exec]

theorem repeatWhile_zero (test : Expr) (body : Exec Unit) :
    Exec.repeatWhile limit test body 0 machine =
      match machine.evaluate test with
      | .ok value => if value ≠ 0 then .error (.loopLimit limit) machine else .ok () machine
      | .error fault => .error fault machine := by
  simp only [Exec.repeatWhile, bind, EStateM.bind, Exec.evaluate]
  cases machine.evaluate test with
  | error fault => rfl
  | ok value =>
    by_cases zero : value = 0
    · simp only [zero, ne_eq, not_true_eq_false, if_false]
      rfl
    · simp only [zero, ne_eq, not_false_eq_true, if_true]
      rfl

/-- One turn of a loop that may still go round: the test, then the body, then the rest of the
budget. -/
theorem repeatWhile_succ (test : Expr) (body : Exec Unit) (budget : Nat) :
    Exec.repeatWhile limit test body (budget + 1) machine =
      match machine.evaluate test with
      | .ok value =>
        if value ≠ 0 then
          match body machine with
          | .ok () after => Exec.repeatWhile limit test body budget after
          | .error fault after => .error fault after
        else .ok () machine
      | .error fault => .error fault machine := by
  simp only [Exec.repeatWhile, bind, EStateM.bind, Exec.evaluate]
  cases machine.evaluate test with
  | error fault => rfl
  | ok value =>
    by_cases zero : value = 0
    · simp only [zero, ne_eq, not_true_eq_false, if_false]
      rfl
    · simp only [zero, ne_eq, not_false_eq_true, if_true]
      show EStateM.bind body (fun _ => Exec.repeatWhile limit test body budget) machine = _
      unfold EStateM.bind
      cases body machine <;> rfl

end Primer.Lang
