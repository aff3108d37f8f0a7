import Primer.Proofs.Lang.Exactness
import Primer.Proofs.Lang.Symbols

/-!
# Equations of the interpreter

One equation for each form of statement, with the monad opened, as the machine has them. Without a
history an assignment only puts its value into the interpreter (`run_assign`), and an operation
either fits and is put (`run_operation`) or overflows and changes nothing
(`run_operation_overflow`). A loop is told from its rounds: while an invariant that is indexed by
their number holds, it goes on as the same loop with that many iterations behind it
(`repeatWhile_rounds`), and it ends by its test, by its limit or by a fault of its body. The
interpreter may be any, its values and their order need not go together.
-/

namespace Primer.Lang

variable {interpreter : Interpreter}

/-! ## Variables and expressions -/

/-- What a variable reads as: its value, or zero before its first assignment. -/
def Interpreter.read (interpreter : Interpreter) (name : String) : Int32 :=
  (interpreter.get? name).getD 0

@[simp] theorem Interpreter.get?_put (next : Assignment) (name : String) :
    (interpreter.put next).get? name =
      if next.name = name then some next.value else interpreter.get? name :=
  Table.find?_insert interpreter.values next.name name next.value

theorem Interpreter.get?_of_read_ne_zero {name : String} (nonzero : interpreter.read name ≠ 0) :
    interpreter.get? name = some (interpreter.read name) := by
  unfold Interpreter.read at nonzero ⊢
  cases hvalue : interpreter.get? name with
  | none =>
    rw [hvalue] at nonzero
    exact absurd rfl nonzero
  | some value => rfl

/-- The value of a variable among all integers, if it was assigned. -/
def Interpreter.int? (interpreter : Interpreter) (name : String) : Option Int :=
  (interpreter.get? name).map Int32.toInt

@[simp] theorem Interpreter.int?_put (next : Assignment) (name : String) :
    (interpreter.put next).int? name =
      if next.name = name then some next.value.toInt else interpreter.int? name := by
  unfold Interpreter.int?
  rw [Interpreter.get?_put]
  split <;> rfl

theorem Interpreter.toInt_read {name : String} {value : Int}
    (known : interpreter.int? name = some value) : (interpreter.read name).toInt = value := by
  obtain ⟨word, hword, hvalue⟩ := Option.map_eq_some_iff.1 known
  unfold Interpreter.read
  rw [hword]
  exact hvalue

@[simp] theorem Interpreter.steps_put (next : Assignment) :
    (interpreter.put next).steps = interpreter.steps + 1 := rfl

@[simp] theorem Interpreter.history_put (next : Assignment) :
    (interpreter.put next).history = interpreter.history := rfl

theorem evaluate_number (value : Int32) : interpreter.evaluate (.number value) = .ok value := rfl

theorem evaluate_var (name : String) :
    interpreter.evaluate (.var name) = .ok (interpreter.read name) := rfl

section Operation

variable (op : Op) {left right : Expr} {l r : Int32} (hleft : interpreter.evaluate left = .ok l)
  (hright : interpreter.evaluate right = .ok r)

include hleft hright in
theorem evaluate_binary :
    interpreter.evaluate (.binary op left right) = (op.apply l r).mapError .arith := by
  unfold Interpreter.evaluate at hleft hright ⊢
  simp only [Expr.eval]
  generalize left.eval _ = leftResult at hleft ⊢
  generalize right.eval _ = rightResult at hright ⊢
  cases leftResult <;> cases hleft
  cases rightResult <;> cases hright
  rfl

include hleft hright in
/-- An operation other than division gives its exact result if that is a word. -/
theorem evaluate_binary_of_inRange (proper : op ≠ .div)
    (fits : InRange (op.exact l.toInt r.toInt)) :
    ∃ value, value.toInt = op.exact l.toInt r.toInt ∧
      interpreter.evaluate (.binary op left right) = .ok value := by
  cases happly : op.apply l r with
  | ok value =>
    refine ⟨value, (Op.apply_eq_ok_iff.1 happly).2, ?_⟩
    rw [evaluate_binary op hleft hright, happly]
    rfl
  | error fault =>
    rcases (Op.apply_eq_error_iff.1 happly).1 with zero | outside
    · exact absurd zero.1 proper
    · exact absurd fits outside

include hleft hright in
/-- An operation other than division overflows if its exact result is no word. -/
theorem evaluate_binary_of_not_inRange (proper : op ≠ .div)
    (outside : ¬ InRange (op.exact l.toInt r.toInt)) :
    interpreter.evaluate (.binary op left right) = .error (.arith (.overflow op l r)) := by
  have happly : op.apply l r = .error (op.fault l r) :=
    Op.apply_eq_error_iff.2 ⟨.inr outside, rfl⟩
  have hfault : op.fault l r = .overflow op l r := if_neg fun zero => proper zero.1
  rw [evaluate_binary op hleft hright, happly, hfault]
  rfl

end Operation

/-! ## Statements -/

section Answer

variable {program : Stmt} {after : Interpreter}

theorem answer_of_ok (ran : program.run interpreter = .ok () after) :
    interpreter.run program = (.ok (), after) := by
  unfold Interpreter.run
  rw [ran]

theorem answer_of_error {halt : Halt} (ran : program.run interpreter = .error halt after) :
    interpreter.run program = (.error halt, after) := by
  unfold Interpreter.run
  rw [ran]

end Answer

theorem run_nil : (Stmt.block []).run interpreter = .ok () interpreter := by
  simp only [Stmt.run, Stmt.runAll]
  rfl

theorem run_cons (first : Stmt) (rest : List Stmt) :
    (Stmt.block (first :: rest)).run interpreter =
      match first.run interpreter with
      | .ok () after => (Stmt.block rest).run after
      | .error halt after => .error halt after := by
  simp only [Stmt.run, Stmt.runAll, bind, EStateM.bind]
  cases first.run interpreter <;> rfl

theorem run_singleton (only : Stmt) :
    (Stmt.block [only]).run interpreter = only.run interpreter := by
  rw [run_cons]
  cases only.run interpreter with
  | ok value after => exact run_nil
  | error halt after => rfl

theorem run_branch (test : Expr) (yes no : Stmt) :
    (Stmt.branch test yes no).run interpreter =
      match interpreter.evaluate test with
      | .ok value => if value ≠ 0 then yes.run interpreter else no.run interpreter
      | .error fault => .error (.fault fault) interpreter := by
  simp only [Stmt.run, bind, EStateM.bind, Running.evaluate]
  cases interpreter.evaluate test with
  | error fault => rfl
  | ok value => by_cases zero : value = 0 <;> simp [zero]

theorem run_loop (test : Expr) (body : Stmt) :
    (Stmt.loop test body).run interpreter =
      Running.repeatWhile interpreter.settings.loopLimit test body.run 0 interpreter := by
  simp only [Stmt.run]
  rfl

theorem run_assign_eq (name : String) (value : Expr) :
    (Stmt.assign name value).run interpreter =
      match interpreter.evaluate value with
      | .ok value => Running.store name value interpreter
      | .error fault => .error (.fault fault) interpreter := by
  simp only [Stmt.run, bind, EStateM.bind, Running.evaluate]
  cases interpreter.evaluate value <;> rfl

/-- Without a history nothing is recorded; with one, the symbols as they are now, if there is
room. -/
theorem record_eq (interpreter : Interpreter) :
    Running.record interpreter =
      match interpreter.history with
      | none => .ok () interpreter
      | some log =>
        match interpreter.symbols with
        | .error halt => .error halt interpreter
        | .ok symbols =>
          match log.push ⟨interpreter.steps, ⟨symbols⟩⟩ with
          | .ok longer => .ok () { interpreter with history := some longer }
          | .error full => .error (.fault (.history full)) interpreter := by
  show Running.record.run interpreter = _
  unfold Running.record
  simp only [EStateM.run_bind, EStateM.run_get]
  cases interpreter.history with
  | none => rfl
  | some log =>
    cases hlisted : interpreter.symbols with
    | error halt =>
      have hsymbols : Running.symbols.run interpreter = .error halt interpreter := by
        show Running.symbols interpreter = _
        rw [Running.symbols, hlisted]
      simp only [EStateM.run_bind, hsymbols]
    | ok symbols =>
      have hsymbols : Running.symbols.run interpreter = .ok symbols interpreter := by
        show Running.symbols interpreter = _
        rw [Running.symbols, hlisted]
      simp only [EStateM.run_bind, EStateM.run_get, hsymbols]
      cases log.push ⟨interpreter.steps, ⟨symbols⟩⟩ <;> rfl

section Plain

variable (plain : interpreter.history = none)

include plain in
/-- Without a history an assignment cannot be refused. -/
theorem run_assign {expr : Expr} {value : Int32} (name : String)
    (worth : interpreter.evaluate expr = .ok value) :
    (Stmt.assign name expr).run interpreter = .ok () (interpreter.put ⟨name, value⟩) := by
  rw [run_assign_eq, worth]
  show Running.store name value interpreter = _
  rw [store_eq_record ⟨name, value⟩, record_eq, Interpreter.history_put, plain]

variable (op : Op) {left right : Expr} {l r : Int32} (hleft : interpreter.evaluate left = .ok l)
  (hright : interpreter.evaluate right = .ok r)

include plain hleft hright in
theorem run_operation (name : String) (proper : op ≠ .div)
    (fits : InRange (op.exact l.toInt r.toInt)) :
    ∃ value, value.toInt = op.exact l.toInt r.toInt ∧
      (Stmt.assign name (.binary op left right)).run interpreter =
        .ok () (interpreter.put ⟨name, value⟩) := by
  obtain ⟨value, hvalue, hworth⟩ := evaluate_binary_of_inRange op hleft hright proper fits
  exact ⟨value, hvalue, run_assign plain name hworth⟩

include hleft hright in
/-- An assignment of an operation whose exact result is no word changes nothing. -/
theorem run_operation_overflow (name : String) (proper : op ≠ .div)
    (outside : ¬ InRange (op.exact l.toInt r.toInt)) :
    (Stmt.assign name (.binary op left right)).run interpreter =
      .error (.fault (.arith (.overflow op l r))) interpreter := by
  rw [run_assign_eq, evaluate_binary_of_not_inRange op hleft hright proper outside]

end Plain

/-! ## Loops -/

section Loop

variable {limit iterations : Nat} {test : Expr} {value : Int32} {body : Running Unit}

/-- One turn of a loop: the test, then the count, then the body. -/
theorem repeatWhile_eq (limit iterations : Nat) (test : Expr) (body : Running Unit) :
    Running.repeatWhile limit test body iterations interpreter =
      match interpreter.evaluate test with
      | .ok value =>
        if value = 0 then .ok () interpreter
        else if iterations < limit then
          match body interpreter with
          | .ok () after => Running.repeatWhile limit test body (iterations + 1) after
          | .error halt after => .error halt after
        else .error (.fault (.loopLimit limit)) interpreter
      | .error fault => .error (.fault fault) interpreter := by
  rw [Running.repeatWhile]
  simp only [bind, EStateM.bind, Running.evaluate]
  cases interpreter.evaluate test with
  | error fault => rfl
  | ok value =>
    by_cases zero : value = 0
    · simp only [zero, ne_eq, not_true_eq_false, if_false, if_true]
      rfl
    · simp only [zero, ne_eq, not_false_eq_true, if_true, if_false]
      by_cases allowed : iterations < limit
      · simp only [allowed, if_true]
        show EStateM.bind body (fun _ => Running.repeatWhile limit test body (iterations + 1))
          interpreter = _
        unfold EStateM.bind
        cases body interpreter <;> rfl
      · simp only [allowed, if_false]
        rfl

/-- A loop ends when its test is zero. -/
theorem repeatWhile_of_zero (worth : interpreter.evaluate test = .ok 0) :
    Running.repeatWhile limit test body iterations interpreter = .ok () interpreter := by
  rw [repeatWhile_eq, worth]
  rfl

/-- A loop that is at its limit and would go on is stopped. -/
theorem repeatWhile_of_limit (worth : interpreter.evaluate test = .ok value) (nonzero : value ≠ 0) :
    Running.repeatWhile limit test body limit interpreter =
      .error (.fault (.loopLimit limit)) interpreter := by
  rw [repeatWhile_eq, worth]
  simp only [nonzero, if_false, Nat.lt_irrefl]

theorem repeatWhile_of_round (worth : interpreter.evaluate test = .ok value) (nonzero : value ≠ 0)
    (allowed : iterations < limit) :
    Running.repeatWhile limit test body iterations interpreter =
      match body interpreter with
      | .ok () after => Running.repeatWhile limit test body (iterations + 1) after
      | .error halt after => .error halt after := by
  rw [repeatWhile_eq, worth]
  simp only [nonzero, if_false, allowed, if_true]

/-- If each of `count` rounds is entered and keeps an invariant, the loop comes to the test after
the last of them. -/
theorem repeatWhile_rounds {holds : Nat → Interpreter → Prop} {count : Nat}
    (allowed : count ≤ limit)
    (round : ∀ done state, done < count → holds done state →
      ∃ value after, state.evaluate test = .ok value ∧ value ≠ 0 ∧ body state = .ok () after ∧
        holds (done + 1) after)
    (start : holds 0 interpreter) :
    ∃ after, holds count after ∧
      Running.repeatWhile limit test body 0 interpreter =
        Running.repeatWhile limit test body count after := by
  induction count with
  | zero => exact ⟨interpreter, start, rfl⟩
  | succ count ih =>
    obtain ⟨state, hstate, hsame⟩ :=
      ih (by omega) fun done state hdone => round done state (by omega)
    obtain ⟨value, after, hworth, hnonzero, hbody, hafter⟩ :=
      round count state (Nat.lt_succ_self count) hstate
    refine ⟨after, hafter, ?_⟩
    rw [hsame, repeatWhile_of_round hworth hnonzero (by omega), hbody]

end Loop

end Primer.Lang
