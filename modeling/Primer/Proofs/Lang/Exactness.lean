import Primer.Proofs.Lang.Adequacy

/-!
# Evaluation is exact

What an expression is worth over the unbounded integers is told without the machine, by
`Expr.worth?`, and the parts of an expression are listed left before right before the whole, by
`Expr.parts`. A part `fails` if it divides by zero or if its exact value is no 32-bit integer.
Evaluation gives the exact value if no part fails, and otherwise the fault of the first part that
does (`Verdict`, `verdict_eval`), so an intermediate result that does not fit is a fault even where
the value of the whole would fit.
-/

namespace Primer.Lang

/-- The 32-bit integers among all integers. -/
def InRange (value : Int) : Prop := -2147483648 ≤ value ∧ value ≤ 2147483647

instance (value : Int) : Decidable (InRange value) :=
  inferInstanceAs (Decidable (-2147483648 ≤ value ∧ value ≤ 2147483647))

/-- The value of an expression over the unbounded integers. Division goes toward zero, and a
division by zero has no value. -/
def Expr.worth? (read : String → Int32) : Expr → Option Int
  | .number value => some value.toInt
  | .var name => some (read name).toInt
  | .binary op left right => do
    let left ← left.worth? read
    let right ← right.worth? read
    match op with
    | .add => some (left + right)
    | .sub => some (left - right)
    | .mul => some (left * right)
    | .div => if right = 0 then none else some (left.tdiv right)

/-- All parts of an expression, itself included: left before right before the whole. -/
def Expr.parts : Expr → List Expr
  | .number value => [.number value]
  | .var name => [.var name]
  | .binary op left right => left.parts ++ right.parts ++ [.binary op left right]

/-- Whether a part divides by zero or has an exact value that is no 32-bit integer. -/
def Expr.fails (read : String → Int32) : Expr → Bool
  | .binary op left right =>
    (op = .div && right.worth? read = some 0) ||
      ((Expr.binary op left right).worth? read).any fun value => !decide (InRange value)
  | _ => false

/-- The fault of an operation that fails on these operands. -/
def Op.fault (op : Op) (left right : Int32) : ArithFault :=
  if op = .div ∧ right = 0 then .divisionByZero left else .overflow op left right

/-! ## One operation -/

theorem inRange_toInt (word : Int32) : InRange word.toInt := by
  have hlow := word.le_toInt
  have hhigh := word.toInt_lt
  exact ⟨by omega, by omega⟩

theorem narrow?_eq_none_iff {value : Int} : narrow? value = none ↔ ¬ InRange value := by
  have hbottom : Int32.minValue.toInt = -2147483648 := rfl
  have htop : Int32.maxValue.toInt = 2147483647 := rfl
  unfold narrow? InRange
  rw [hbottom, htop]
  split <;> simp_all

/-- An operation fails if and only if it divides by zero or its exact result is no word. -/
theorem Op.apply_eq_error_iff {op : Op} {left right : Int32} {fault : ArithFault} :
    op.apply left right = .error fault ↔
      ((op = .div ∧ right = 0) ∨ ¬ InRange (op.exact left.toInt right.toInt)) ∧
        fault = op.fault left right := by
  unfold Op.apply Op.fault
  by_cases zero : op = .div ∧ right = 0
  · rw [if_pos zero, if_pos zero, Except.error.injEq]
    exact ⟨fun same => ⟨.inl zero, same.symm⟩, fun why => why.2.symm⟩
  · rw [if_neg zero, if_neg zero, or_iff_right zero, ← narrow?_eq_none_iff]
    cases narrow? (op.exact left.toInt right.toInt) with
    | none => simp [eq_comm]
    | some result => simp

section Node

variable {read : String → Int32} {left right : Expr} {l r : Int32}

/-- The worth of a compound expression is the exact result on the worths of its parts. -/
theorem worth?_binary (op : Op) (hleft : left.worth? read = some l.toInt)
    (hright : right.worth? read = some r.toInt) :
    (Expr.binary op left right).worth? read =
      if op = .div ∧ r = 0 then none else some (op.exact l.toInt r.toInt) := by
  have hzero : r.toInt = (0 : Int32).toInt ↔ r = 0 := Int32.toInt_inj
  cases op <;> simp_all [Expr.worth?, Op.exact]

/-- An operation on operands that have exact values fails exactly if it has no 32-bit result. -/
theorem fails_binary (op : Op) (hleft : left.worth? read = some l.toInt)
    (hright : right.worth? read = some r.toInt) :
    (Expr.binary op left right).fails read = true ↔
      (op = .div ∧ r = 0) ∨ ¬ InRange (op.exact l.toInt r.toInt) := by
  have hzero : r.toInt = (0 : Int32).toInt ↔ r = 0 := Int32.toInt_inj
  have hexact := worth?_binary op hleft hright
  by_cases zero : op = .div ∧ r = 0
  · simp [Expr.fails, hright, zero]
  · rw [if_neg zero] at hexact
    simp_all [Expr.fails]

end Node

/-! ## Whole expressions -/

/-- What evaluation can come to: the exact value if no part fails, and the fault of the first part
that fails otherwise. -/
inductive Verdict (read : String → Int32) (expr : Expr) : Except ArithFault Int32 → Prop
  | value {value : Int32} (clean : expr.parts.find? (·.fails read) = none)
      (exact : expr.worth? read = some value.toInt) : Verdict read expr (.ok value)
  | fault {op : Op} {left right : Expr} {l r : Int32}
      (first : expr.parts.find? (·.fails read) = some (.binary op left right))
      (hleft : left.worth? read = some l.toInt) (hright : right.worth? read = some r.toInt) :
      Verdict read expr (.error (op.fault l r))

/-- Evaluation gives the worth if no part fails, and else the fault of the first part that does. -/
theorem verdict_eval (read : String → Int32) (expr : Expr) :
    Verdict read expr (expr.eval read) := by
  induction expr with
  | number value => exact .value rfl rfl
  | var name => exact .value rfl rfl
  | binary op left right ihLeft ihRight =>
    have hparts : (Expr.binary op left right).parts.find? (·.fails read) =
        ((left.parts.find? (·.fails read)).or (right.parts.find? (·.fails read))).or
          ([Expr.binary op left right].find? (·.fails read)) := by
      rw [Expr.parts, List.find?_append, List.find?_append]
    simp only [Expr.eval, bind, Except.bind]
    generalize left.eval read = leftResult at ihLeft ⊢
    cases ihLeft with
    | fault first hleft hright =>
      refine .fault ?_ hleft hright
      rw [hparts, first]
      rfl
    | @value l cleanLeft exactLeft =>
      generalize right.eval read = rightResult at ihRight ⊢
      cases ihRight with
      | fault first hleft hright =>
        refine .fault ?_ hleft hright
        rw [hparts, cleanLeft, first]
        rfl
      | @value r cleanRight exactRight =>
        -- Both operands are exact, so all rests on the operation itself.
        have hfails := fails_binary op exactLeft exactRight
        rw [cleanLeft, cleanRight, Option.none_or, Option.none_or] at hparts
        show Verdict read (.binary op left right) (op.apply l r)
        cases happly : op.apply l r with
        | error fault =>
          obtain ⟨hwhy, rfl⟩ := Op.apply_eq_error_iff.1 happly
          refine .fault ?_ exactLeft exactRight
          rw [hparts, List.find?_cons_of_pos (hfails.2 hwhy)]
        | ok value =>
          obtain ⟨hdivisor, hvalue⟩ := Op.apply_eq_ok_iff.1 happly
          have hnonzero : ¬ (op = .div ∧ r = 0) := fun zero => hdivisor zero.1 zero.2
          have hclean : ¬ (Expr.binary op left right).fails read = true := by
            rw [hfails, ← hvalue]
            exact not_or.2 ⟨hnonzero, not_not_intro (inRange_toInt value)⟩
          refine .value ?_ ?_
          · rw [hparts, List.find?_cons_of_neg hclean, List.find?_nil]
          · rw [worth?_binary op exactLeft exactRight, if_neg hnonzero, hvalue]

theorem parts_subset {expr part : Expr} (mem : part ∈ expr.parts) : part.parts ⊆ expr.parts := by
  induction expr with
  | number value =>
    rw [List.mem_singleton.1 mem]
    exact List.Subset.refl _
  | var name =>
    rw [List.mem_singleton.1 mem]
    exact List.Subset.refl _
  | binary op left right ihLeft ihRight =>
    rcases List.mem_append.1 mem with hoperand | hself
    · rcases List.mem_append.1 hoperand with hleft | hright
      · intro inner hinner
        exact List.mem_append_left _ (List.mem_append_left _ (ihLeft hleft hinner))
      · intro inner hinner
        exact List.mem_append_left _ (List.mem_append_right _ (ihRight hright hinner))
    · rw [List.mem_singleton.1 hself]
      exact List.Subset.refl _

/-- No part fails exactly if every part has an exact value that is a 32-bit integer and no division
has the divisor zero. -/
theorem clean_iff {read : String → Int32} {expr : Expr} :
    expr.parts.find? (·.fails read) = none ↔
      (∀ part ∈ expr.parts, ∃ value, part.worth? read = some value ∧ InRange value) ∧
        ∀ left right, .binary .div left right ∈ expr.parts → right.worth? read ≠ some 0 := by
  rw [List.find?_eq_none]
  constructor
  · intro clean
    refine ⟨?_, ?_⟩
    · intro part hpart
      -- The parts of a part are clean as well, so the part has the value it is evaluated to.
      have hclean : part.parts.find? (·.fails read) = none :=
        List.find?_eq_none.2 fun inner hinner => clean inner (parts_subset hpart hinner)
      have hverdict := verdict_eval read part
      generalize part.eval read = result at hverdict
      cases hverdict with
      | @value word _ exact => exact ⟨word.toInt, exact, inRange_toInt word⟩
      | fault first _ _ =>
        rw [hclean] at first
        cases first
    · intro left right hpart hzero
      have hfails := clean _ hpart
      simp [Expr.fails, hzero] at hfails
  · rintro ⟨exact, divisors⟩ part hpart
    cases part with
    | number value => simp [Expr.fails]
    | var name => simp [Expr.fails]
    | binary op left right =>
      obtain ⟨value, hvalue, hrange⟩ := exact _ hpart
      have hdivisor : op = .div → right.worth? read ≠ some 0 := by
        rintro rfl
        exact divisors left right hpart
      simpa [Expr.fails, hvalue, hrange] using hdivisor

section Verdict

variable {read : String → Int32} {expr : Expr} {result : Except ArithFault Int32}

theorem Verdict.eq_ok_iff (verdict : Verdict read expr result) {word : Int32} :
    result = .ok word ↔
      expr.parts.find? (·.fails read) = none ∧ expr.worth? read = some word.toInt := by
  cases verdict with
  | value clean exact =>
    rw [exact, Option.some.injEq, Int32.toInt_inj, Except.ok.injEq]
    exact ⟨fun same => ⟨clean, same⟩, And.right⟩
  | fault first _ _ =>
    rw [first]
    exact ⟨nofun, nofun⟩

/-- The fault is that of the first part that fails, with the words that this part was given. -/
theorem Verdict.eq_error_iff (verdict : Verdict read expr result) {cause : ArithFault} :
    result = .error cause ↔
      ∃ op left right l r, expr.parts.find? (·.fails read) = some (.binary op left right) ∧
        left.worth? read = some l.toInt ∧ right.worth? read = some r.toInt ∧
        cause = op.fault l r := by
  cases verdict with
  | value clean _ =>
    rw [clean]
    exact ⟨nofun, nofun⟩
  | @fault op left right l r first hleft hright =>
    constructor
    · intro same
      exact ⟨op, left, right, l, r, first, hleft, hright, (Except.error.inj same).symm⟩
    · -- There is only one first part, and its operands have only one exact value each.
      rintro ⟨op', left', right', l', r', first', hleft', hright', rfl⟩
      rw [first] at first'
      cases first'
      rw [hleft, Option.some.injEq, Int32.toInt_inj] at hleft'
      rw [hright, Option.some.injEq, Int32.toInt_inj] at hright'
      rw [hleft', hright']

end Verdict

theorem evaluate_eq_arith_iff {machine : Machine} {expr : Expr} {fault : Fault} :
    machine.evaluate expr = .error fault ↔
      ∃ cause, expr.eval machine.read = .error cause ∧ fault = .arith cause := by
  unfold Machine.evaluate
  cases expr.eval machine.read with
  | ok value => exact ⟨nofun, nofun⟩
  | error cause =>
    constructor
    · intro same
      exact ⟨cause, rfl, (Except.error.inj same).symm⟩
    · rintro ⟨other, same, rfl⟩
      cases same
      rfl

/-- **Evaluation is exact or tells the first failure.** An expression evaluates to a value if and
only if each of its parts has an exact value that is a 32-bit integer and no division has the
divisor zero, and then the value is the exact one. Otherwise the fault is that of the first part
that fails, left before right before the whole, and names the exact values of its operands: a
division by zero if it is a division whose right operand is zero, and an overflow in every other
case. A variable that was never assigned counts as zero. -/
theorem evaluation_is_exact (machine : Machine) (expr : Expr) :
    let read := fun name => (machine.symbols.find? name).getD 0
    (∀ value, machine.evaluate expr = .ok value ↔
        ((∀ part ∈ expr.parts, ∃ exact, part.worth? read = some exact ∧ InRange exact) ∧
          ∀ left right, .binary .div left right ∈ expr.parts → right.worth? read ≠ some 0) ∧
        expr.worth? read = some value.toInt) ∧
      ∀ fault, machine.evaluate expr = .error fault ↔
        ∃ op left right l r,
          expr.parts.find? (·.fails read) = some (.binary op left right) ∧
            left.worth? read = some l.toInt ∧ right.worth? read = some r.toInt ∧
            fault = .arith
              (if op = .div ∧ r = 0 then .divisionByZero l else .overflow op l r) := by
  intro read
  have hverdict : Verdict read expr (expr.eval read) := verdict_eval read expr
  refine ⟨fun value => ?_, fun fault => ?_⟩
  · rw [← clean_iff, ← hverdict.eq_ok_iff, evaluate_eq_ok_iff, ← eval_eq_ok_iff]
  · rw [evaluate_eq_arith_iff]
    constructor
    · rintro ⟨cause, hfaulted, rfl⟩
      obtain ⟨op, left, right, l, r, hfirst, hleft, hright, rfl⟩ :=
        hverdict.eq_error_iff.1 hfaulted
      exact ⟨op, left, right, l, r, hfirst, hleft, hright, rfl⟩
    · rintro ⟨op, left, right, l, r, hfirst, hleft, hright, rfl⟩
      refine ⟨op.fault l r, hverdict.eq_error_iff.2 ?_, rfl⟩
      exact ⟨op, left, right, l, r, hfirst, hleft, hright, rfl⟩

/-- The sum does not fit, though the difference would. -/
example : Machine.plain.evaluate
    (.binary .sub (.binary .add (.number 2147483647) (.number 1)) (.number 1)) =
      .error (.arith (.overflow .add 2147483647 1)) := rfl

end Primer.Lang
