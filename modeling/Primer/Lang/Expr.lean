/-!
# Expressions over 32-bit integers

Expressions are numbers, variables and the four operations of arithmetic. An operation is computed
over the unbounded integers first (`Op.exact`) and then has to fit into 32 bits (`narrow?`), so
that a result is the exact one or there is none. Operands are evaluated left before right before
the operation itself; the first failure is the failure of the expression.
-/

namespace Primer.Lang

/-- The operations of arithmetic. -/
inductive Op where
  | add
  | sub
  | mul
  | div
deriving Repr, DecidableEq

/-- How an operation is written. -/
def Op.symbol : Op → String
  | .add => "+"
  | .sub => "-"
  | .mul => "*"
  | .div => "/"

/-- The result over the unbounded integers. Division goes toward zero. -/
def Op.exact : Op → Int → Int → Int
  | .add, left, right => left + right
  | .sub, left, right => left - right
  | .mul, left, right => left * right
  | .div, left, right => left.tdiv right

/-- Why an operation has no result. -/
inductive ArithFault where
  /-- The exact result does not fit into 32 bits. -/
  | overflow (op : Op) (left right : Int32)
  /-- The right operand of a division is zero. -/
  | divisionByZero (left : Int32)
deriving Repr, DecidableEq

/-- The text shown for a failed operation. -/
def ArithFault.message : ArithFault → String
  | .overflow op left right =>
    "Integer overflow in operation: " ++ toString left.toInt ++ " " ++ op.symbol ++ " " ++
      toString right.toInt
  | .divisionByZero left => "Division by zero: " ++ toString left.toInt ++ " / 0"

/-- The 32-bit integer with a given value, if there is one. -/
def narrow? (value : Int) : Option Int32 :=
  if Int32.minValue.toInt ≤ value ∧ value ≤ Int32.maxValue.toInt then some (Int32.ofInt value)
  else none

/-- Apply an operation. A zero divisor is reported before a result that does not fit. -/
def Op.apply (op : Op) (left right : Int32) : Except ArithFault Int32 :=
  if op = .div ∧ right = 0 then
    .error (.divisionByZero left)
  else
    match narrow? (op.exact left.toInt right.toInt) with
    | some result => .ok result
    | none => .error (.overflow op left right)

/-- Expressions. -/
inductive Expr where
  | number (value : Int32)
  | var (name : String)
  | binary (op : Op) (left right : Expr)
deriving Repr, DecidableEq

/-- The value of an expression when variables read as `read` says. -/
def Expr.eval (read : String → Int32) : Expr → Except ArithFault Int32
  | .number value => .ok value
  | .var name => .ok (read name)
  | .binary op left right => do
    let left ← left.eval read
    let right ← right.eval read
    op.apply left right

/-- The variables that occur in an expression. -/
def Expr.vars : Expr → List String
  | .number _ => []
  | .var name => [name]
  | .binary _ left right => left.vars ++ right.vars

/-! ## Narrowing keeps the value -/

/-- A narrowed integer has the value it was narrowed from. -/
theorem narrow?_eq_some_iff {value : Int} {word : Int32} :
    narrow? value = some word ↔ word.toInt = value := by
  have bottom : Int32.minValue.toInt = -2 ^ 31 := rfl
  have top : Int32.maxValue.toInt = 2 ^ 31 - 1 := rfl
  unfold narrow?
  split <;> rename_i fits
  · have same : (Int32.ofInt value).toInt = value :=
      Int32.toInt_ofInt_of_le (by omega) (by omega)
    simp only [Option.some.injEq]
    exact ⟨fun h => h ▸ same, fun h => Int32.toInt_inj.1 (same.trans h.symm)⟩
  · simp only [reduceCtorEq, false_iff]
    intro h
    have low := word.le_toInt
    have high := word.toInt_lt
    omega

end Primer.Lang
