import Primer.Lang.Expr

/-!
# Statements

A program is one statement: an assignment, a sequence, a choice or a loop. A test is an expression;
it holds if its value is not zero.
-/

namespace Primer.Lang

/-- Statements. -/
inductive Stmt where
  /-- Give a variable the value of an expression. -/
  | assign (name : String) (value : Expr)
  /-- Run statements one after another. -/
  | block (body : List Stmt)
  /-- Run the first statement if the test is not zero, and else the second. -/
  | branch (test : Expr) (yes no : Stmt)
  /-- Run the body as long as the test is not zero. -/
  | loop (test : Expr) (body : Stmt)
deriving Repr

end Primer.Lang
