import Primer.Lang.Stmt

/-!
# Sample programs
-/

namespace Primer.Lang.Programs

/-- Compute the factorial of `n` into `factorial`, counting `i` down from `n` to zero. -/
def factorial (n : Int32) : Stmt :=
  .block [
    .assign "factorial" (.number 1),
    .assign "i" (.number n),
    .loop (.var "i") (.block [
      .assign "factorial" (.binary .mul (.var "factorial") (.var "i")),
      .assign "i" (.binary .sub (.var "i") (.number 1))])]

/-- Compute the factorial of five. -/
def factorialOfFive : Stmt := factorial 5

/-- If `x + y` is not zero, count `z` up to zero and set `x` to eight; else set `z` to seven. -/
def countOrReset : Stmt :=
  .branch (.binary .add (.var "x") (.var "y"))
    (.block [
      .loop (.var "z") (.assign "z" (.binary .add (.var "z") (.number 1))),
      .assign "x" (.number 8)])
    (.assign "z" (.number 7))

end Primer.Lang.Programs
