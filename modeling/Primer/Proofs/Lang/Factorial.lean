import Mathlib.Data.Nat.Factorial.Basic
import Mathlib.Tactic.Ring
import Primer.Lang.Programs
import Primer.Proofs.Lang.Running

/-!
# The factorial program

The program multiplies while it counts down, so after `count` rounds it holds the product of the
first `count` integers from `n` downward (`falling`, `Multiplied`). What becomes of it is a question
about these products: whether the counter comes to zero, whether the loop limit comes first, or
whether a product does not fit before either. A negative counter never comes to zero, and its
product is out of range before the counter is, unless it starts at the least integer.
-/

namespace Primer.Lang

/-! ## Falling products -/

/-- The product of `count` integers that go down from `n`. -/
def falling (n : Int) : (count : Nat) → Int
  | 0 => 1
  | count + 1 => falling n count * (n - count)

theorem falling_natCast (n count : Nat) : falling n count = n.descFactorial count := by
  induction count with
  | zero => rfl
  | succ count ih =>
    rw [falling, ih, Nat.descFactorial_succ]
    rcases Nat.lt_or_ge n count with beyond | within
    · have hzero : n.descFactorial count = 0 := Nat.descFactorial_eq_zero_iff_lt.2 beyond
      rw [hzero]
      simp
    · push_cast [within]
      ring

theorem falling_self (n : Nat) : falling n n = n.factorial := by
  rw [falling_natCast, Nat.descFactorial_self]

theorem falling_eq_zero {n count : Nat} (beyond : n < count) : falling n count = 0 := by
  rw [falling_natCast, Nat.descFactorial_eq_zero_iff_lt.2 beyond]
  rfl

theorem falling_ne_zero {n : Int} (negative : n < 0) (count : Nat) : falling n count ≠ 0 := by
  induction count with
  | zero => exact Int.one_ne_zero
  | succ count ih => exact mul_ne_zero ih (by omega)

/-- Twelve is the last integer whose factorial fits. -/
theorem inRange_factorial_iff {n : Nat} : InRange n.factorial ↔ n ≤ 12 := by
  unfold InRange
  constructor
  · intro fits
    by_contra beyond
    have hle : Nat.factorial 13 ≤ n.factorial := Nat.factorial_le (by omega)
    have hthirteen : Nat.factorial 13 = 6227020800 := rfl
    omega
  · intro small
    have hle : n.factorial ≤ Nat.factorial 12 := Nat.factorial_le small
    have htwelve : Nat.factorial 12 = 479001600 := rfl
    omega

theorem inRange_falling {n : Nat} (small : n ≤ 12) (count : Nat) : InRange (falling n count) := by
  rcases Nat.lt_or_ge n count with beyond | within
  · rw [falling_eq_zero beyond]
    decide
  · have hle : n.descFactorial count ≤ n.factorial := by
      rw [← Nat.factorial_mul_descFactorial within]
      exact Nat.le_mul_of_pos_left _ (Nat.factorial_pos _)
    have hfits := inRange_factorial_iff.2 small
    rw [falling_natCast]
    unfold InRange at hfits ⊢
    omega

/-- Where a negative counter would leave the range, its product has left it already. -/
theorem not_inRange_falling {n : Int} {count : Nat} (negative : n < 0)
    (last : n - (count + 1) = -2147483648) : ¬ InRange (falling n (count + 2)) := by
  have hfactors : falling n (count + 2) = falling n count * (-2147483647) * (-2147483648) := by
    rw [falling, falling]
    push_cast
    rw [last, show n - (count : Int) = -2147483647 by omega]
  have hnonzero := falling_ne_zero negative count
  rw [hfactors]
  unfold InRange
  omega

/-- As long as the products fit, the counter is in the range as well. -/
theorem inRange_counter {n : Int} {count : Nat} (fits : InRange n) (higher : n ≠ -2147483648)
    (products : ∀ k ≤ count, InRange (falling n k)) (nonzero : ∀ k < count, n - k ≠ 0) :
    InRange (n - count) := by
  by_contra outside
  unfold InRange at fits outside
  have hnegative : n < 0 := by
    by_contra positive
    exact nonzero n.toNat (by omega) (by omega)
  obtain ⟨before, hbefore⟩ : ∃ before : Nat, n - (before + 1) = -2147483648 :=
    ⟨(n + 2147483647).toNat, by omega⟩
  exact not_inRange_falling hnegative hbefore (products (before + 2) (by omega))

/-! ## Rounds -/

/-- What the program repeats: multiply, then count down. -/
def factorialRound : Stmt :=
  .block [
    .assign "factorial" (.binary .mul (.var "factorial") (.var "i")),
    .assign "i" (.binary .sub (.var "i") (.number 1))]

/-- The state after `count` rounds from `n`, if `steps` assignments were made before. -/
structure Multiplied (n : Int) (steps count : Nat) (state : Interpreter) : Prop where
  plain : state.history = none
  product : state.int? "factorial" = some (falling n count)
  counter : state.int? "i" = some (n - count)
  made : state.steps = steps + (2 + 2 * count)

namespace Multiplied

variable {n : Int} {steps count : Nat} {state : Interpreter}

theorem toInt_product (done : Multiplied n steps count state) :
    (state.read "factorial").toInt = falling n count :=
  Interpreter.toInt_read done.product

theorem toInt_counter (done : Multiplied n steps count state) :
    (state.read "i").toInt = n - count :=
  Interpreter.toInt_read done.counter

theorem read_eq_zero_iff (done : Multiplied n steps count state) :
    state.read "i" = 0 ↔ n - count = 0 := by
  rw [← Int32.toInt_inj, done.toInt_counter]
  rfl

theorem exact_product (done : Multiplied n steps count state) :
    Op.mul.exact (state.read "factorial").toInt (state.read "i").toInt = falling n (count + 1) := by
  rw [done.toInt_product, done.toInt_counter]
  rfl

/-- The product is put first, so that the counter may still fail. -/
theorem multiply (done : Multiplied n steps count state)
    (fits : InRange (falling n (count + 1))) :
    ∃ product : Int32, product.toInt = falling n (count + 1) ∧
      factorialRound.run state =
        (Stmt.assign "i" (.binary .sub (.var "i") (.number 1))).run
          (state.put ⟨"factorial", product⟩) := by
  obtain ⟨product, hproduct, hran⟩ := run_operation done.plain .mul (evaluate_var "factorial")
    (evaluate_var "i") "factorial" nofun (by rwa [done.exact_product])
  refine ⟨product, hproduct.trans done.exact_product, ?_⟩
  rw [factorialRound, run_cons, hran]
  exact run_singleton _

/-- A round multiplies and counts down as long as both results are words. -/
theorem round (done : Multiplied n steps count state) (fits : InRange (falling n (count + 1)))
    (counts : InRange (n - (count + 1 : Nat))) :
    ∃ after, factorialRound.run state = .ok () after ∧ Multiplied n steps (count + 1) after := by
  obtain ⟨product, hproduct, hran⟩ := done.multiply fits
  have hplain : (state.put ⟨"factorial", product⟩).history = none := done.plain
  have hexact : Op.sub.exact ((state.put ⟨"factorial", product⟩).read "i").toInt
      (1 : Int32).toInt = n - (count + 1 : Nat) := by
    have hcounter : (state.put ⟨"factorial", product⟩).int? "i" = some (n - count) := by
      simpa using done.counter
    rw [Interpreter.toInt_read hcounter]
    show n - (count : Int) - 1 = _
    omega
  obtain ⟨counter, hcounter, hran'⟩ := run_operation hplain .sub (evaluate_var "i")
    (evaluate_number 1) "i" nofun (by rwa [hexact])
  refine ⟨_, hran.trans hran', done.plain, ?_, ?_, ?_⟩
  · simpa using hproduct
  · simpa using hcounter.trans hexact
  · simp only [Interpreter.steps_put, done.made]
    omega

/-- A product that is no word stops the program before the assignment. -/
theorem overflow (done : Multiplied n steps count state)
    (outside : ¬ InRange (falling n (count + 1))) :
    factorialRound.run state =
      .error (.fault (.arith (.overflow .mul (state.read "factorial") (state.read "i"))))
        state := by
  have hexact := done.exact_product
  rw [factorialRound, run_cons, run_operation_overflow .mul (evaluate_var "factorial")
    (evaluate_var "i") "factorial" nofun (by rwa [hexact])]

end Multiplied

/-- What a run of the program can be asked for: the two variables and the number of assignments. -/
def FactorialLeaves (after : Interpreter) (factorial i : Int) (steps : Nat) : Prop :=
  after.int? "factorial" = some factorial ∧ after.int? "i" = some i ∧ after.steps = steps

theorem Multiplied.leaves {n : Int} {steps count : Nat} {after : Interpreter}
    (done : Multiplied n steps count after) :
    FactorialLeaves after (falling n count) (n - count) (steps + (2 + 2 * count)) :=
  ⟨done.product, done.counter, done.made⟩

/-! ## Whole runs -/

section Run

variable {start : Interpreter} (plain : start.history = none) (n : Int32)

include plain in
/-- The program starts with the empty product and counts from `n`. -/
theorem run_factorial :
    ∃ begun, Multiplied n.toInt start.steps 0 begun ∧
      (Programs.factorial n).run start =
        Running.repeatWhile start.settings.loopLimit (.var "i") factorialRound.run 0 begun := by
  have hone : (Stmt.assign "factorial" (.number 1)).run start =
      .ok () (start.put ⟨"factorial", 1⟩) := run_assign plain "factorial" (evaluate_number 1)
  have hplain : (start.put ⟨"factorial", 1⟩).history = none := plain
  have hn : (Stmt.assign "i" (.number n)).run (start.put ⟨"factorial", 1⟩) =
      .ok () ((start.put ⟨"factorial", 1⟩).put ⟨"i", n⟩) :=
    run_assign hplain "i" (evaluate_number n)
  refine ⟨(start.put ⟨"factorial", 1⟩).put ⟨"i", n⟩, ⟨plain, ?_, ?_, rfl⟩, ?_⟩
  · simp [falling]
  · simp
  · rw [Programs.factorial, run_cons, hone]
    simp only
    rw [run_cons, hn]
    simp only
    rw [run_singleton, run_loop]
    rfl

include plain in
/-- Rounds are made as long as the limit allows them, the counter is not zero and all results are
words. -/
theorem run_factorial_rounds {count : Nat} (allowed : count ≤ start.settings.loopLimit)
    (nonzero : ∀ k < count, n.toInt - k ≠ 0)
    (products : ∀ k ≤ count, InRange (falling n.toInt k))
    (counters : ∀ k ≤ count, InRange (n.toInt - k)) :
    ∃ state, Multiplied n.toInt start.steps count state ∧
      (Programs.factorial n).run start =
        Running.repeatWhile start.settings.loopLimit (.var "i") factorialRound.run count state := by
  obtain ⟨begun, hbegun, hran⟩ := run_factorial plain n
  rw [hran]
  refine repeatWhile_rounds allowed ?_ hbegun
  intro done state hdone hstate
  obtain ⟨after, hround, hafter⟩ := hstate.round (products _ hdone) (counters _ hdone)
  exact ⟨_, after, evaluate_var "i", mt hstate.read_eq_zero_iff.1 (nonzero done hdone), hround,
    hafter⟩

include plain in
/-- Up to twelve, the factorial comes out if the limit allows as many rounds. -/
theorem factorial_finishes {count : Nat} (value : n.toInt = count) (small : count ≤ 12)
    (allowed : count ≤ start.settings.loopLimit) :
    (start.run (Programs.factorial n)).1 = .ok () ∧
      Multiplied n.toInt start.steps count (start.run (Programs.factorial n)).2 := by
  obtain ⟨after, hafter, hran⟩ := run_factorial_rounds plain n allowed
    (fun k hk => by omega)
    (fun k _ => by rw [value]; exact inRange_falling small k)
    (fun k _ => by unfold InRange; omega)
  have hzero : after.evaluate (.var "i") = .ok 0 := by
    rw [evaluate_var, hafter.read_eq_zero_iff.2 (by omega)]
  rw [repeatWhile_of_zero hzero] at hran
  rw [answer_of_ok hran]
  exact ⟨rfl, hafter⟩

/-- The counter does not come to zero as long as the products fit, if the program cannot finish. -/
theorem counter_ne_zero {n : Int} {limit count : Nat}
    (unfinished : ¬ (0 ≤ n ∧ n ≤ 12 ∧ n ≤ limit)) (allowed : count ≤ limit)
    (products : ∀ k ≤ count, InRange (falling n k)) : ∀ k ≤ count, n - k ≠ 0 := by
  intro k hk hzero
  obtain rfl : n = k := by omega
  have hfits := products k hk
  rw [falling_self, inRange_factorial_iff] at hfits
  omega

include plain in
/-- If all products within the limit are words and the counter does not come to zero, the limit is
used up. -/
theorem factorial_exceeds
    (unfinished : ¬ (0 ≤ n.toInt ∧ n.toInt ≤ 12 ∧ n.toInt ≤ start.settings.loopLimit))
    (counter : InRange (n.toInt - start.settings.loopLimit))
    (products : ∀ k ≤ start.settings.loopLimit, InRange (falling n.toInt k)) :
    (start.run (Programs.factorial n)).1 = .error (.fault (.loopLimit start.settings.loopLimit)) ∧
      Multiplied n.toInt start.steps start.settings.loopLimit
        (start.run (Programs.factorial n)).2 := by
  have hnonzero := counter_ne_zero unfinished (Nat.le_refl _) products
  have hword := inRange_toInt n
  obtain ⟨after, hafter, hran⟩ := run_factorial_rounds plain n (Nat.le_refl _)
    (fun k hk => hnonzero k (Nat.le_of_lt hk)) products
    (fun k hk => by unfold InRange at counter hword ⊢; omega)
  have htest : after.read "i" ≠ 0 := mt hafter.read_eq_zero_iff.1 (hnonzero _ (Nat.le_refl _))
  rw [repeatWhile_of_limit (evaluate_var "i") htest] at hran
  rw [answer_of_error hran]
  exact ⟨rfl, hafter⟩

/-- A program that neither finishes nor reaches its limit comes to a first product that does not
fit. -/
theorem exists_first_overflow {n : Int} {limit : Nat} (word : InRange n)
    (higher : n ≠ -2147483648) (unfinished : ¬ (0 ≤ n ∧ n ≤ 12 ∧ n ≤ limit))
    (outside : ¬ (InRange (n - limit) ∧ ∀ k ≤ limit, InRange (falling n k))) :
    ∃ count < limit, (∀ k ≤ count, InRange (falling n k)) ∧ ¬ InRange (falling n (count + 1)) := by
  have hsome : ∃ k, k ≤ limit ∧ ¬ InRange (falling n k) := by
    by_contra none
    have hproducts : ∀ k ≤ limit, InRange (falling n k) := by
      intro k hk
      by_contra hk'
      exact none ⟨k, hk, hk'⟩
    have hnonzero := counter_ne_zero unfinished (Nat.le_refl _) hproducts
    have hcounter := inRange_counter word higher hproducts fun k hk => hnonzero k (by omega)
    exact outside ⟨hcounter, hproducts⟩
  obtain ⟨hle, hfirst⟩ := Nat.find_spec hsome
  have hbefore : ∀ k < Nat.find hsome, InRange (falling n k) := by
    intro k hk
    by_contra hk'
    exact Nat.find_min hsome hk ⟨by omega, hk'⟩
  generalize Nat.find hsome = first at hle hfirst hbefore
  cases first with
  | zero => exact absurd (show InRange 1 by decide) hfirst
  | succ count => exact ⟨count, hle, fun k hk => hbefore k (by omega), hfirst⟩

include plain in
/-- Otherwise the first product that is no word stops the program, with the product so far and the
counter as they were. -/
theorem factorial_overflows {count : Nat} (allowed : count < start.settings.loopLimit)
    (higher : n.toInt ≠ -2147483648)
    (unfinished : ¬ (0 ≤ n.toInt ∧ n.toInt ≤ 12 ∧ n.toInt ≤ start.settings.loopLimit))
    (products : ∀ k ≤ count, InRange (falling n.toInt k))
    (outside : ¬ InRange (falling n.toInt (count + 1))) :
    (∃ product counter : Int32, product.toInt = falling n.toInt count ∧
        counter.toInt = n.toInt - count ∧
        (start.run (Programs.factorial n)).1 =
          .error (.fault (.arith (.overflow .mul product counter)))) ∧
      Multiplied n.toInt start.steps count (start.run (Programs.factorial n)).2 := by
  have hnonzero := counter_ne_zero unfinished (Nat.le_of_lt allowed) products
  obtain ⟨after, hafter, hran⟩ := run_factorial_rounds plain n (Nat.le_of_lt allowed)
    (fun k hk => hnonzero k (Nat.le_of_lt hk)) products
    (fun k hk => inRange_counter (inRange_toInt n) higher
      (fun j hj => products j (hj.trans hk)) fun j hj => hnonzero j (by omega))
  have htest : after.read "i" ≠ 0 := mt hafter.read_eq_zero_iff.1 (hnonzero _ (Nat.le_refl _))
  rw [repeatWhile_of_round (evaluate_var "i") htest allowed, hafter.overflow outside] at hran
  rw [answer_of_error hran]
  exact ⟨⟨_, _, hafter.toInt_product, hafter.toInt_counter, rfl⟩, hafter⟩

theorem toInt_eq_least_iff {n : Int32} : n.toInt = -2147483648 ↔ n = Int32.minValue := by
  rw [← Int32.toInt_inj]
  rfl

/-- With a limit of zero there is nothing that would not fit. -/
theorem pos_of_not_fits {n : Int32} {limit : Nat}
    (outside : ¬ (InRange (n.toInt - limit) ∧ ∀ k ≤ limit, InRange (falling n.toInt k))) :
    0 < limit := by
  refine Nat.pos_of_ne_zero ?_
  rintro rfl
  refine outside ⟨by simpa using inRange_toInt n, ?_⟩
  intro k hk
  rw [Nat.le_zero.1 hk]
  exact (show InRange 1 by decide)

include plain in
/-- From the least integer the first product fits, and then the counter has nowhere to go. -/
theorem factorial_of_least (least : n = Int32.minValue) (allowed : 0 < start.settings.loopLimit) :
    (start.run (Programs.factorial n)).1 =
        .error (.fault (.arith (.overflow .sub Int32.minValue 1))) ∧
      FactorialLeaves (start.run (Programs.factorial n)).2 (-2147483648) (-2147483648)
        (start.steps + 3) := by
  subst least
  obtain ⟨begun, hbegun, hran⟩ := run_factorial plain Int32.minValue
  obtain ⟨product, hproduct, hround⟩ := hbegun.multiply (by decide)
  have htest : begun.read "i" ≠ 0 := mt hbegun.read_eq_zero_iff.1 (by decide)
  have hcounter : (begun.put ⟨"factorial", product⟩).int? "i" = some (-2147483648) := by
    simpa using hbegun.counter
  have hread : (begun.put ⟨"factorial", product⟩).read "i" = Int32.minValue :=
    Int32.toInt_inj.1 (Interpreter.toInt_read hcounter)
  have hworth : (begun.put ⟨"factorial", product⟩).evaluate (.var "i") = .ok Int32.minValue := by
    rw [evaluate_var, hread]
  rw [repeatWhile_of_round (evaluate_var "i") htest allowed, hround,
    run_operation_overflow .sub hworth (evaluate_number 1) "i" nofun (by decide)] at hran
  rw [answer_of_error hran]
  refine ⟨rfl, ?_, hcounter, ?_⟩
  · simpa [falling] using hproduct
  · simp only [Interpreter.steps_put, hbegun.made]

include plain in
/-- Where no factorial can come out, the program does not finish. -/
theorem factorial_stops
    (unfinished : ¬ (0 ≤ n.toInt ∧ n.toInt ≤ 12 ∧ n.toInt ≤ start.settings.loopLimit)) :
    (start.run (Programs.factorial n)).1 ≠ .ok () := by
  by_cases fits : InRange (n.toInt - start.settings.loopLimit) ∧
      ∀ k ≤ start.settings.loopLimit, InRange (falling n.toInt k)
  · rw [(factorial_exceeds plain n unfinished fits.1 fits.2).1]
    exact nofun
  · by_cases least : n = Int32.minValue
    · rw [(factorial_of_least plain n least (pos_of_not_fits fits)).1]
      exact nofun
    · obtain ⟨count, hcount, hproducts, houtside⟩ :=
        exists_first_overflow (inRange_toInt n) (mt toInt_eq_least_iff.1 least) unfinished fits
      obtain ⟨⟨_, _, _, _, hanswer⟩, _⟩ := factorial_overflows plain n hcount
        (mt toInt_eq_least_iff.1 least) unfinished hproducts houtside
      rw [hanswer]
      exact nofun

end Run

/-- **The factorial program is exact or stops.** Run it for any 32-bit integer `n`, with any loop
limit and from any values, without a history. It finishes exactly if `n` is one of the integers from
zero to twelve and the limit lets it count down to zero; then it leaves the factorial of `n`. If it
does not finish and all products up to the limit fit, as well as the counter there, it stops at the
limit with the last of these products. Otherwise it stops at the first product that does not fit,
after the rounds before that, with the operands of the multiplication still in place; only from the
least integer it is the counter that does not fit, after one product. -/
theorem factorial_is_exact_or_stops (n : Int32) (settings : Settings) (values : Table Int32)
    (order : List String) (steps : Nat) :
    let start : Interpreter := { settings, values, order, steps, history := none }
    let limit := settings.loopLimit
    let answer := (start.run (Programs.factorial n)).1
    let after := (start.run (Programs.factorial n)).2
    let fits := InRange (n.toInt - limit) ∧
      ∀ k, 1 ≤ k → k ≤ limit → InRange (falling n.toInt k)
    (answer = .ok () ↔ 0 ≤ n.toInt ∧ n.toInt ≤ 12 ∧ n.toInt ≤ limit) ∧
      (answer = .ok () →
        FactorialLeaves after n.toInt.toNat.factorial 0 (steps + (2 + 2 * n.toInt.toNat))) ∧
      (answer ≠ .ok () → fits →
        answer = .error (.fault (.loopLimit limit)) ∧
          FactorialLeaves after (falling n.toInt limit) (n.toInt - limit)
            (steps + (2 + 2 * limit))) ∧
      (answer ≠ .ok () → ¬ fits → n ≠ Int32.minValue →
        ∃ k < limit, (∀ j ≤ k, InRange (falling n.toInt j)) ∧
          ¬ InRange (falling n.toInt (k + 1)) ∧
          (∃ product counter : Int32, product.toInt = falling n.toInt k ∧
            counter.toInt = n.toInt - k ∧
            answer = .error (.fault (.arith (.overflow .mul product counter)))) ∧
          FactorialLeaves after (falling n.toInt k) (n.toInt - k) (steps + (2 + 2 * k))) ∧
      (answer ≠ .ok () → ¬ fits → n = Int32.minValue →
        answer = .error (.fault (.arith (.overflow .sub Int32.minValue 1))) ∧
          FactorialLeaves after Int32.minValue.toInt Int32.minValue.toInt (steps + 3)) := by
  intro start limit answer after fits
  have hplain : start.history = none := rfl
  have hfits : fits ↔ InRange (n.toInt - limit) ∧ ∀ k ≤ limit, InRange (falling n.toInt k) := by
    refine and_congr_right fun _ => ⟨fun products k hk => ?_, fun products k _ hk => products k hk⟩
    cases k with
    | zero => exact (show InRange 1 by decide)
    | succ k => exact products (k + 1) (by omega) hk
  have hfinished (finished : 0 ≤ n.toInt ∧ n.toInt ≤ 12 ∧ n.toInt ≤ limit) :
      answer = .ok () ∧
        FactorialLeaves after n.toInt.toNat.factorial 0 (steps + (2 + 2 * n.toInt.toNat)) := by
    obtain ⟨count, hcount⟩ := Int.eq_ofNat_of_zero_le finished.1
    obtain ⟨hanswer, hdone⟩ := factorial_finishes hplain n hcount (by omega)
      (show count ≤ limit by omega)
    have hleaves := hdone.leaves
    rw [hcount, falling_self, Int.sub_self] at hleaves
    rw [hcount]
    exact ⟨hanswer, hleaves⟩
  have hok : answer = .ok () ↔ 0 ≤ n.toInt ∧ n.toInt ≤ 12 ∧ n.toInt ≤ limit :=
    ⟨fun finished => not_not.1 fun unfinished => factorial_stops hplain n unfinished finished,
      fun finished => (hfinished finished).1⟩
  refine ⟨hok, fun finished => (hfinished (hok.1 finished)).2, ?_, ?_, ?_⟩
  · intro stopped within
    obtain ⟨hcounter, hproducts⟩ := hfits.1 within
    obtain ⟨hanswer, hdone⟩ := factorial_exceeds hplain n (mt hok.2 stopped) hcounter hproducts
    exact ⟨hanswer, hdone.leaves⟩
  · intro stopped outside higher
    obtain ⟨k, hk, hproducts, hfirst⟩ := exists_first_overflow (inRange_toInt n)
      (mt toInt_eq_least_iff.1 higher) (mt hok.2 stopped) (mt hfits.2 outside)
    obtain ⟨hanswer, hdone⟩ := factorial_overflows hplain n hk (mt toInt_eq_least_iff.1 higher)
      (mt hok.2 stopped) hproducts hfirst
    exact ⟨k, hk, hproducts, hfirst, hanswer, hdone.leaves⟩
  · intro _ outside least
    exact factorial_of_least hplain n least (pos_of_not_fits (mt hfits.2 outside))

/-- Twelve finishes with the least limit that allows it, minus three is stopped at a limit, thirteen
overflows after ten rounds though its factorial was asked for with room to spare, and the least
integer cannot be counted down. -/
theorem factorial_of_thirteen_does_not_fit :
    let run := fun (n : Int32) (limit : Nat) =>
      Interpreter.run { settings := { loopLimit := limit } } (Programs.factorial n)
    ((run 12 12).1 = .ok () ∧ FactorialLeaves (run 12 12).2 479001600 0 26) ∧
      ((run (-3) 4).1 = .error (.fault (.loopLimit 4)) ∧
        FactorialLeaves (run (-3) 4).2 360 (-7) 10) ∧
      ((run 13 20).1 = .error (.fault (.arith (.overflow .mul 1037836800 3))) ∧
        FactorialLeaves (run 13 20).2 1037836800 3 22) ∧
      (run Int32.minValue 1).1 =
        .error (.fault (.arith (.overflow .sub Int32.minValue 1))) := by
  intro run
  obtain ⟨hfinishes, hleaves, _⟩ := factorial_is_exact_or_stops 12 { loopLimit := 12 } {} [] 0
  obtain ⟨hthree, _, hexceeds, _⟩ := factorial_is_exact_or_stops (-3) { loopLimit := 4 } {} [] 0
  obtain ⟨hthirteen, _, _, hoverflows, _⟩ :=
    factorial_is_exact_or_stops 13 { loopLimit := 20 } {} [] 0
  obtain ⟨hmin, _, _, _, hleast⟩ :=
    factorial_is_exact_or_stops Int32.minValue { loopLimit := 1 } {} [] 0
  have htwelve := hfinishes.2 (by decide)
  refine ⟨⟨htwelve, hleaves htwelve⟩, hexceeds (mt hthree.1 (by decide)) (by decide), ?_, ?_⟩
  · obtain ⟨k, hk, hproducts, hfirst, ⟨product, counter, hproduct, hcounter, hanswer⟩, hleft⟩ :=
      hoverflows (mt hthirteen.1 (by decide)) (by decide) (by decide)
    have hten : ∀ k < 20, (∀ j ≤ k, InRange (falling (13 : Int32).toInt j)) →
        ¬ InRange (falling (13 : Int32).toInt (k + 1)) → k = 10 := by decide
    obtain rfl : k = 10 := hten k hk hproducts hfirst
    obtain rfl : product = 1037836800 := Int32.toInt_inj.1 hproduct
    obtain rfl : counter = 3 := Int32.toInt_inj.1 hcounter
    exact ⟨hanswer, hleft⟩
  · exact (hleast (mt hmin.1 (by decide)) (by decide) rfl).1

end Primer.Lang
