import Primer.Lang.Programs
import Primer.Proofs.Lang.Running

/-!
# Counting up to zero

The loop of `Programs.countOrReset` adds one to `z` until `z` is zero. Each round changes nothing
but `z` (`Counted`), so the loop is told by where `z` starts: from below it comes to zero or to the
loop limit, from above it comes to the limit or to the greatest integer, and whichever of the two is
nearer stops it. Limit and overflow meet at one round: a limit that is just reached at the greatest
integer is the fault, and one more round would have been an overflow.
-/

namespace Primer.Lang

/-! ## Rounds -/

/-- What the program repeats: count `z` up. -/
def countRound : Stmt := .assign "z" (.binary .add (.var "z") (.number 1))

/-- The state after `count` rounds: `z` has gone up, and nothing else has changed. -/
structure Counted (start : Interpreter) (count : Nat) (state : Interpreter) : Prop where
  plain : state.history = none
  counter : (state.read "z").toInt = (start.read "z").toInt + count
  others : ∀ name, name ≠ "z" → state.get? name = start.get? name
  made : state.steps = start.steps + count

namespace Counted

variable {start state : Interpreter} {count : Nat}

theorem none (plain : start.history = none) : Counted start 0 start :=
  ⟨plain, by simp, fun _ _ => rfl, rfl⟩

theorem read_eq_zero_iff (counted : Counted start count state) :
    state.read "z" = 0 ↔ (start.read "z").toInt + count = 0 := by
  rw [← Int32.toInt_inj, counted.counter]
  rfl

theorem exact_counter (counted : Counted start count state) :
    Op.add.exact (state.read "z").toInt (1 : Int32).toInt =
      (start.read "z").toInt + (count + 1 : Nat) := by
  rw [counted.counter]
  show (start.read "z").toInt + (count : Int) + 1 = _
  omega

/-- A round counts up by one as long as the sum is a word. -/
theorem round (counted : Counted start count state)
    (fits : InRange ((start.read "z").toInt + (count + 1 : Nat))) :
    ∃ after, countRound.run state = .ok () after ∧ Counted start (count + 1) after := by
  obtain ⟨value, hvalue, hran⟩ := run_operation counted.plain .add (evaluate_var "z")
    (evaluate_number 1) "z" nofun (by rwa [counted.exact_counter])
  refine ⟨_, hran, counted.plain, ?_, ?_, ?_⟩
  · have hread : (state.put ⟨"z", value⟩).int? "z" = some value.toInt := by simp
    rw [Interpreter.toInt_read hread, hvalue, counted.exact_counter]
  · intro name other
    rw [Interpreter.get?_put, if_neg (Ne.symm other), counted.others name other]
  · rw [Interpreter.steps_put, counted.made]
    omega

/-- At the largest word the next round stops the program and changes nothing. -/
theorem overflow (counted : Counted start count state)
    (outside : ¬ InRange ((start.read "z").toInt + (count + 1 : Nat))) :
    countRound.run state =
      .error (.fault (.arith (.overflow .add (state.read "z") 1))) state :=
  run_operation_overflow .add (evaluate_var "z") (evaluate_number 1) "z" nofun
    (by rwa [counted.exact_counter])

end Counted

/-! ## The loop -/

section Loop

variable {start : Interpreter} (plain : start.history = none)

include plain in
/-- Rounds are made as long as the limit allows them, the counter is not zero and the sums are
words. -/
theorem run_count_rounds (count : Nat) (allowed : count ≤ start.settings.loopLimit)
    (nonzero : ∀ k < count, (start.read "z").toInt + k ≠ 0)
    (fits : (start.read "z").toInt + count ≤ 2147483647) :
    ∃ state, Counted start count state ∧
      (Stmt.loop (.var "z") countRound).run start =
        Running.repeatWhile start.settings.loopLimit (.var "z") countRound.run count state := by
  have hword := inRange_toInt (start.read "z")
  rw [run_loop]
  refine repeatWhile_rounds allowed ?_ (.none plain)
  intro done state hdone hstate
  obtain ⟨after, hround, hafter⟩ := hstate.round (by unfold InRange at hword ⊢; omega)
  exact ⟨_, after, evaluate_var "z", mt hstate.read_eq_zero_iff.1 (nonzero done hdone), hround,
    hafter⟩

include plain in
/-- From zero or below, the counter comes up to zero if the limit allows that many rounds. -/
theorem count_finishes (below : (start.read "z").toInt ≤ 0)
    (allowed : -(start.read "z").toInt ≤ start.settings.loopLimit) :
    ∃ after, (Stmt.loop (.var "z") countRound).run start = .ok () after ∧
      Counted start (-(start.read "z").toInt).toNat after := by
  obtain ⟨after, hafter, hran⟩ := run_count_rounds plain (-(start.read "z").toInt).toNat
    (by omega) (fun k hk => by omega) (by omega)
  have hzero : after.evaluate (.var "z") = .ok 0 := by
    rw [evaluate_var, hafter.read_eq_zero_iff.2 (by omega)]
  rw [repeatWhile_of_zero hzero] at hran
  exact ⟨after, hran, hafter⟩

include plain in
/-- A counter that does not meet zero within the limit uses the limit up. -/
theorem count_exceeds
    (nonzero : ∀ k ≤ start.settings.loopLimit, (start.read "z").toInt + k ≠ 0)
    (fits : (start.read "z").toInt + start.settings.loopLimit ≤ 2147483647) :
    ∃ after, (Stmt.loop (.var "z") countRound).run start =
        .error (.fault (.loopLimit start.settings.loopLimit)) after ∧
      Counted start start.settings.loopLimit after := by
  obtain ⟨after, hafter, hran⟩ := run_count_rounds plain _ (Nat.le_refl _)
    (fun k hk => nonzero k (Nat.le_of_lt hk)) fits
  have htest : after.read "z" ≠ 0 := mt hafter.read_eq_zero_iff.1 (nonzero _ (Nat.le_refl _))
  rw [repeatWhile_of_limit (evaluate_var "z") htest] at hran
  exact ⟨after, hran, hafter⟩

include plain in
/-- A positive counter never meets zero, so with enough rounds it comes up to the largest word and
overflows there. -/
theorem count_overflows (above : 0 < (start.read "z").toInt)
    (allowed : 2147483647 - (start.read "z").toInt < start.settings.loopLimit) :
    ∃ after, (Stmt.loop (.var "z") countRound).run start =
        .error (.fault (.arith (.overflow .add Int32.maxValue 1))) after ∧
      after.read "z" = Int32.maxValue ∧
      Counted start (2147483647 - (start.read "z").toInt).toNat after := by
  have hword := inRange_toInt (start.read "z")
  unfold InRange at hword
  obtain ⟨after, hafter, hran⟩ := run_count_rounds plain
    (2147483647 - (start.read "z").toInt).toNat (by omega) (fun k hk => by omega) (by omega)
  have hgreatest : after.read "z" = Int32.maxValue := by
    have htop : Int32.maxValue.toInt = 2147483647 := rfl
    rw [← Int32.toInt_inj, hafter.counter, htop]
    omega
  have htest : after.read "z" ≠ 0 := by
    rw [hgreatest]
    decide
  rw [repeatWhile_of_round (evaluate_var "z") htest (by omega),
    hafter.overflow (by unfold InRange; omega), hgreatest] at hran
  exact ⟨after, hran, hgreatest, hafter⟩

include plain in
/-- However the loop ends, it has done nothing but count. -/
theorem count_ends :
    ∃ count after, Counted start count after ∧
      ((Stmt.loop (.var "z") countRound).run start = .ok () after ∨
        ∃ halt, (Stmt.loop (.var "z") countRound).run start = .error halt after) := by
  rcases Int.lt_or_le 0 (start.read "z").toInt with above | below
  · rcases Int.lt_or_le (2147483647 - (start.read "z").toInt) start.settings.loopLimit with h | h
    · obtain ⟨after, hran, _, hafter⟩ := count_overflows plain above h
      exact ⟨_, after, hafter, .inr ⟨_, hran⟩⟩
    · obtain ⟨after, hran, hafter⟩ := count_exceeds plain (fun k hk => by omega) (by omega)
      exact ⟨_, after, hafter, .inr ⟨_, hran⟩⟩
  · rcases Int.lt_or_le start.settings.loopLimit (-(start.read "z").toInt) with h | h
    · obtain ⟨after, hran, hafter⟩ := count_exceeds plain (fun k hk => by omega) (by omega)
      exact ⟨_, after, hafter, .inr ⟨_, hran⟩⟩
    · obtain ⟨after, hran, hafter⟩ := count_finishes plain below h
      exact ⟨_, after, hafter, .inl hran⟩

end Loop

/-! ## The program -/

section Run

variable {start : Interpreter}

theorem run_countOrReset_of_not_inRange
    (outside : ¬ InRange ((start.read "x").toInt + (start.read "y").toInt)) :
    Programs.countOrReset.run start =
      .error (.fault (.arith (.overflow .add (start.read "x") (start.read "y")))) start := by
  rw [Programs.countOrReset, run_branch,
    evaluate_binary_of_not_inRange .add (evaluate_var "x") (evaluate_var "y") nofun outside]

theorem run_countOrReset_of_zero (plain : start.history = none)
    (zero : (start.read "x").toInt + (start.read "y").toInt = 0) :
    Programs.countOrReset.run start = .ok () (start.put ⟨"z", 7⟩) := by
  have hfits : InRange ((start.read "x").toInt + (start.read "y").toInt) := by
    rw [zero]
    decide
  obtain ⟨sum, hsum, hworth⟩ := evaluate_binary_of_inRange .add (evaluate_var "x")
    (evaluate_var "y") nofun hfits
  obtain rfl : sum = 0 := Int32.toInt_inj.1 (hsum.trans zero)
  rw [Programs.countOrReset, run_branch, hworth]
  exact run_assign plain "z" (evaluate_number 7)

/-- If the sum is not zero, `z` is counted up to zero, and then `x` is set. -/
theorem run_countOrReset_of_ne_zero
    (fits : InRange ((start.read "x").toInt + (start.read "y").toInt))
    (nonzero : (start.read "x").toInt + (start.read "y").toInt ≠ 0) :
    Programs.countOrReset.run start =
      match (Stmt.loop (.var "z") countRound).run start with
      | .ok () after => (Stmt.assign "x" (.number 8)).run after
      | .error halt after => .error halt after := by
  obtain ⟨sum, hsum, hworth⟩ := evaluate_binary_of_inRange .add (evaluate_var "x")
    (evaluate_var "y") nofun fits
  have htest : sum ≠ 0 := by
    rintro rfl
    exact nonzero hsum.symm
  rw [Programs.countOrReset, run_branch, hworth]
  simp only [ne_eq, htest, not_false_eq_true, if_true]
  rw [run_cons]
  simp only [run_singleton]
  rfl

theorem answer_of_loop_ok {state : Interpreter} (plain : state.history = none)
    (sum : InRange ((start.read "x").toInt + (start.read "y").toInt) ∧
      (start.read "x").toInt + (start.read "y").toInt ≠ 0)
    (loop : (Stmt.loop (.var "z") countRound).run start = .ok () state) :
    start.run Programs.countOrReset = (.ok (), state.put ⟨"x", 8⟩) := by
  apply answer_of_ok
  rw [run_countOrReset_of_ne_zero sum.1 sum.2, loop]
  exact run_assign plain "x" (evaluate_number 8)

theorem answer_of_loop_error {state : Interpreter} {halt : Halt}
    (sum : InRange ((start.read "x").toInt + (start.read "y").toInt) ∧
      (start.read "x").toInt + (start.read "y").toInt ≠ 0)
    (loop : (Stmt.loop (.var "z") countRound).run start = .error halt state) :
    start.run Programs.countOrReset = (.error halt, state) := by
  apply answer_of_error
  rw [run_countOrReset_of_ne_zero sum.1 sum.2, loop]

/-- The whole program if `x` and `y` cancel out. -/
theorem countOrReset_resets (plain : start.history = none)
    (zero : (start.read "x").toInt + (start.read "y").toInt = 0) :
    (start.run Programs.countOrReset).1 = .ok () ∧
      (start.run Programs.countOrReset).2.get? "z" = some 7 ∧
      (start.run Programs.countOrReset).2.get? "x" = start.get? "x" ∧
      (start.run Programs.countOrReset).2.steps = start.steps + 1 := by
  rw [answer_of_ok (run_countOrReset_of_zero plain zero)]
  simp

section Counts

variable (plain : start.history = none)
  (sum : InRange ((start.read "x").toInt + (start.read "y").toInt) ∧
    (start.read "x").toInt + (start.read "y").toInt ≠ 0)

include plain sum

/-- The whole program if the loop ends: `x` is 8, `z` is zero, and each round was one step. -/
theorem countOrReset_finishes (below : (start.read "z").toInt ≤ 0)
    (allowed : -(start.read "z").toInt ≤ start.settings.loopLimit) :
    (start.run Programs.countOrReset).1 = .ok () ∧
      (start.run Programs.countOrReset).2.get? "x" = some 8 ∧
      (start.run Programs.countOrReset).2.read "z" = 0 ∧
      ((start.run Programs.countOrReset).2.steps : Int) =
        start.steps + (1 - (start.read "z").toInt) := by
  obtain ⟨state, hran, hstate⟩ := count_finishes plain below allowed
  have hzero : state.read "z" = 0 := hstate.read_eq_zero_iff.2 (by omega)
  have hread : (state.put ⟨"x", 8⟩).read "z" = state.read "z" := by
    simp [Interpreter.read]
  rw [answer_of_loop_ok hstate.plain sum hran]
  refine ⟨rfl, by simp, hread.trans hzero, ?_⟩
  rw [Interpreter.steps_put, hstate.made]
  omega

/-- The whole program if the loop uses up its limit: `z` was counted up as often as allowed. -/
theorem countOrReset_exceeds
    (exceeds : (start.read "z").toInt < 0 ∧
        start.settings.loopLimit < -(start.read "z").toInt ∨
      0 < (start.read "z").toInt ∧
        start.settings.loopLimit ≤ 2147483647 - (start.read "z").toInt) :
    (start.run Programs.countOrReset).1 =
        .error (.fault (.loopLimit start.settings.loopLimit)) ∧
      ((start.run Programs.countOrReset).2.read "z").toInt =
        (start.read "z").toInt + start.settings.loopLimit ∧
      (start.run Programs.countOrReset).2.get? "x" = start.get? "x" := by
  obtain ⟨state, hran, hstate⟩ := count_exceeds plain (fun k hk => by omega) (by omega)
  rw [answer_of_loop_error sum hran]
  exact ⟨rfl, hstate.counter, hstate.others "x" (by decide)⟩

/-- The whole program if the counter overflows: `z` is the largest word, and `x` is left alone. -/
theorem countOrReset_overflows (above : 0 < (start.read "z").toInt)
    (allowed : 2147483647 - (start.read "z").toInt < start.settings.loopLimit) :
    (start.run Programs.countOrReset).1 =
        .error (.fault (.arith (.overflow .add Int32.maxValue 1))) ∧
      (start.run Programs.countOrReset).2.get? "z" = some Int32.maxValue ∧
      (start.run Programs.countOrReset).2.get? "x" = start.get? "x" := by
  obtain ⟨state, hran, hgreatest, hstate⟩ := count_overflows plain above allowed
  have hnonzero : state.read "z" ≠ 0 := by
    rw [hgreatest]
    decide
  rw [answer_of_loop_error sum hran]
  refine ⟨rfl, ?_, hstate.others "x" (by decide)⟩
  rw [Interpreter.get?_of_read_ne_zero hnonzero, hgreatest]

end Counts

/-- Whatever happens, only `x` and `z` can change. -/
theorem get?_countOrReset (plain : start.history = none) {name : String} (notX : name ≠ "x")
    (notZ : name ≠ "z") : (start.run Programs.countOrReset).2.get? name = start.get? name := by
  by_cases fits : InRange ((start.read "x").toInt + (start.read "y").toInt)
  · by_cases zero : (start.read "x").toInt + (start.read "y").toInt = 0
    · rw [answer_of_ok (run_countOrReset_of_zero plain zero), Interpreter.get?_put,
        if_neg (Ne.symm notZ)]
    · obtain ⟨_, after, hafter, hran | ⟨halt, hran⟩⟩ := count_ends plain
      · rw [answer_of_loop_ok hafter.plain ⟨fits, zero⟩ hran, Interpreter.get?_put,
          if_neg (Ne.symm notX)]
        exact hafter.others name notZ
      · rw [answer_of_loop_error ⟨fits, zero⟩ hran]
        exact hafter.others name notZ
  · rw [answer_of_error (run_countOrReset_of_not_inRange fits)]

end Run

/-- **The program from every start.** Let the variables read `x`, `y` and `z`, zero if they have no
value, and run without a history and with any loop limit. If `x + y` does not fit, that is the fault
and nothing has changed. If it is zero, only `z` is set, to seven. Otherwise `z` is counted up. From
below and within the limit it comes to zero, and then `x` is set to eight; the assignments are one
for each round and one for `x`. From below with a smaller limit, and from above with a limit that
ends no later than the greatest integer, the loop is stopped at the limit; from above with a larger
limit the next number does not fit. In all these cases `x` is as it was, and other variables never
change. -/
theorem countOrReset_from_every_start (settings : Settings) (values : Table Int32)
    (order : List String) (steps : Nat) :
    let start : Interpreter := { settings, values, order, steps, history := none }
    let limit := settings.loopLimit
    let x := start.read "x"
    let y := start.read "y"
    let z := start.read "z"
    let answer := (start.run Programs.countOrReset).1
    let after := (start.run Programs.countOrReset).2
    let counts := InRange (x.toInt + y.toInt) ∧ x.toInt + y.toInt ≠ 0
    (¬ InRange (x.toInt + y.toInt) →
        answer = .error (.fault (.arith (.overflow .add x y))) ∧ after = start) ∧
      (x.toInt + y.toInt = 0 →
        answer = .ok () ∧ after.get? "z" = some 7 ∧ after.get? "x" = start.get? "x" ∧
          after.steps = steps + 1) ∧
      (counts → z.toInt ≤ 0 → -z.toInt ≤ limit →
        answer = .ok () ∧ after.get? "x" = some 8 ∧ after.read "z" = 0 ∧
          (after.steps : Int) = steps + (1 - z.toInt)) ∧
      (counts → z.toInt < 0 → limit < -z.toInt →
        answer = .error (.fault (.loopLimit limit)) ∧
          (after.read "z").toInt = z.toInt + limit ∧ after.get? "x" = start.get? "x") ∧
      (counts → 0 < z.toInt → Int32.maxValue.toInt - z.toInt < limit →
        answer = .error (.fault (.arith (.overflow .add Int32.maxValue 1))) ∧
          after.get? "z" = some Int32.maxValue ∧ after.get? "x" = start.get? "x") ∧
      (counts → 0 < z.toInt → limit ≤ Int32.maxValue.toInt - z.toInt →
        answer = .error (.fault (.loopLimit limit)) ∧
          (after.read "z").toInt = z.toInt + limit ∧ after.get? "x" = start.get? "x") ∧
      ∀ name, name ≠ "x" → name ≠ "z" → after.get? name = start.get? name := by
  intro start limit x y z answer after counts
  have hplain : start.history = none := rfl
  refine ⟨?_, ?_, ?_, ?_, ?_, ?_, ?_⟩
  · intro outside
    have hran := answer_of_error (run_countOrReset_of_not_inRange outside)
    exact ⟨congrArg Prod.fst hran, congrArg Prod.snd hran⟩
  · exact countOrReset_resets hplain
  · exact countOrReset_finishes hplain
  · intro hcounts below exceeds
    exact countOrReset_exceeds hplain hcounts (.inl ⟨below, exceeds⟩)
  · exact countOrReset_overflows hplain
  · intro hcounts above allowed
    exact countOrReset_exceeds hplain hcounts (.inr ⟨above, allowed⟩)
  · intro name
    exact get?_countOrReset hplain

/-- With a limit of three, counting from minus three finishes, from minus four it is stopped one
short of zero. Two below the greatest integer a limit of two is reached and a limit of three is not,
because the next number does not fit. -/
theorem limit_and_overflow_are_one_round_apart :
    let run := fun (z : Int32) (limit : Nat) =>
      Interpreter.run { settings := { loopLimit := limit }, values := ⟨[("z", z), ("y", 1)]⟩ }
        Programs.countOrReset
    ((run (-3) 3).1 = .ok () ∧ (run (-3) 3).2.read "z" = 0) ∧
      ((run (-4) 3).1 = .error (.fault (.loopLimit 3)) ∧
        ((run (-4) 3).2.read "z").toInt = -1) ∧
      (run 2147483645 2).1 = .error (.fault (.loopLimit 2)) ∧
      (run 2147483645 3).1 = .error (.fault (.arith (.overflow .add 2147483647 1))) := by
  intro run
  obtain ⟨_, _, hfinishes, _⟩ := countOrReset_from_every_start { loopLimit := 3 }
    ⟨[("z", -3), ("y", 1)]⟩ [] 0
  obtain ⟨_, _, _, hexceeds, _⟩ := countOrReset_from_every_start { loopLimit := 3 }
    ⟨[("z", -4), ("y", 1)]⟩ [] 0
  obtain ⟨_, _, _, _, _, hreaches, _⟩ := countOrReset_from_every_start { loopLimit := 2 }
    ⟨[("z", 2147483645), ("y", 1)]⟩ [] 0
  obtain ⟨_, _, _, _, hoverflows, _⟩ := countOrReset_from_every_start { loopLimit := 3 }
    ⟨[("z", 2147483645), ("y", 1)]⟩ [] 0
  have hdone := hfinishes (by decide) (by decide) (by decide)
  have hstopped := hexceeds (by decide) (by decide) (by decide)
  exact ⟨⟨hdone.1, hdone.2.2.1⟩, ⟨hstopped.1, hstopped.2.1⟩,
    (hreaches (by decide) (by decide) (by decide)).1,
    (hoverflows (by decide) (by decide) (by decide)).1⟩

end Primer.Lang
