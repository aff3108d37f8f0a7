import Mathlib.Logic.Function.Iterate
import Primer.Proofs.Lang.Running

/-!
# Running time

A run can be taken by turns: an agenda lists what is still to be done, and a turn does the next bit
of it, which is one assignment, one test or the opening of one block or loop (`Stage.turn`). Nothing
bounds the number of turns beforehand, and a loop comes back to the agenda as often as its test
holds. That the turns come to an end is due to the loop limit alone: each turn makes the agenda
smaller by a measure that counts `limit` rounds for every loop (`Advances`, `advances_turn`), and so
does the number of assignments that may still come. The turns end as the run does
(`halts_as_run`), so a run makes no more assignments than the text of the program and the limit
allow (`running_time_is_bounded`).
-/

namespace Primer.Lang

/-! ## What a program may cost -/

mutual

/-- The most assignments that a statement can make with a loop limit. -/
def Stmt.work (limit : Nat) : Stmt → Nat
  | .assign _ _ => 1
  | .block body => Stmt.workAll limit body
  | .branch _ yes no => max (yes.work limit) (no.work limit)
  | .loop _ body => limit * body.work limit

/-- The most assignments that statements can make one after another. -/
def Stmt.workAll (limit : Nat) : List Stmt → Nat
  | [] => 0
  | first :: rest => first.work limit + Stmt.workAll limit rest

end

mutual

/-- The most turns that a statement can take with a loop limit. -/
def Stmt.turns (limit : Nat) : Stmt → Nat
  | .assign _ _ => 1
  | .block body => Stmt.turnsAll limit body
  | .branch _ yes no => 1 + max (yes.turns limit) (no.turns limit)
  | .loop _ body => 2 + limit * (1 + body.turns limit)

/-- The most turns that statements can take one after another. -/
def Stmt.turnsAll (limit : Nat) : List Stmt → Nat
  | [] => 1
  | first :: rest => 1 + first.turns limit + Stmt.turnsAll limit rest

end

/-! ## Runs by turns -/

/-- What is still to be done: a statement, or a loop with some iterations behind it. -/
inductive Task where
  | stmt (program : Stmt)
  | again (limit : Nat) (test : Expr) (body : Stmt) (iterations : Nat)

/-- A run under way, or how it ended. -/
inductive Stage where
  | running (agenda : List Task) (state : Interpreter)
  | halted (answer : Except Halt Unit) (state : Interpreter)

namespace Stage

/-- Go on with the agenda after an action, unless the action halted. -/
def after (agenda : List Task) : EStateM.Result Halt Interpreter Unit → Stage
  | .ok () state => running agenda state
  | .error halt state => halted (.error halt) state

/-- Do the next bit of the agenda. -/
def turn : Stage → Stage
  | halted answer state => halted answer state
  | running [] state => halted (.ok ()) state
  | running (.stmt (.assign name value) :: agenda) state =>
    match state.evaluate value with
    | .ok value => after agenda (Running.store name value state)
    | .error fault => halted (.error (.fault fault)) state
  | running (.stmt (.block []) :: agenda) state => running agenda state
  | running (.stmt (.block (first :: rest)) :: agenda) state =>
    running (.stmt first :: .stmt (.block rest) :: agenda) state
  | running (.stmt (.branch test yes no) :: agenda) state =>
    match state.evaluate test with
    | .ok value => running (.stmt (if value ≠ 0 then yes else no) :: agenda) state
    | .error fault => halted (.error (.fault fault)) state
  | running (.stmt (.loop test body) :: agenda) state =>
    running (.again state.settings.loopLimit test body 0 :: agenda) state
  | running (.again limit test body iterations :: agenda) state =>
    match state.evaluate test with
    | .ok value =>
      if value = 0 then running agenda state
      else if iterations < limit then
        running (.stmt body :: .again limit test body (iterations + 1) :: agenda) state
      else halted (.error (.fault (.loopLimit limit))) state
    | .error fault => halted (.error (.fault fault)) state

/-- Turns lead from one stage to another. -/
def Leads (stage other : Stage) : Prop := ∃ count, turn^[count] stage = other

theorem Leads.refl (stage : Stage) : Leads stage stage := ⟨0, rfl⟩

theorem Leads.trans {first second third : Stage} (before : Leads first second)
    (more : Leads second third) : Leads first third := by
  obtain ⟨count, rfl⟩ := before
  obtain ⟨count', rfl⟩ := more
  exact ⟨count' + count, Function.iterate_add_apply turn count' count first⟩

theorem Leads.turn {stage other : Stage} (leads : Leads stage.turn other) : Leads stage other := by
  obtain ⟨count, rfl⟩ := leads
  exact ⟨count + 1, rfl⟩

end Stage

/-! ## The turns end as the run does -/

open Stage in
/-- If the body leads to where its run ends, so does the loop, by as many turns as its rounds
take. -/
theorem leads_again {limit : Nat} {test : Expr} {body : Stmt} {agenda : List Task}
    (runs : ∀ agenda state, Leads (running (.stmt body :: agenda) state)
      (after agenda (body.run state)))
    (iterations : Nat) (state : Interpreter) :
    Leads (running (.again limit test body iterations :: agenda) state)
      (after agenda (Running.repeatWhile limit test body.run iterations state)) := by
  apply Leads.turn
  rw [repeatWhile_eq]
  simp only [turn]
  cases state.evaluate test with
  | error fault => exact .refl _
  | ok value =>
    by_cases zero : value = 0
    · simpa [zero] using .refl _
    · by_cases allowed : iterations < limit
      · simp only [zero, if_false, allowed, if_true]
        refine (runs _ state).trans ?_
        cases body.run state with
        | error halt state' => exact .refl _
        | ok _ state' => exact leads_again runs (iterations + 1) state'
      · simpa [zero, allowed] using .refl _
termination_by limit - iterations

open Stage in
/-- Turn by turn, a statement on the agenda leads to where its run ends, with the rest of the agenda
still to do. -/
theorem leads_stmt (stmt : Stmt) (agenda : List Task) (state : Interpreter) :
    Leads (running (.stmt stmt :: agenda) state) (after agenda (stmt.run state)) := by
  induction stmt using Stmt.blockInduction generalizing agenda state with
  | assign name value =>
    apply Leads.turn
    rw [run_assign_eq]
    simp only [turn]
    cases state.evaluate value <;> exact .refl _
  | nil =>
    apply Leads.turn
    rw [run_nil]
    exact .refl _
  | cons first rest ihFirst ihRest =>
    apply Leads.turn
    rw [run_cons]
    refine (ihFirst _ state).trans ?_
    cases first.run state with
    | error halt state' => exact .refl _
    | ok _ state' => exact ihRest agenda state'
  | branch test yes no ihYes ihNo =>
    apply Leads.turn
    rw [run_branch]
    simp only [turn]
    cases state.evaluate test with
    | error fault => exact .refl _
    | ok value =>
      by_cases zero : value = 0
      · simpa [zero] using ihNo agenda state
      · simpa [zero] using ihYes agenda state
  | loop test body ih =>
    apply Leads.turn
    rw [run_loop]
    exact leads_again ih 0 state

/-- Taken by turns, a program ends with the answer and in the state of its run. -/
theorem halts_as_run (program : Stmt) (start : Interpreter) :
    Stage.Leads (.running [.stmt program] start)
      (.halted (start.run program).1 (start.run program).2) := by
  refine (leads_stmt program [] start).trans (Stage.Leads.turn ?_)
  unfold Interpreter.run
  cases program.run start <;> exact .refl _

/-! ## Every turn makes progress -/

/-- The most assignments that a task can make, with a limit for the loops inside of it. -/
def Task.work (limit : Nat) : Task → Nat
  | .stmt program => program.work limit
  | .again bound _ body iterations => (bound - iterations) * body.work limit

/-- The most turns that a task can take. -/
def Task.turns (limit : Nat) : Task → Nat
  | .stmt program => program.turns limit
  | .again bound _ body iterations => 1 + (bound - iterations) * (1 + body.turns limit)

namespace Stage

/-- The interpreter as a stage has it. -/
def state : Stage → Interpreter
  | running _ state => state
  | halted _ state => state

/-- The most assignments that may still come. -/
def work : Stage → Nat
  | running agenda state => total (Task.work state.settings.loopLimit) agenda
  | halted _ _ => 0

/-- The most turns that may still come. -/
def size : Stage → Nat
  | running agenda state => 1 + total (Task.turns state.settings.loopLimit) agenda
  | halted _ _ => 0

end Stage

/-- The second stage is closer to the end: fewer turns are left, and the assignments that were made
are taken off those that may come. -/
structure Advances (stage next : Stage) : Prop where
  steps_le : stage.state.steps ≤ next.state.steps
  work_le : next.state.steps + next.work ≤ stage.state.steps + stage.work
  size_lt : next.size < stage.size

/-- An assignment is counted once, whether it is then recorded or halts. -/
theorem store_counts (name : String) (value : Int32) (interpreter : Interpreter) :
    ∃ after, after.settings = interpreter.settings ∧ after.steps = interpreter.steps + 1 ∧
      (Running.store name value interpreter = .ok () after ∨
        ∃ halt, Running.store name value interpreter = .error halt after) := by
  have hput : (interpreter.put ⟨name, value⟩).settings = interpreter.settings := rfl
  have hsteps : (interpreter.put ⟨name, value⟩).steps = interpreter.steps + 1 := rfl
  rw [store_eq_record ⟨name, value⟩, record_eq]
  generalize interpreter.put ⟨name, value⟩ = state at hput hsteps ⊢
  cases state.history with
  | none => exact ⟨state, hput, hsteps, .inl rfl⟩
  | some log =>
    cases state.symbols with
    | error halt => exact ⟨state, hput, hsteps, .inr ⟨halt, rfl⟩⟩
    | ok symbols =>
      dsimp only
      cases log.push ⟨state.steps, ⟨symbols⟩⟩ with
      | ok longer => exact ⟨{ state with history := some longer }, hput, hsteps, .inl rfl⟩
      | error full => exact ⟨state, hput, hsteps, .inr ⟨_, rfl⟩⟩

section Turn

variable {agenda : List Task} {state : Interpreter}

/-- A run that halts where it is has nothing before it any more. -/
theorem Advances.halt (answer : Except Halt Unit) :
    Advances (.running agenda state) (.halted answer state) where
  steps_le := Nat.le_refl _
  work_le := Nat.add_le_add_left (Nat.zero_le _) _
  size_lt := Nat.lt_of_lt_of_le Nat.one_pos (Nat.le_add_right _ _)

/-- Putting tasks in the place of the first one advances a run if they cost no more assignments and
fewer turns. -/
theorem Advances.replace {task : Task} (tasks : List Task)
    (work : total (Task.work state.settings.loopLimit) tasks ≤ task.work state.settings.loopLimit)
    (turns : total (Task.turns state.settings.loopLimit) tasks <
      task.turns state.settings.loopLimit) :
    Advances (.running (task :: agenda) state) (.running (tasks ++ agenda) state) where
  steps_le := Nat.le_refl _
  work_le := by
    simp only [Stage.state, Stage.work, total_append, total_cons]
    omega
  size_lt := by
    simp only [Stage.size, total_append, total_cons]
    omega

/-- What is left to do after a part was run is at most the rest of the agenda. -/
theorem after_costs {result : EStateM.Result Halt Interpreter Unit}
    (ran : result = .ok () state ∨ ∃ halt, result = .error halt state) :
    (Stage.after agenda result).state = state ∧
      (Stage.after agenda result).work ≤ total (Task.work state.settings.loopLimit) agenda ∧
      (Stage.after agenda result).size ≤
        1 + total (Task.turns state.settings.loopLimit) agenda := by
  rcases ran with rfl | ⟨halt, rfl⟩
  · exact ⟨rfl, Nat.le_refl _, Nat.le_refl _⟩
  · exact ⟨rfl, Nat.zero_le _, Nat.zero_le _⟩

theorem Advances.assign (name : String) (value : Expr) (word : Int32) :
    Advances (.running (.stmt (.assign name value) :: agenda) state)
      (.after agenda (Running.store name word state)) := by
  obtain ⟨next, hsettings, hsteps, hran⟩ := store_counts name word state
  obtain ⟨hstate, hwork, hsize⟩ := @after_costs agenda next _ hran
  rw [hsettings] at hwork hsize
  refine ⟨?_, ?_, ?_⟩
  · rw [hstate, hsteps]
    exact Nat.le_add_right _ _
  · rw [hstate, hsteps]
    simp only [Stage.state, Stage.work, total_cons, Task.work, Stmt.work] at hwork ⊢
    omega
  · simp only [Stage.size, total_cons, Task.turns, Stmt.turns] at hsize ⊢
    omega

/-- A turn takes at least one unit off the size of what is left to do, and no more steps than it
takes off the work. -/
theorem advances_turn (agenda : List Task) (state : Interpreter) :
    Advances (.running agenda state) (Stage.turn (.running agenda state)) := by
  match agenda with
  | [] => exact .halt _
  | .stmt (.assign name value) :: agenda =>
    simp only [Stage.turn]
    cases state.evaluate value with
    | error fault => exact .halt _
    | ok word => exact .assign name value word
  | .stmt (.block []) :: agenda =>
    refine Advances.replace [] ?_ ?_
    · simp [Task.work, Stmt.work, Stmt.workAll]
    · simp [Task.turns, Stmt.turns, Stmt.turnsAll]
  | .stmt (.block (first :: rest)) :: agenda =>
    refine Advances.replace [.stmt first, .stmt (.block rest)] ?_ ?_
    · simp [Task.work, Stmt.work, Stmt.workAll]
    · simp only [total_cons, total_nil, Task.turns, Stmt.turns, Stmt.turnsAll]
      omega
  | .stmt (.branch test yes no) :: agenda =>
    simp only [Stage.turn]
    cases state.evaluate test with
    | error fault => exact .halt _
    | ok value =>
      refine Advances.replace [.stmt (if value ≠ 0 then yes else no)] ?_ ?_ <;>
        simp only [total_cons, total_nil, Task.work, Task.turns, Stmt.work, Stmt.turns] <;>
        split <;> omega
  | .stmt (.loop test body) :: agenda =>
    refine Advances.replace [.again state.settings.loopLimit test body 0] ?_ ?_
    · simp [Task.work, Stmt.work]
    · simp only [total_cons, total_nil, Task.turns, Stmt.turns, Nat.sub_zero]
      omega
  | .again limit test body iterations :: agenda =>
    simp only [Stage.turn]
    cases state.evaluate test with
    | error fault => exact .halt _
    | ok value =>
      by_cases zero : value = 0
      · simp only [zero, if_true]
        refine Advances.replace [] (Nat.zero_le _) ?_
        simp only [total_nil, Task.turns]
        omega
      · simp only [zero, if_false]
        by_cases allowed : iterations < limit
        · -- One of the iterations that were left becomes the body itself.
          have hleft : limit - iterations = limit - (iterations + 1) + 1 := by omega
          simp only [allowed, if_true]
          refine Advances.replace [.stmt body, .again limit test body (iterations + 1)] ?_ ?_
          · simp only [total_cons, total_nil, Task.work, hleft, Nat.succ_mul]
            omega
          · simp only [total_cons, total_nil, Task.turns, hleft, Nat.succ_mul]
            omega
        · simp only [allowed, if_false]
          exact .halt _

end Turn

/-! ## Every run ends -/

theorem iterate_turn_halted (count : Nat) (answer : Except Halt Unit) (state : Interpreter) :
    Stage.turn^[count] (.halted answer state) = .halted answer state :=
  Function.iterate_fixed rfl count

/-- A stage has halted after as many turns as its size. -/
theorem halts_within_size {stage : Stage} {count : Nat} (enough : stage.size ≤ count) :
    ∃ answer state, Stage.turn^[count] stage = .halted answer state := by
  induction count generalizing stage with
  | zero =>
    cases stage with
    | halted answer state => exact ⟨answer, state, rfl⟩
    | running agenda state =>
      simp only [Stage.size] at enough
      omega
  | succ count ih =>
    cases stage with
    | halted answer state => exact ⟨answer, state, iterate_turn_halted (count + 1) answer state⟩
    | running agenda state =>
      have hsmaller := (advances_turn agenda state).size_lt
      exact ih (by omega)

theorem turn_spends (stage : Stage) :
    stage.state.steps ≤ stage.turn.state.steps ∧
      stage.turn.state.steps + stage.turn.work ≤ stage.state.steps + stage.work := by
  cases stage with
  | halted answer state => exact ⟨Nat.le_refl _, Nat.le_refl _⟩
  | running agenda state =>
    have hadvances := advances_turn agenda state
    exact ⟨hadvances.steps_le, hadvances.work_le⟩

/-- Over any number of turns, the steps made are paid for by the work that was charged. -/
theorem Stage.Leads.spends {stage other : Stage} (leads : Leads stage other) :
    stage.state.steps ≤ other.state.steps ∧
      other.state.steps + other.work ≤ stage.state.steps + stage.work := by
  obtain ⟨count, rfl⟩ := leads
  induction count generalizing stage with
  | zero => exact ⟨Nat.le_refl _, Nat.le_refl _⟩
  | succ count ih =>
    obtain ⟨hsteps, hwork⟩ := turn_spends stage
    obtain ⟨hsteps', hwork'⟩ := @ih stage.turn
    exact ⟨Nat.le_trans hsteps hsteps', Nat.le_trans hwork' hwork⟩

section Run

variable (program : Stmt) (start : Interpreter)

/-- A run makes assignments, and no more of them than its program can. -/
theorem steps_run_le :
    start.steps ≤ (start.run program).2.steps ∧
      (start.run program).2.steps ≤
        start.steps + program.work start.settings.loopLimit := by
  have hspends := (halts_as_run program start).spends
  simpa [Stage.state, Stage.work, Task.work] using hspends

/-- The turns come to their end in a time that is known beforehand. -/
theorem iterate_turn_eq_halted :
    Stage.turn^[1 + program.turns start.settings.loopLimit] (.running [.stmt program] start) =
      .halted (start.run program).1 (start.run program).2 := by
  obtain ⟨count, hcount⟩ := halts_as_run program start
  have hsize : (Stage.running [.stmt program] start).size ≤
      1 + program.turns start.settings.loopLimit := by
    simp [Stage.size, Task.turns]
  obtain ⟨answer, state, hhalted⟩ := halts_within_size hsize
  -- Whichever of the two numbers of turns is larger, nothing happens after the smaller.
  have hsame := congrArg (fun stage => Stage.turn^[count] stage) hhalted
  simp only [iterate_turn_halted] at hsame
  rw [← Function.iterate_add_apply, Nat.add_comm, Function.iterate_add_apply, hcount,
    iterate_turn_halted] at hsame
  rw [hhalted, hsame]

end Run

/-- **Running time is bounded by the text and the limit.** Run a program on any interpreter, with
whatever variables and history it has. The run ends: taken by turns, it has halted after a number of
turns that follows from the text of the program and the loop limit, and what it has then come to is
the answer and the state of the run. It has made at most as many assignments as the program can
make: one for an assignment, the sum for a block, the larger number for a branch and, for a loop,
its body as often as the limit allows. On an interpreter that has run any programs before, the
answer is that the run finished or a fault. -/
theorem running_time_is_bounded (program : Stmt) :
    (∀ start : Interpreter,
      Stage.turn^[1 + program.turns start.settings.loopLimit] (.running [.stmt program] start) =
          .halted (start.run program).1 (start.run program).2 ∧
        start.steps ≤ (start.run program).2.steps ∧
        (start.run program).2.steps ≤ start.steps + program.work start.settings.loopLimit) ∧
    ∀ (settings : Settings) (before : List Stmt),
      let answer := ((settings.interpreter.runs before).2.run program).1
      answer = .ok () ∨ ∃ fault, answer = .error (.fault fault) := by
  refine ⟨fun start => ⟨iterate_turn_eq_halted program start, steps_run_le program start⟩, ?_⟩
  intro settings before answer
  have hshows := (Follows.runs settings before).shows
  have hanswer : answer = _ := congrArg Prod.fst (hshows.run program).1
  rw [hanswer]
  cases (program.traced settings.loopLimit _).answer with
  | ok _ => exact .inl rfl
  | error fault => exact .inr ⟨fault, rfl⟩

end Primer.Lang
