import Primer.Proofs.Lang.Equations

/-!
# Runs with their assignments

`Stmt.traced` runs a statement and lists the assignments it makes, in order; what it answers and the
machine it leaves are those of the run itself (`run_eq_traced`). Two things are said about such runs
once and for all. A run changes its machine by making its assignments, one after another, and by
nothing else (`Stored`, `stored_traced`). And if of two runs the first may be cut short where the
second goes on, and both do the same otherwise, then this holds of whole programs if it holds of
single assignments (`Extends`, `traced_extends`).
-/

namespace Primer.Lang

/-- One assignment: a variable and the value it gets. -/
structure Assignment where
  name : String
  value : Int32
deriving Repr, DecidableEq

/-- A symbol table after assignments made one after another. -/
def tableAfter (symbols : Table Int32) (made : List Assignment) : Table Int32 :=
  made.foldl (fun symbols next => symbols.insert next.name next.value) symbols

@[simp] theorem tableAfter_nil (symbols : Table Int32) : tableAfter symbols [] = symbols := rfl

@[simp] theorem tableAfter_cons (symbols : Table Int32) (first : Assignment)
    (rest : List Assignment) :
    tableAfter symbols (first :: rest) =
      tableAfter (symbols.insert first.name first.value) rest := rfl

theorem tableAfter_append (symbols : Table Int32) (made more : List Assignment) :
    tableAfter symbols (made ++ more) = tableAfter (tableAfter symbols made) more :=
  List.foldl_append

/-- What came of a run: its assignments in order, whether it finished, and the machine it left. -/
@[ext]
structure Traced where
  made : List Assignment
  answer : Except Fault Unit
  machine : Machine

namespace Traced

/-- The run of one assignment whose value is known. -/
def store (next : Assignment) (machine : Machine) : Traced :=
  match Exec.store next.name next.value machine with
  | .ok () after => ⟨[next], .ok (), after⟩
  | .error fault after => ⟨[next], .error fault, after⟩

/-- Go on with the machine that a run has left, unless the run stopped with a fault. -/
def andThen (run : Traced) (next : Machine → Traced) : Traced :=
  match run.answer with
  | .ok () => { next run.machine with made := run.made ++ (next run.machine).made }
  | .error _ => run

/-- Go on in one of two ways, as a test says. -/
def choose (test : Expr) (machine : Machine) (yes no : Traced) : Traced :=
  match machine.evaluate test with
  | .ok value => if value ≠ 0 then yes else no
  | .error fault => ⟨[], .error fault, machine⟩

/-- Run the body while the test is not zero, at most `budget` times. -/
def repeatWhile (limit : Nat) (test : Expr) (body : Machine → Traced) :
    (budget : Nat) → Machine → Traced
  | 0, machine =>
    choose test machine ⟨[], .error (.loopLimit limit), machine⟩ ⟨[], .ok (), machine⟩
  | budget + 1, machine =>
    choose test machine ((body machine).andThen (repeatWhile limit test body budget))
      ⟨[], .ok (), machine⟩

/-- The run without its assignments, as the machine gives it. -/
def result (run : Traced) : EStateM.Result Fault Machine Unit :=
  match run.answer with
  | .ok () => .ok () run.machine
  | .error fault => .error fault run.machine

end Traced

mutual

/-- Run a statement and list its assignments. -/
def Stmt.traced (limit : Nat) : Stmt → Machine → Traced
  | .assign name value, machine =>
    match machine.evaluate value with
    | .ok value => .store ⟨name, value⟩ machine
    | .error fault => ⟨[], .error fault, machine⟩
  | .block body, machine => Stmt.tracedAll limit body machine
  | .branch test yes no, machine =>
    .choose test machine (yes.traced limit machine) (no.traced limit machine)
  | .loop test body, machine => .repeatWhile limit test (body.traced limit) limit machine

/-- Run statements one after another and list their assignments. -/
def Stmt.tracedAll (limit : Nat) : List Stmt → Machine → Traced
  | [], machine => ⟨[], .ok (), machine⟩
  | first :: rest, machine => (first.traced limit machine).andThen (Stmt.tracedAll limit rest)

end

/-! ## The traced run is the run -/

section Result

variable {limit : Nat} {machine : Machine}

theorem traced_nil : (Stmt.block []).traced limit machine = ⟨[], .ok (), machine⟩ := by
  simp only [Stmt.traced, Stmt.tracedAll]

theorem traced_cons (first : Stmt) (rest : List Stmt) :
    (Stmt.block (first :: rest)).traced limit machine =
      (first.traced limit machine).andThen fun after => (Stmt.block rest).traced limit after := by
  simp only [Stmt.traced, Stmt.tracedAll]

theorem traced_branch (test : Expr) (yes no : Stmt) :
    (Stmt.branch test yes no).traced limit machine =
      .choose test machine (yes.traced limit machine) (no.traced limit machine) := by
  simp only [Stmt.traced]

theorem traced_loop (test : Expr) (body : Stmt) :
    (Stmt.loop test body).traced limit machine =
      .repeatWhile limit test (body.traced limit) limit machine := by
  simp only [Stmt.traced]

theorem Traced.result_andThen (run : Traced) (next : Machine → Traced) :
    (run.andThen next).result =
      match run.result with
      | .ok () after => (next after).result
      | .error fault after => .error fault after := by
  obtain ⟨made, answer, after⟩ := run
  cases answer <;> rfl

theorem Traced.andThen_of_error {run : Traced} {fault : Fault} (stopped : run.answer = .error fault)
    (next : Machine → Traced) : run.andThen next = run := by
  unfold andThen
  rw [stopped]

theorem Traced.made_isPrefix_andThen (run : Traced) (next : Machine → Traced) :
    run.made <+: (run.andThen next).made := by
  unfold andThen
  cases run.answer with
  | ok _ => exact List.prefix_append _ _
  | error fault => exact List.prefix_refl _

theorem Traced.andThen_cons (first : Assignment) (run : Traced) (next : Machine → Traced) :
    { run with made := first :: run.made }.andThen next =
      { run.andThen next with made := first :: (run.andThen next).made } := by
  obtain ⟨made, answer, after⟩ := run
  cases answer <;> rfl

theorem Traced.result_choose (machine : Machine) (test : Expr) (yes no : Traced) :
    (choose test machine yes no).result =
      match machine.evaluate test with
      | .ok value => if value ≠ 0 then yes.result else no.result
      | .error fault => .error fault machine := by
  unfold choose
  cases machine.evaluate test with
  | error fault => rfl
  | ok value => by_cases zero : value = 0 <;> simp [zero]

/-- A traced loop is the loop if its traced body is the body. -/
theorem Traced.result_repeatWhile {test : Expr} {body : Machine → Traced} {action : Exec Unit}
    (same : ∀ machine, (body machine).result = action machine) (budget : Nat) (machine : Machine) :
    (repeatWhile limit test body budget machine).result =
      Exec.repeatWhile limit test action budget machine := by
  induction budget generalizing machine with
  | zero =>
    rw [repeatWhile, result_choose, repeatWhile_zero]
    rfl
  | succ budget ih =>
    rw [repeatWhile, result_choose, repeatWhile_succ, result_andThen, same]
    simp only [ih]
    rfl

theorem result_traced (stmt : Stmt) (machine : Machine) :
    (stmt.traced limit machine).result = stmt.exec limit machine := by
  induction stmt using Stmt.blockInduction generalizing machine with
  | assign name value =>
    rw [exec_assign]
    simp only [Stmt.traced]
    cases machine.evaluate value with
    | error fault => rfl
    | ok value =>
      simp only [Traced.store]
      cases Exec.store name value machine <;> rfl
  | nil =>
    rw [traced_nil, exec_nil]
    rfl
  | cons first rest ihFirst ihRest =>
    have hresult := Traced.result_andThen (first.traced limit machine) ((Stmt.block rest).traced limit)
    simp only [ihFirst, ihRest] at hresult
    rw [traced_cons, exec_cons]
    exact hresult
  | branch test yes no ihYes ihNo =>
    have hresult := Traced.result_choose machine test (yes.traced limit machine)
      (no.traced limit machine)
    rw [ihYes, ihNo] at hresult
    rw [traced_branch, exec_branch]
    exact hresult
  | loop test body ih =>
    rw [traced_loop, exec_loop]
    exact Traced.result_repeatWhile ih limit machine

/-- The traced run answers what the run answers and leaves the same machine. -/
theorem run_eq_traced (program : Stmt) (machine : Machine) :
    Machine.run limit program machine =
      ((program.traced limit machine).answer, (program.traced limit machine).machine) := by
  unfold Machine.run
  rw [← result_traced]
  generalize program.traced limit machine = run
  obtain ⟨made, answer, after⟩ := run
  cases answer <;> rfl

end Result

/-! ## What an assignment does -/

/-- An assignment puts the value into the table and counts itself. It is recorded if there is a
history with room for the new table, and it is a fault if there is a history without. -/
theorem store_cases (next : Assignment) (machine : Machine) :
    let symbols := machine.symbols.insert next.name next.value
    let steps := machine.steps + 1
    (machine.history = none ∧ Traced.store next machine = ⟨[next], .ok (), symbols, steps, none⟩) ∨
      (∃ log longer, machine.history = some log ∧ log.push ⟨steps, symbols⟩ = .ok longer ∧
        Traced.store next machine = ⟨[next], .ok (), symbols, steps, some longer⟩) ∨
      (∃ log full, machine.history = some log ∧ log.push ⟨steps, symbols⟩ = .error full ∧
        Traced.store next machine =
          ⟨[next], .error (.history full), symbols, steps, some log⟩) := by
  intro symbols steps
  unfold Traced.store Exec.store
  cases hhistory : machine.history with
  | none => exact .inl ⟨rfl, rfl⟩
  | some log =>
    cases hpush : log.push ⟨steps, symbols⟩ with
    | ok longer => exact .inr (.inl ⟨log, longer, rfl, hpush, by simp only [steps, symbols, hpush]⟩)
    | error full => exact .inr (.inr ⟨log, full, rfl, hpush, by simp only [steps, symbols, hpush]⟩)

@[simp] theorem made_store (next : Assignment) (machine : Machine) :
    (Traced.store next machine).made = [next] := by
  unfold Traced.store
  split <;> rfl

theorem answer_store (next : Assignment) (machine : Machine) :
    (Traced.store next machine).answer = .ok () ∨
      ∃ full, (Traced.store next machine).answer = .error (.history full) := by
  rcases store_cases next machine with ⟨_, hstore⟩ | ⟨_, _, _, _, hstore⟩ | ⟨_, full, _, _, hstore⟩
  · exact .inl (by rw [hstore])
  · exact .inl (by rw [hstore])
  · exact .inr ⟨full, by rw [hstore]⟩

@[simp] theorem symbols_store (next : Assignment) (machine : Machine) :
    (Traced.store next machine).machine.symbols = machine.symbols.insert next.name next.value := by
  rcases store_cases next machine with ⟨_, hstore⟩ | ⟨_, _, _, _, hstore⟩ | ⟨_, _, _, _, hstore⟩ <;>
    rw [hstore]

@[simp] theorem steps_store (next : Assignment) (machine : Machine) :
    (Traced.store next machine).machine.steps = machine.steps + 1 := by
  rcases store_cases next machine with ⟨_, hstore⟩ | ⟨_, _, _, _, hstore⟩ | ⟨_, _, _, _, hstore⟩ <;>
    rw [hstore]

/-- How a run changes its machine: it makes its assignments one after another, and ends, or stops,
where the last one left the machine. An assignment that the history refuses is the last. -/
inductive Stored : Machine → Traced → Prop
  | done {machine : Machine} : Stored machine ⟨[], .ok (), machine⟩
  | stopped {machine : Machine} {fault : Fault} (ordinary : ∀ full, fault ≠ .history full) :
      Stored machine ⟨[], .error fault, machine⟩
  | stored {machine : Machine} {next : Assignment} {run : Traced}
      (kept : (Traced.store next machine).answer = .ok ())
      (rest : Stored (Traced.store next machine).machine run) :
      Stored machine { run with made := next :: run.made }
  | refused {machine : Machine} {next : Assignment} {full : Log.Full}
      (lost : (Traced.store next machine).answer = .error (.history full)) :
      Stored machine (Traced.store next machine)

namespace Stored

variable {machine : Machine} {run : Traced} {next : Machine → Traced}

/-- The symbols after a run are those before it with its assignments made. -/
theorem symbols (stored : Stored machine run) :
    run.machine.symbols = tableAfter machine.symbols run.made := by
  induction stored with
  | done => rfl
  | stopped _ => rfl
  | stored kept rest ih => simpa using ih
  | refused lost => simp

/-- Each assignment of a run was one step, also one that the history refused. -/
theorem steps (stored : Stored machine run) :
    run.machine.steps = machine.steps + run.made.length := by
  induction stored with
  | done => rfl
  | stopped _ => rfl
  | stored kept rest ih =>
    simp only [steps_store] at ih
    simp only [List.length_cons]
    omega
  | refused lost => simp

theorem store (next : Assignment) (machine : Machine) :
    Stored machine (Traced.store next machine) := by
  rcases answer_store next machine with hkept | ⟨full, hlost⟩
  · have hstored : Stored machine ⟨[next], .ok (), (Traced.store next machine).machine⟩ :=
      .stored hkept .done
    have hsame : Traced.store next machine =
        ⟨[next], .ok (), (Traced.store next machine).machine⟩ :=
      Traced.ext (made_store next machine) hkept rfl
    rw [hsame]
    exact hstored
  · exact .refused hlost

theorem andThen (stored : Stored machine run) (more : ∀ after, Stored after (next after)) :
    Stored machine (run.andThen next) := by
  induction stored with
  | done => exact more _
  | stopped ordinary => exact .stopped ordinary
  | stored kept rest ih =>
    rw [Traced.andThen_cons]
    exact .stored kept ih
  | refused lost =>
    rw [Traced.andThen_of_error lost]
    exact .refused lost

theorem choose {test : Expr} {yes no : Traced} (hyes : Stored machine yes)
    (hno : Stored machine no) : Stored machine (.choose test machine yes no) := by
  unfold Traced.choose
  cases hvalue : machine.evaluate test with
  | error fault =>
    obtain ⟨cause, rfl⟩ := evaluate_eq_error hvalue
    exact .stopped nofun
  | ok value =>
    by_cases zero : value = 0
    · simpa [zero] using hno
    · simpa [zero] using hyes

/-- A loop makes the assignments of its rounds one after the other. -/
theorem repeatWhile {limit : Nat} {test : Expr} {body : Machine → Traced}
    (runs : ∀ machine, Stored machine (body machine)) (budget : Nat) (machine : Machine) :
    Stored machine (.repeatWhile limit test body budget machine) := by
  induction budget generalizing machine with
  | zero => exact choose (.stopped nofun) .done
  | succ budget ih => exact choose ((runs machine).andThen ih) .done

end Stored

/-- Every run changes its machine by its assignments only. -/
theorem stored_traced (limit : Nat) (stmt : Stmt) (machine : Machine) :
    Stored machine (stmt.traced limit machine) := by
  induction stmt using Stmt.blockInduction generalizing machine with
  | assign name expr =>
    simp only [Stmt.traced]
    cases hvalue : machine.evaluate expr with
    | error fault =>
      obtain ⟨cause, rfl⟩ := evaluate_eq_error hvalue
      exact .stopped nofun
    | ok value => exact .store ⟨name, value⟩ machine
  | nil =>
    rw [traced_nil]
    exact .done
  | cons first rest ihFirst ihRest =>
    rw [traced_cons]
    exact (ihFirst machine).andThen ihRest
  | branch test yes no ihYes ihNo =>
    rw [traced_branch]
    exact (ihYes machine).choose (ihNo machine)
  | loop test body ih =>
    rw [traced_loop]
    exact .repeatWhile ih limit machine

/-! ## Runs that go on where others are cut short -/

/-- The second run is the first one, its machine seen through `view`; or the first one was stopped
by a fault that cuts runs short, and the second has made the same assignments before any others. -/
inductive Extends (cut : Fault → Prop) (view : Machine → Machine) (short long : Traced) : Prop
  | same (equal : long = { short with machine := view short.machine })
  | cut {fault : Fault} (stopped : short.answer = .error fault) (cuts : cut fault)
      (before : short.made <+: long.made)

theorem evaluate_congr {machine other : Machine} (expr : Expr)
    (same : other.symbols = machine.symbols) : other.evaluate expr = machine.evaluate expr := by
  unfold Machine.evaluate Machine.read
  rw [same]

namespace Extends

variable {cut : Fault → Prop} {view : Machine → Machine} {short long : Traced} {machine : Machine}

theorem isPrefix (longer : Extends cut view short long) : short.made <+: long.made := by
  cases longer with
  | same equal =>
    subst equal
    exact List.prefix_refl _
  | cut _ _ before => exact before

/-- If the first parts go on where the others are cut short, and so do the parts after them, so do
the whole runs. -/
theorem andThen {next next' : Machine → Traced} (first : Extends cut view short long)
    (more : ∀ machine, Extends cut view (next machine) (next' (view machine))) :
    Extends cut view (short.andThen next) (long.andThen next') := by
  cases first with
  | same equal =>
    subst equal
    obtain ⟨made, answer, after⟩ := short
    cases answer with
    | error fault => exact .same rfl
    | ok value =>
      -- Both runs go on, from machines that the view relates.
      cases more after with
      | same equal =>
        refine .same ?_
        simp only [Traced.andThen, equal]
      | cut stopped cuts before =>
        exact .cut stopped cuts ((List.prefix_append_right_inj made).2 before)
  | cut stopped cuts before =>
    rw [Traced.andThen_of_error stopped]
    exact .cut stopped cuts (before.trans (long.made_isPrefix_andThen next'))

/-- Runs that start from the same symbols take the same branch. -/
theorem choose {test : Expr} {yes no yes' no' : Traced}
    (sees : (view machine).symbols = machine.symbols) (hyes : Extends cut view yes yes')
    (hno : Extends cut view no no') :
    Extends cut view (.choose test machine yes no) (.choose test (view machine) yes' no') := by
  unfold Traced.choose
  rw [evaluate_congr test sees]
  cases machine.evaluate test with
  | error fault => exact .same rfl
  | ok value =>
    by_cases zero : value = 0
    · simpa [zero] using hno
    · simpa [zero] using hyes

/-- The second loop may have a larger budget, if running out of the smaller one cuts runs short. -/
theorem repeatWhile {limit limit' budget budget' : Nat} {test : Expr}
    {body body' : Machine → Traced} (sees : ∀ machine, (view machine).symbols = machine.symbols)
    (runs : ∀ machine, Extends cut view (body machine) (body' (view machine)))
    (le : budget ≤ budget') (exceeds : limit = limit' ∧ budget = budget' ∨ cut (.loopLimit limit))
    (machine : Machine) :
    Extends cut view (.repeatWhile limit test body budget machine)
      (.repeatWhile limit' test body' budget' (view machine)) := by
  -- Both budgets count down together, so they stay equal or the second stays the larger one.
  induction budget generalizing budget' machine with
  | zero =>
    rcases exceeds with ⟨rfl, rfl⟩ | cuts
    · exact choose (sees machine) (.same rfl) (.same rfl)
    · cases budget' with
      | zero => exact choose (sees machine) (.cut rfl cuts List.nil_prefix) (.same rfl)
      | succ budget' => exact choose (sees machine) (.cut rfl cuts List.nil_prefix) (.same rfl)
  | succ budget ih =>
    obtain ⟨rest, rfl⟩ : ∃ rest, budget' = rest + 1 := ⟨budget' - 1, by omega⟩
    have hrest : limit = limit' ∧ budget = rest ∨ cut (.loopLimit limit) := by
      rcases exceeds with ⟨hlimit, hbudget⟩ | cuts
      · exact .inl ⟨hlimit, by omega⟩
      · exact .inr cuts
    refine choose (sees machine) ((runs machine).andThen ?_) (.same rfl)
    intro after
    exact ih (by omega) hrest after

end Extends

/-- If single assignments extend each other, whole runs do: with the same limit, or with a larger
one if reaching the smaller cuts runs short. -/
theorem traced_extends {cut : Fault → Prop} {view : Machine → Machine} {limit limit' : Nat}
    (sees : ∀ machine, (view machine).symbols = machine.symbols)
    (stores : ∀ next machine,
      Extends cut view (Traced.store next machine) (Traced.store next (view machine)))
    (le : limit ≤ limit') (exceeds : limit = limit' ∨ cut (.loopLimit limit)) (stmt : Stmt)
    (machine : Machine) :
    Extends cut view (stmt.traced limit machine) (stmt.traced limit' (view machine)) := by
  induction stmt using Stmt.blockInduction generalizing machine with
  | assign name expr =>
    simp only [Stmt.traced]
    rw [evaluate_congr expr (sees machine)]
    cases machine.evaluate expr with
    | error fault => exact .same rfl
    | ok value => exact stores ⟨name, value⟩ machine
  | nil =>
    rw [traced_nil, traced_nil]
    exact .same rfl
  | cons first rest ihFirst ihRest =>
    rw [traced_cons, traced_cons]
    exact (ihFirst machine).andThen ihRest
  | branch test yes no ihYes ihNo =>
    rw [traced_branch, traced_branch]
    exact (ihYes machine).choose (sees machine) (ihNo machine)
  | loop test body ih =>
    rw [traced_loop, traced_loop]
    refine Extends.repeatWhile sees ih le ?_ machine
    rcases exceeds with rfl | cuts
    · exact .inl ⟨rfl, rfl⟩
    · exact .inr cuts

end Primer.Lang
