import Primer.Proofs.Lang.Traced

/-!
# What a program depends on and what it changes

A run sees its machine only through the values of the variables that occur in the expressions of the
program (`Stmt.reads`). On machines on which these read the same, two runs make the same
assignments, so they still read the same afterwards (`Alike`, `traced_alike`); in what order the
tables list their variables, what other variables they hold and whether a variable is zero or
missing cannot be told. A run assigns only what stands on the left of an assignment (`Stmt.targets`,
`assigns_traced`), and leaves every other variable as it was.
-/

namespace Primer.Lang

mutual

/-- The variables that occur in the expressions of a statement. -/
def Stmt.reads : Stmt → List String
  | .assign _ value => value.vars
  | .block body => Stmt.readsAll body
  | .branch test yes no => test.vars ++ (yes.reads ++ no.reads)
  | .loop test body => test.vars ++ body.reads

/-- The variables that occur in the expressions of statements. -/
def Stmt.readsAll : List Stmt → List String
  | [] => []
  | first :: rest => first.reads ++ Stmt.readsAll rest

end

mutual

/-- The variables to which a statement assigns. -/
def Stmt.targets : Stmt → List String
  | .assign name _ => [name]
  | .block body => Stmt.targetsAll body
  | .branch _ yes no => yes.targets ++ no.targets
  | .loop _ body => body.targets

/-- The variables to which statements assign. -/
def Stmt.targetsAll : List Stmt → List String
  | [] => []
  | first :: rest => first.targets ++ Stmt.targetsAll rest

end

theorem reads_cons (first : Stmt) (rest : List Stmt) :
    (Stmt.block (first :: rest)).reads = first.reads ++ (Stmt.block rest).reads := by
  simp only [Stmt.reads, Stmt.readsAll]

theorem targets_cons (first : Stmt) (rest : List Stmt) :
    (Stmt.block (first :: rest)).targets = first.targets ++ (Stmt.block rest).targets := by
  simp only [Stmt.targets, Stmt.targetsAll]

/-! ## Machines that read the same -/

/-- The value of an expression depends only on the variables that it mentions. -/
theorem Expr.eval_congr {read read' : String → Int32} {expr : Expr}
    (same : ∀ name ∈ expr.vars, read' name = read name) : expr.eval read' = expr.eval read := by
  induction expr with
  | number value => rfl
  | var name => exact congrArg Except.ok (same name List.mem_cons_self)
  | binary op left right ihLeft ihRight =>
    have hleft := ihLeft fun name mem => same name (List.mem_append_left _ mem)
    have hright := ihRight fun name mem => same name (List.mem_append_right _ mem)
    simp only [Expr.eval, hleft, hright]

/-- Two machines without a history on which certain variables read the same. -/
structure Agree (names : List String) (machine other : Machine) : Prop where
  plain : machine.history = none
  plain' : other.history = none
  reads : ∀ name ∈ names, other.read name = machine.read name

namespace Agree

variable {names : List String} {machine other : Machine}

theorem evaluate {expr : Expr} (agree : Agree names machine other) (mentions : expr.vars ⊆ names) :
    other.evaluate expr = machine.evaluate expr := by
  have hvalue : expr.eval other.read = expr.eval machine.read :=
    Expr.eval_congr fun name mem => agree.reads name (mentions mem)
  unfold Machine.evaluate
  rw [hvalue]

end Agree

theorem store_of_plain {machine : Machine} (next : Assignment) (plain : machine.history = none) :
    Traced.store next machine =
      ⟨[next], .ok (), machine.symbols.insert next.name next.value, machine.steps + 1, none⟩ := by
  simp only [Traced.store, Exec.store, plain]

/-- Two runs that make the same assignments, end alike and leave machines that read the same. -/
structure Alike (names : List String) (run other : Traced) : Prop where
  made : other.made = run.made
  answer : other.answer = run.answer
  machines : Agree names run.machine other.machine

namespace Alike

variable {names : List String} {machine machine' : Machine} {run other : Traced}

theorem stay (agree : Agree names machine machine') (answer : Except Fault Unit) :
    Alike names ⟨[], answer, machine⟩ ⟨[], answer, machine'⟩ :=
  ⟨rfl, rfl, agree⟩

theorem store (agree : Agree names machine machine') (next : Assignment) :
    Alike names (.store next machine) (.store next machine') := by
  rw [store_of_plain next agree.plain, store_of_plain next agree.plain']
  refine ⟨rfl, rfl, rfl, rfl, ?_⟩
  intro name mem
  have hreads : (machine'.symbols.find? name).getD 0 = (machine.symbols.find? name).getD 0 :=
    agree.reads name mem
  simp only [Machine.read, Table.find?_insert]
  by_cases here : next.name = name
  · simp only [here, if_true]
  · simpa only [here, if_false] using hreads

theorem andThen {next next' : Machine → Traced} (first : Alike names run other)
    (more : ∀ {machine machine'}, Agree names machine machine' →
      Alike names (next machine) (next' machine')) :
    Alike names (run.andThen next) (other.andThen next') := by
  obtain ⟨made, answer, after⟩ := run
  obtain ⟨made', answer', after'⟩ := other
  obtain ⟨hmade, hanswer, agree⟩ := first
  simp only at hmade hanswer
  subst hmade hanswer
  cases answer' with
  | error fault => exact ⟨rfl, rfl, agree⟩
  | ok _ =>
    have hmore := more agree
    exact ⟨congrArg (made' ++ ·) hmore.made, hmore.answer, hmore.machines⟩

theorem choose {test : Expr} {yes no yes' no' : Traced} (agree : Agree names machine machine')
    (mentions : test.vars ⊆ names) (hyes : Alike names yes yes') (hno : Alike names no no') :
    Alike names (.choose test machine yes no) (.choose test machine' yes' no') := by
  unfold Traced.choose
  rw [agree.evaluate mentions]
  cases machine.evaluate test with
  | error fault => exact .stay agree _
  | ok value =>
    by_cases zero : value = 0
    · simpa [zero] using hno
    · simpa [zero] using hyes

theorem repeatWhile {limit : Nat} {test : Expr} {body : Machine → Traced}
    (mentions : test.vars ⊆ names)
    (runs : ∀ {machine machine'}, Agree names machine machine' →
      Alike names (body machine) (body machine'))
    (budget : Nat) (agree : Agree names machine machine') :
    Alike names (.repeatWhile limit test body budget machine)
      (.repeatWhile limit test body budget machine') := by
  induction budget generalizing machine machine' with
  | zero => exact choose agree mentions (.stay agree _) (.stay agree _)
  | succ budget ih => exact choose agree mentions ((runs agree).andThen ih) (.stay agree _)

end Alike

/-- On machines that agree on all variables that a statement mentions, its two runs are alike. -/
theorem traced_alike {names : List String} {machine machine' : Machine} (limit : Nat) (stmt : Stmt)
    (mentions : stmt.reads ⊆ names) (agree : Agree names machine machine') :
    Alike names (stmt.traced limit machine) (stmt.traced limit machine') := by
  -- The variables are those of the whole program, so that a part may read what another assigned.
  induction stmt using Stmt.blockInduction generalizing machine machine' with
  | assign name expr =>
    simp only [Stmt.reads] at mentions
    simp only [Stmt.traced, agree.evaluate mentions]
    cases machine.evaluate expr with
    | error fault => exact .stay agree _
    | ok value => exact .store agree ⟨name, value⟩
  | nil =>
    rw [traced_nil, traced_nil]
    exact .stay agree _
  | cons first rest ihFirst ihRest =>
    rw [reads_cons, List.append_subset] at mentions
    rw [traced_cons, traced_cons]
    exact (ihFirst mentions.1 agree).andThen (ihRest mentions.2)
  | branch test yes no ihYes ihNo =>
    simp only [Stmt.reads, List.append_subset] at mentions
    obtain ⟨htest, hyes, hno⟩ := mentions
    rw [traced_branch, traced_branch]
    exact .choose agree htest (ihYes hyes agree) (ihNo hno agree)
  | loop test body ih =>
    simp only [Stmt.reads, List.append_subset] at mentions
    rw [traced_loop, traced_loop]
    exact .repeatWhile mentions.1 (ih mentions.2) limit agree

/-! ## Variables that are not assigned -/

/-- All assignments of a run go to certain variables. -/
def Assigns (names : List String) (run : Traced) : Prop := ∀ next ∈ run.made, next.name ∈ names

namespace Assigns

variable {names more : List String} {run : Traced} {next : Machine → Traced}

theorem mono (assigns : Assigns names run) (sub : names ⊆ more) : Assigns more run :=
  fun next mem => sub (assigns next mem)

theorem andThen (assigns : Assigns names run) (after : ∀ machine, Assigns names (next machine)) :
    Assigns names (run.andThen next) := by
  unfold Traced.andThen
  cases run.answer with
  | error fault => exact assigns
  | ok _ =>
    intro made mem
    rcases List.mem_append.1 mem with hfirst | hmore
    · exact assigns made hfirst
    · exact after run.machine made hmore

theorem choose {test : Expr} {machine : Machine} {yes no : Traced} (hyes : Assigns names yes)
    (hno : Assigns names no) : Assigns names (.choose test machine yes no) := by
  unfold Traced.choose
  cases machine.evaluate test with
  | error fault => exact nofun
  | ok value =>
    by_cases zero : value = 0
    · simpa [zero] using hno
    · simpa [zero] using hyes

/-- A loop assigns only what its body assigns. -/
theorem repeatWhile {limit : Nat} {test : Expr} {body : Machine → Traced}
    (runs : ∀ machine, Assigns names (body machine)) (budget : Nat) (machine : Machine) :
    Assigns names (.repeatWhile limit test body budget machine) := by
  induction budget generalizing machine with
  | zero => exact choose nofun nofun
  | succ budget ih => exact choose ((runs machine).andThen ih) nofun

end Assigns

/-- A program assigns only the variables that stand to the left of its assignments. -/
theorem assigns_traced (limit : Nat) (stmt : Stmt) (machine : Machine) :
    Assigns stmt.targets (stmt.traced limit machine) := by
  induction stmt using Stmt.blockInduction generalizing machine with
  | assign name expr =>
    simp only [Stmt.traced, Stmt.targets]
    cases machine.evaluate expr with
    | error fault =>
      intro next mem
      cases mem
    | ok value =>
      intro next mem
      obtain rfl : next = ⟨name, value⟩ := by simpa using mem
      exact List.mem_cons_self
  | nil =>
    rw [traced_nil]
    intro next mem
    cases mem
  | cons first rest ihFirst ihRest =>
    rw [traced_cons, targets_cons]
    refine ((ihFirst machine).mono (List.subset_append_left _ _)).andThen ?_
    exact fun after => (ihRest after).mono (List.subset_append_right _ _)
  | branch test yes no ihYes ihNo =>
    rw [traced_branch]
    simp only [Stmt.targets]
    exact .choose ((ihYes machine).mono (List.subset_append_left _ _))
      ((ihNo machine).mono (List.subset_append_right _ _))
  | loop test body ih =>
    rw [traced_loop]
    exact .repeatWhile ih limit machine

/-- A variable that is not assigned keeps its entry, or is still missing. -/
theorem find?_tableAfter_of_not_made {symbols : Table Int32} {made : List Assignment}
    {name : String} (other : ∀ next ∈ made, next.name ≠ name) :
    (tableAfter symbols made).find? name = symbols.find? name := by
  induction made generalizing symbols with
  | nil => rfl
  | cons first rest ih =>
    rw [tableAfter_cons, ih fun next mem => other next (List.mem_cons_of_mem first mem),
      Table.find?_insert, if_neg (other first List.mem_cons_self)]

/-- **Runs depend on what a program mentions and change what it assigns.** Take two machines without
a history on which every variable that occurs in an expression of the program evaluates to the same,
a variable without a value counting as zero. Run with the same limit, the program answers the same
on both, makes the same assignments, so equally many, and every such variable evaluates to the same
afterwards. And on any machine, with a history or without, a run that finishes or stops leaves every
variable to which no assignment of the program goes as it was. -/
theorem runs_depend_on_what_is_mentioned (limit : Nat) (program : Stmt) (machine other : Machine)
    (plain : machine.history = none) (plain' : other.history = none)
    (agree : ∀ name ∈ program.reads, other.evaluate (.var name) = machine.evaluate (.var name)) :
    let run := Machine.run limit program machine
    let run' := Machine.run limit program other
    let made := (program.traced limit machine).made
    (run'.1 = run.1 ∧ (program.traced limit other).made = made ∧
        run.2.steps = machine.steps + made.length ∧ run'.2.steps = other.steps + made.length ∧
        ∀ name ∈ program.reads, run'.2.evaluate (.var name) = run.2.evaluate (.var name)) ∧
      ∀ (start : Machine) (name : String), name ∉ program.targets →
        (Machine.run limit program start).2.symbols.find? name = start.symbols.find? name := by
  intro run run' made
  have hrun : run = _ := run_eq_traced program machine
  have hrun' : run' = _ := run_eq_traced program other
  have hreads : ∀ name ∈ program.reads, other.read name = machine.read name := by
    intro name mem
    exact Except.ok.inj (agree name mem)
  have halike := traced_alike limit program (List.Subset.refl _) ⟨plain, plain', hreads⟩
  rw [hrun, hrun']
  refine ⟨⟨halike.answer, halike.made, (stored_traced limit program machine).steps, ?_, ?_⟩, ?_⟩
  · have hsteps := (stored_traced limit program other).steps
    rwa [halike.made] at hsteps
  · intro name mem
    apply halike.machines.evaluate
    simpa [Expr.vars] using mem
  · intro start name untouched
    rw [run_eq_traced]
    show (program.traced limit start).machine.symbols.find? name = start.symbols.find? name
    rw [(stored_traced limit program start).symbols]
    apply find?_tableAfter_of_not_made
    rintro next mem rfl
    exact untouched (assigns_traced limit program start next mem)

/-- Two machines that list their variables differently, one of which has no `x` where the other has
a zero: both count `n` down and then stop at the same division, and `y` stays. -/
theorem division_by_a_missing_variable :
    let program := Stmt.block [
      .loop (.var "n") (.assign "n" (.binary .sub (.var "n") (.number 1))),
      .assign "q" (.binary .div (.number 3) (.var "x"))]
    let machine : Machine := ⟨⟨[("y", 9), ("n", 1)]⟩, 0, none⟩
    let other : Machine := ⟨⟨[("n", 1), ("x", 0)]⟩, 7, none⟩
    (∀ name ∈ program.reads, other.evaluate (.var name) = machine.evaluate (.var name)) ∧
      (Machine.run 5 program machine).1 = .error (.arith (.divisionByZero 3)) ∧
      (Machine.run 5 program other).1 = .error (.arith (.divisionByZero 3)) ∧
      (Machine.run 5 program other).2.steps = 7 + 1 ∧
      "y" ∉ program.targets ∧
      (Machine.run 5 program machine).2.symbols.find? "y" = some 9 := by
  intro program machine other
  have hagree : ∀ name ∈ program.reads,
      other.evaluate (.var name) = machine.evaluate (.var name) := by
    intro name mem
    have hall : program.reads = ["n", "n", "x"] := by
      simp [program, Stmt.reads, Stmt.readsAll, Expr.vars]
    rw [hall] at mem
    simp only [List.mem_cons, List.not_mem_nil, or_false] at mem
    rcases mem with rfl | rfl | rfl <;> rfl
  have huntouched : "y" ∉ program.targets := by
    simp [program, Stmt.targets, Stmt.targetsAll]
  have hstops : (Machine.run 5 program machine).1 = .error (.arith (.divisionByZero 3)) := rfl
  obtain ⟨⟨hanswer, _, _, hsteps, _⟩, hkept⟩ :=
    runs_depend_on_what_is_mentioned 5 program machine other rfl rfl hagree
  exact ⟨hagree, hstops, hanswer.trans hstops, hsteps, huntouched, hkept machine "y" huntouched⟩

end Primer.Lang
