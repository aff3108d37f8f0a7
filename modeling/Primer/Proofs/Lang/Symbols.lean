import Primer.Lang.Interpreter
import Primer.Proofs.Lang.History

/-!
# Values and order stay together

An interpreter keeps the values of its variables apart from the order of their names. It `Shows` a
machine if the names are listed as in the symbol table of the machine and every lookup finds the
same value, and then no name is without a value (`Shows.symbols_eq`). A single assignment keeps this
(`Shows.store`), and so does every run, wherever it stops (`mirrors_run`): the interpreter ends as
the machine does, in the state that the assignments of the run lead to one after another. What is
known of symbol tables is thereby known of the two containers: names stand in the order of first
assignment, each with the value it was given last (`symbols_stay_in_order_of_first_assignment`).
-/

namespace Primer.Lang

/-! ## Symbol tables by their assignments -/

theorem nodup_names_insert {symbols : Table Int32} (apart : symbols.names.Nodup) (name : String)
    (value : Int32) : (symbols.insert name value).names.Nodup := by
  rw [Table.names_insert]
  split
  · exact apart
  · next missing =>
    refine List.nodup_append.2 ⟨apart, by simp, ?_⟩
    rintro other hother here hhere rfl
    exact missing (List.mem_singleton.1 hhere ▸ hother)

theorem names_isPrefix_tableAfter (symbols : Table Int32) (made : List Assignment) :
    symbols.names <+: (tableAfter symbols made).names := by
  induction made generalizing symbols with
  | nil => exact List.prefix_refl _
  | cons next rest ih =>
    refine List.IsPrefix.trans ?_ (ih (symbols.insert next.name next.value))
    rw [Table.names_insert]
    split
    · exact List.prefix_refl _
    · exact List.prefix_append _ _

/-- The value that a variable was given last. -/
def lastAssigned (made : List Assignment) (name : String) : Option Int32 :=
  (made.reverse.find? fun next => next.name = name).map Assignment.value

/-- A variable has the value that was assigned to it last. -/
theorem find?_tableAfter (made : List Assignment) (name : String) :
    (tableAfter .empty made).find? name = lastAssigned made name := by
  induction made using List.reverseRecOn with
  | nil => rfl
  | append_singleton made next ih =>
    have hinsert : tableAfter .empty (made ++ [next]) =
        (tableAfter .empty made).insert next.name next.value := tableAfter_append _ _ _
    rw [hinsert, Table.find?_insert, ih, lastAssigned, lastAssigned, List.reverse_append]
    by_cases here : next.name = name <;> simp [here]

/-! ## Showing a machine -/

/-- The two containers of an interpreter hold the symbol table of a machine, and the rest is the
same. -/
structure Shows (settings : Settings) (interpreter : Interpreter) (machine : Machine) : Prop where
  settings_eq : interpreter.settings = settings
  order_eq : interpreter.order = machine.symbols.names
  find?_eq : ∀ name, interpreter.values.find? name = machine.symbols.find? name
  apart : machine.symbols.names.Nodup
  steps_eq : interpreter.steps = machine.steps
  history_eq : interpreter.history = machine.history

namespace Shows

variable {settings : Settings} {interpreter : Interpreter} {machine : Machine}

theorem start (settings : Settings) : Shows settings settings.interpreter settings.machine := by
  unfold Settings.interpreter Settings.machine
  split <;> exact ⟨rfl, rfl, fun _ => rfl, List.nodup_nil, rfl, rfl⟩

theorem evaluate_eq (shows : Shows settings interpreter machine) (expr : Expr) :
    interpreter.evaluate expr = machine.evaluate expr := by
  unfold Interpreter.evaluate Interpreter.get? Machine.evaluate Machine.read
  simp only [shows.find?_eq]

/-- Every name that is listed has its value, so no lookup is missing. -/
theorem entry_eq (shows : Shows settings interpreter machine) {entry : String × Int32}
    (mem : entry ∈ machine.symbols.entries) : interpreter.entry entry.1 = .ok entry := by
  have hfind : interpreter.get? entry.1 = some entry.2 :=
    (shows.find?_eq entry.1).trans (Table.lookup_of_mem shows.apart mem)
  unfold Interpreter.entry
  rw [hfind]

/-- Going through the order finds every value, so it gives the symbol table. -/
theorem symbols_eq (shows : Shows settings interpreter machine) :
    interpreter.symbols = .ok machine.symbols.entries := by
  have hall : ∀ entries : List (String × Int32),
      (∀ entry ∈ entries, entry ∈ machine.symbols.entries) →
      (entries.map Prod.fst).mapM interpreter.entry = .ok entries := by
    intro entries hentries
    induction entries with
    | nil => rfl
    | cons entry rest ih =>
      rw [List.map_cons, List.mapM_cons, shows.entry_eq (hentries entry List.mem_cons_self),
        ih fun other hother => hentries other (List.mem_cons_of_mem _ hother)]
      rfl
  unfold Interpreter.symbols
  rw [shows.order_eq]
  exact hall machine.symbols.entries fun _ hmem => hmem

end Shows

/-! ## One assignment -/

/-- The interpreter with a new value in both containers, counted and not yet recorded. -/
def Interpreter.put (interpreter : Interpreter) (next : Assignment) : Interpreter :=
  { interpreter with
    values := interpreter.values.insert next.name next.value
    order :=
      if (interpreter.values.find? next.name).isNone then interpreter.order ++ [next.name]
      else interpreter.order
    steps := interpreter.steps + 1 }

theorem store_eq_record (next : Assignment) (interpreter : Interpreter) :
    Running.store next.name next.value interpreter = Running.record (interpreter.put next) := by
  show (Running.store next.name next.value).run interpreter =
    Running.record.run (interpreter.put next)
  unfold Running.store Interpreter.put
  simp only [EStateM.run_bind, EStateM.run_get, EStateM.run_modify]
  cases (interpreter.values.find? next.name).isNone <;> rfl

/-- The interpreter after assignments of known values, one after another. -/
def Interpreter.assigning (interpreter : Interpreter) (made : List Assignment) : Interpreter :=
  made.foldl
    (fun interpreter next => (interpreter.run (.assign next.name (.number next.value))).2)
    interpreter

theorem assigning_append (interpreter : Interpreter) (made more : List Assignment) :
    interpreter.assigning (made ++ more) = (interpreter.assigning made).assigning more :=
  List.foldl_append

theorem assigning_singleton (interpreter : Interpreter) (next : Assignment) :
    interpreter.assigning [next] =
      match Running.store next.name next.value interpreter with
      | .ok _ after => after
      | .error _ after => after := by
  have hrun : (Stmt.assign next.name (.number next.value)).run interpreter =
      Running.store next.name next.value interpreter := by
    simp only [Stmt.run]
    rfl
  show (interpreter.run (.assign next.name (.number next.value))).2 = _
  unfold Interpreter.run
  rw [hrun]
  cases Running.store next.name next.value interpreter <;> rfl

/-- The result of an action on an interpreter is that of a run of the machine, and the state is what
the assignments of the run make of the state before. -/
inductive Mirrors (settings : Settings) (start : Interpreter) :
    EStateM.Result Halt Interpreter Unit → Traced → Prop
  | done {after : Interpreter} {run : Traced} (finished : run.answer = .ok ())
      (shows : Shows settings after run.machine) (state : after = start.assigning run.made) :
      Mirrors settings start (.ok () after) run
  | stopped {after : Interpreter} {run : Traced} {fault : Fault}
      (failed : run.answer = .error fault)
      (shows : Shows settings after run.machine) (state : after = start.assigning run.made) :
      Mirrors settings start (.error (.fault fault) after) run

namespace Shows

variable {settings : Settings} {interpreter : Interpreter} {machine : Machine}

/-- An assignment keeps the listed names and the values in step. -/
theorem put (shows : Shows settings interpreter machine) (next : Assignment) :
    Shows settings (interpreter.put next)
      ⟨machine.symbols.insert next.name next.value, machine.steps + 1, machine.history⟩ where
  settings_eq := shows.settings_eq
  order_eq := by
    -- The list grows exactly if the map did not know the name, that is if the table did not.
    have hknown : (interpreter.values.find? next.name).isNone = true ↔
        next.name ∉ machine.symbols.names := by
      rw [shows.find?_eq, ← Table.find?_isSome_iff]
      simp
    rw [Table.names_insert, ← shows.order_eq]
    rw [← shows.order_eq] at hknown
    by_cases known : next.name ∈ interpreter.order
    · rw [if_pos known]
      exact if_neg (mt hknown.1 (not_not_intro known))
    · rw [if_neg known]
      exact if_pos (hknown.2 known)
  find?_eq name := by
    show (interpreter.values.insert next.name next.value).find? name = _
    rw [Table.find?_insert, Table.find?_insert, shows.find?_eq]
  apart := nodup_names_insert shows.apart next.name next.value
  steps_eq := congrArg (· + 1) shows.steps_eq
  history_eq := shows.history_eq

theorem withHistory (shows : Shows settings interpreter machine)
    (history : Option (Log Snapshot)) :
    Shows settings { interpreter with history } { machine with history } :=
  { shows with history_eq := rfl }

/-- Recording finds a value for every name, so it pushes the symbol table. -/
theorem record_eq (shows : Shows settings interpreter machine) :
    Running.record interpreter =
      match machine.history with
      | none => .ok () interpreter
      | some log =>
        match log.push ⟨machine.steps, machine.symbols⟩ with
        | .ok longer => .ok () { interpreter with history := some longer }
        | .error full => .error (.fault (.history full)) interpreter := by
  have hsymbols : Running.symbols.run interpreter = .ok machine.symbols.entries interpreter := by
    show Running.symbols interpreter = _
    unfold Running.symbols
    rw [shows.symbols_eq]
  rw [← shows.history_eq, ← shows.steps_eq]
  show Running.record.run interpreter = _
  unfold Running.record
  simp only [EStateM.run_bind, EStateM.run_get]
  cases interpreter.history with
  | none => rfl
  | some log =>
    simp only [EStateM.run_bind, EStateM.run_get, hsymbols]
    cases log.push ⟨interpreter.steps, machine.symbols⟩ <;> rfl

/-- An assignment changes both containers, the count and the history as the machine does. -/
theorem store (shows : Shows settings interpreter machine) (next : Assignment) :
    Mirrors settings interpreter (Running.store next.name next.value interpreter)
      (Traced.store next machine) := by
  have hput := shows.put next
  have hstate := assigning_singleton interpreter next
  rw [store_eq_record, hput.record_eq] at hstate ⊢
  rcases store_cases next machine with
    ⟨hnone, hstore⟩ | ⟨log, longer, hsome, hpush, hstore⟩ | ⟨log, full, hsome, hpush, hstore⟩
  · rw [hnone] at hput
    simp only [hnone] at hstate ⊢
    rw [hstore]
    exact .done rfl hput hstate.symm
  · have hlonger := hput.withHistory (some longer)
    simp only [hsome, hpush] at hstate ⊢
    rw [hstore]
    exact .done rfl hlonger hstate.symm
  · rw [hsome] at hput
    simp only [hsome, hpush] at hstate ⊢
    rw [hstore]
    exact .stopped rfl hput hstate.symm

end Shows

/-! ## Whole runs -/

section Run

variable {settings : Settings} {interpreter : Interpreter} {machine : Machine}

theorem Shows.stay (shows : Shows settings interpreter machine) :
    Mirrors settings interpreter (.ok () interpreter) ⟨[], .ok (), machine⟩ :=
  .done rfl shows rfl

theorem Shows.stop (shows : Shows settings interpreter machine) (fault : Fault) :
    Mirrors settings interpreter (.error (.fault fault) interpreter) ⟨[], .error fault, machine⟩ :=
  .stopped rfl shows rfl

theorem Mirrors.andThen {first next : Running Unit} {run : Traced} {next' : Machine → Traced}
    (begins : Mirrors settings interpreter (first interpreter) run)
    (more : ∀ {interpreter machine}, Shows settings interpreter machine →
      Mirrors settings interpreter (next interpreter) (next' machine)) :
    Mirrors settings interpreter ((first >>= fun _ => next) interpreter) (run.andThen next') := by
  simp only [bind, EStateM.bind]
  generalize first interpreter = result at begins ⊢
  cases begins with
  | stopped failed shows state =>
    rw [Traced.andThen_of_error failed]
    exact .stopped failed shows state
  | @done after _ finished shows state =>
    have hthen : run.andThen next' =
        { next' run.machine with made := run.made ++ (next' run.machine).made } := by
      unfold Traced.andThen
      rw [finished]
    have hmore := more shows
    rw [hthen]
    simp only
    generalize next after = result at hmore ⊢
    cases hmore with
    | done finished' shows' state' =>
      exact .done finished' shows' (by rw [state', state, assigning_append])
    | stopped failed' shows' state' =>
      exact .stopped failed' shows' (by rw [state', state, assigning_append])

theorem Shows.choose {test : Expr} {yes no : Running Unit} {yes' no' : Traced}
    (shows : Shows settings interpreter machine)
    (hyes : Mirrors settings interpreter (yes interpreter) yes')
    (hno : Mirrors settings interpreter (no interpreter) no') :
    Mirrors settings interpreter
      ((Running.evaluate test >>= fun value => if value ≠ 0 then yes else no) interpreter)
      (.choose test machine yes' no') := by
  unfold Traced.choose
  simp only [bind, EStateM.bind, Running.evaluate, shows.evaluate_eq]
  cases machine.evaluate test with
  | error fault => exact shows.stop fault
  | ok value =>
    by_cases zero : value = 0
    · simpa [zero] using hno
    · simpa [zero] using hyes

/-- A loop that counts its iterations up does what one with a falling budget does. -/
theorem Shows.repeatWhile {limit : Nat} {test : Expr} {body : Running Unit}
    {body' : Machine → Traced}
    (runs : ∀ {interpreter machine}, Shows settings interpreter machine →
      Mirrors settings interpreter (body interpreter) (body' machine))
    {iterations budget : Nat} (left : iterations + budget = limit)
    (shows : Shows settings interpreter machine) :
    Mirrors settings interpreter (Running.repeatWhile limit test body iterations interpreter)
      (.repeatWhile limit test body' budget machine) := by
  induction budget generalizing iterations interpreter machine with
  | zero =>
    rw [Running.repeatWhile, Traced.repeatWhile, if_neg (by omega)]
    exact shows.choose (shows.stop _) shows.stay
  | succ budget ih =>
    rw [Running.repeatWhile, Traced.repeatWhile, if_pos (by omega)]
    refine shows.choose ((runs shows).andThen ?_) shows.stay
    intro interpreter machine hshows
    exact ih (by omega) hshows

/-- Every run of an interpreter is that of the machine it shows, wherever it stops. -/
theorem mirrors_run (stmt : Stmt) (shows : Shows settings interpreter machine) :
    Mirrors settings interpreter (stmt.run interpreter)
      (stmt.traced settings.loopLimit machine) := by
  induction stmt using Stmt.blockInduction generalizing interpreter machine with
  | assign name value =>
    simp only [Stmt.run, Stmt.traced, bind, EStateM.bind, Running.evaluate, shows.evaluate_eq]
    cases machine.evaluate value with
    | error fault => exact shows.stop fault
    | ok value => exact shows.store ⟨name, value⟩
  | nil =>
    rw [traced_nil]
    simp only [Stmt.run, Stmt.runAll]
    exact shows.stay
  | cons first rest ihFirst ihRest =>
    rw [traced_cons]
    simp only [Stmt.run, Stmt.runAll] at ihRest ⊢
    exact (ihFirst shows).andThen ihRest
  | branch test yes no ihYes ihNo =>
    rw [traced_branch]
    simp only [Stmt.run]
    exact shows.choose (ihYes shows) (ihNo shows)
  | loop test body ih =>
    have hlimit : (Stmt.loop test body).run interpreter =
        Running.repeatWhile settings.loopLimit test body.run 0 interpreter := by
      rw [← shows.settings_eq]
      simp only [Stmt.run]
      rfl
    rw [traced_loop, hlimit]
    exact Shows.repeatWhile ih (Nat.zero_add _) shows

/-- A program runs in an interpreter as on the machine that it shows. -/
theorem Shows.run (shows : Shows settings interpreter machine) (program : Stmt) :
    let ran := program.traced settings.loopLimit machine
    interpreter.run program = (ran.answer.mapError .fault, interpreter.assigning ran.made) ∧
      Shows settings (interpreter.assigning ran.made) ran.machine := by
  intro ran
  have hmirrors : Mirrors settings interpreter (program.run interpreter) ran :=
    mirrors_run program shows
  unfold Interpreter.run
  generalize program.run interpreter = result at hmirrors ⊢
  cases hmirrors with
  | done finished shows state =>
    rw [finished, ← state]
    exact ⟨rfl, shows⟩
  | stopped failed shows state =>
    rw [failed, ← state]
    exact ⟨rfl, shows⟩

end Run

/-! ## Programs one after another -/

/-- How each program ended, and the interpreter that the last one left. -/
def Interpreter.runs (interpreter : Interpreter) (programs : List Stmt) :
    List (Except Halt Unit) × Interpreter :=
  programs.foldl
    (fun past program => (past.1 ++ [(past.2.run program).1], (past.2.run program).2))
    ([], interpreter)

/-- An interpreter and its answers are those of a chronicle. -/
structure Follows (settings : Settings) (past : Chronicle)
    (now : List (Except Halt Unit) × Interpreter) : Prop where
  answers_eq : now.1 = past.answers.map (·.mapError .fault)
  state_eq : now.2 = settings.interpreter.assigning past.made
  shows : Shows settings now.2 past.machine
  symbols_eq : past.machine.symbols = tableAfter .empty past.made
  steps_eq : past.machine.steps = past.made.length

namespace Follows

variable {settings : Settings}

theorem start (settings : Settings) :
    Follows settings { machine := settings.machine } ([], settings.interpreter) where
  answers_eq := rfl
  state_eq := rfl
  shows := .start settings
  symbols_eq := by
    unfold Settings.machine
    split <;> rfl
  steps_eq := by
    unfold Settings.machine
    split <;> rfl

/-- After one more program the interpreter still follows the machine, answer by answer. -/
theorem step {past : Chronicle} {now : List (Except Halt Unit) × Interpreter}
    (follows : Follows settings past now) (program : Stmt) :
    Follows settings (past.step settings.loopLimit program)
      (now.1 ++ [(now.2.run program).1], (now.2.run program).2) := by
  obtain ⟨hrun, hshows⟩ := follows.shows.run program
  have hstored := stored_traced settings.loopLimit program past.machine
  rw [Chronicle.step_eq, hrun]
  refine ⟨?_, ?_, hshows, ?_, ?_⟩
  · rw [List.map_append, follows.answers_eq]
    rfl
  · rw [follows.state_eq, assigning_append]
  · rw [hstored.symbols, follows.symbols_eq, tableAfter_append]
  · rw [hstored.steps, follows.steps_eq, List.length_append]

theorem runs (settings : Settings) (programs : List Stmt) :
    Follows settings (.of settings.loopLimit settings.machine programs)
      (settings.interpreter.runs programs) := by
  unfold Chronicle.of Interpreter.runs
  induction programs using List.reverseRecOn with
  | nil => exact .start settings
  | append_singleton programs program ih =>
    rw [List.foldl_append, List.foldl_append]
    exact ih.step program

variable {past : Chronicle} {now : List (Except Halt Unit) × Interpreter}

theorem order_eq (follows : Follows settings past now) :
    now.2.order = (tableAfter .empty past.made).names := by
  rw [follows.shows.order_eq, follows.symbols_eq]

theorem find?_eq (follows : Follows settings past now) (name : String) :
    now.2.get? name = (tableAfter .empty past.made).find? name := by
  rw [← follows.symbols_eq]
  exact follows.shows.find?_eq name

theorem apart (follows : Follows settings past now) : (tableAfter .empty past.made).names.Nodup :=
  follows.symbols_eq ▸ follows.shows.apart

theorem listed (follows : Follows settings past now) :
    now.2.symbols = .ok (tableAfter .empty past.made).entries := by
  rw [follows.shows.symbols_eq, follows.symbols_eq]

/-- A machine has no way to miss a name, so nothing that mirrors one has. -/
theorem not_missing (follows : Follows settings past now) (name : String) :
    .error (.missing name) ∉ now.1 := by
  intro hmissing
  rw [follows.answers_eq] at hmissing
  obtain ⟨answer, _, hanswer⟩ := List.mem_map.1 hmissing
  cases answer with
  | ok _ => cases hanswer
  | error fault => cases hanswer

end Follows

/-- **Values and order stay together.** Let an interpreter with any settings run any programs,
whether they finish or not, and list the assignments it has made. The order of the names has no
duplicates and holds exactly the names that have a value, so nothing that goes through it ever
misses one: no run was stopped that way, and the variables can be listed and rendered. They stand
in the order in which they first occur among the assignments, each with the value that it was given
last, which is the one that a lookup finds. Whatever is run next, the order so far is a prefix of
the order after it. -/
theorem symbols_stay_in_order_of_first_assignment (settings : Settings) (programs : List Stmt) :
    let answers := (settings.interpreter.runs programs).1
    let interpreter := (settings.interpreter.runs programs).2
    let made := (Chronicle.of settings.loopLimit settings.machine programs).made
    (interpreter = settings.interpreter.assigning made ∧ interpreter.steps = made.length) ∧
      (interpreter.order.Nodup ∧
        ∀ name, name ∈ interpreter.order ↔ (interpreter.get? name).isSome) ∧
      (∀ name, .error (.missing name) ∉ answers) ∧
      (∃ symbols, interpreter.symbols = .ok symbols ∧
        interpreter.render = .ok (String.join (symbols.map fun entry =>
          entry.1 ++ ": " ++ toString entry.2.toInt ++ "\n")) ∧
        symbols.map Prod.fst = interpreter.order ∧
        interpreter.order = (made.map Assignment.name).eraseDups ∧
        ∀ entry ∈ symbols, interpreter.get? entry.1 = some entry.2 ∧
          lastAssigned made entry.1 = some entry.2) ∧
      ∀ program, interpreter.order <+: (interpreter.run program).2.order := by
  intro answers interpreter made
  have hfollows : Follows settings _ (answers, interpreter) := Follows.runs settings programs
  have horder : interpreter.order = (tableAfter .empty made).names := hfollows.order_eq
  have hsymbols : interpreter.symbols = .ok (tableAfter .empty made).entries := hfollows.listed
  refine ⟨⟨hfollows.state_eq, hfollows.shows.steps_eq.trans hfollows.steps_eq⟩, ⟨?_, ?_⟩,
    hfollows.not_missing, ?_, ?_⟩
  · rw [horder]
    exact hfollows.apart
  · intro name
    rw [horder, hfollows.find?_eq, Table.find?_isSome_iff]
  · refine ⟨_, hsymbols, ?_, horder.symm, ?_, ?_⟩
    · unfold Interpreter.render Interpreter.machine
      rw [hsymbols]
      rfl
    · rw [horder, names_tableAfter]
    · intro entry hmem
      have hlookup : (tableAfter .empty made).find? entry.1 = some entry.2 :=
        Table.lookup_of_mem hfollows.apart hmem
      exact ⟨(hfollows.find?_eq entry.1).trans hlookup,
        (find?_tableAfter made entry.1).symm.trans hlookup⟩
  · intro program
    obtain ⟨hrun, hafter⟩ := hfollows.shows.run program
    rw [hrun, hafter.order_eq, (stored_traced settings.loopLimit program _).symbols,
      hfollows.shows.order_eq]
    exact names_isPrefix_tableAfter _ _

/-- A variable that is assigned again keeps its place. -/
example : ((Settings.interpreter {}).run (.block [.assign "a" (.number 1), .assign "b" (.number 2),
    .assign "a" (.number 3)])).2.symbols = .ok [("a", 3), ("b", 2)] := rfl

end Primer.Lang
