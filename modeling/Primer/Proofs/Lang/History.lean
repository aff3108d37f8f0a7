import Mathlib.Data.List.Induction
import Primer.Proofs.Lang.Traced

/-!
# What a history holds

A `Chronicle` is a machine with all programs it has run: what they assigned and how they ended. The
history of a machine that records holds the tables after its first assignments, in order and
without a gap, although nothing forbids that a small table is kept after a large one was refused.
The reason is that tables only grow (`size_le_size_insert`): as long as nothing was refused the log
is `Complete`, and from the first refusal on it is `Exhausted`, with less room than the table at
hand needs. One assignment keeps these (`Complete.store`, `Exhausted.store`), then one run
(`Complete.run`, `Exhausted.run`), then every chronicle (`Phase.of`).
-/

namespace Primer.Lang

/-! ## Tables only grow -/

theorem total_le_total_put (name : String) (value : Int32) (entries : List (String × Int32)) :
    total entryCharge entries ≤ total entryCharge (Table.put name value entries) := by
  induction entries with
  | nil => simp
  | cons entry rest ih =>
    obtain ⟨other, old⟩ := entry
    by_cases same : other = name
    · simp [Table.put, same, entryCharge]
    · simp only [Table.put, same, if_false, total_cons]
      omega

/-- A table takes up at least as much room after an assignment as before it. -/
theorem size_le_size_insert (symbols : Table Int32) (next : Assignment) (step later : Nat) :
    Snapshot.size ⟨step, symbols⟩ ≤
      Snapshot.size ⟨later, symbols.insert next.name next.value⟩ := by
  unfold Snapshot.size
  have hgrow := total_le_total_put next.name next.value symbols.entries
  simp only [Table.insert]
  omega

/-- The names of a table stand in the order in which they were first assigned. -/
theorem names_tableAfter (made : List Assignment) :
    (tableAfter .empty made).names = (made.map Assignment.name).eraseDups := by
  induction made using List.reverseRecOn with
  | nil => rfl
  | append_singleton made next ih =>
    have hinsert : tableAfter .empty (made ++ [next]) =
        (tableAfter .empty made).insert next.name next.value := tableAfter_append _ _ _
    rw [hinsert, Table.names_insert, ih, List.map_append, List.eraseDups_append]
    by_cases known : next.name ∈ made.map Assignment.name
    · have hgone : ([next].map Assignment.name).removeAll (made.map Assignment.name) = [] := by
        simpa [List.removeAll] using known
      rw [if_pos (List.mem_eraseDups.2 known), hgone]
      simp
    · have hstays : ([next].map Assignment.name).removeAll (made.map Assignment.name) =
          [next.name] := by
        simpa [List.removeAll] using known
      rw [if_neg (fun hmem => known (List.mem_eraseDups.1 hmem)), hstays, List.eraseDups_cons]
      simp

/-! ## The log of a recording machine -/

/-- The log holds the tables after the first assignments, and its room is accounted for. -/
structure Kept (room : Nat) (made : List Assignment) (machine : Machine) (log : Log Snapshot) :
    Prop where
  history : machine.history = some log
  symbols : machine.symbols = tableAfter .empty made
  steps : machine.steps = made.length
  limit : log.limit = room
  used : log.used = total Snapshot.size log.items
  within : log.used ≤ room
  length : log.length ≤ made.length
  entries : ∀ index, index < log.length →
    log.get? index = some ⟨index + 1, tableAfter .empty (made.take (index + 1))⟩

/-- Every assignment was recorded. -/
structure Complete (room : Nat) (made : List Assignment) (machine : Machine) (log : Log Snapshot) :
    Prop extends Kept room made machine log where
  whole : log.length = made.length

/-- Some assignment was not recorded, and there is no room for the table as it is now. -/
structure Exhausted (room : Nat) (made : List Assignment) (machine : Machine) (log : Log Snapshot) :
    Prop extends Kept room made machine log where
  missing : log.length < made.length
  tight : room < log.used + Snapshot.size ⟨machine.steps, machine.symbols⟩

section Store

variable {room : Nat} {made : List Assignment} {machine : Machine} {log : Log Snapshot}

theorem Complete.recording (room : Nat) : Complete room [] (.recording room) (.empty room) where
  history := rfl
  symbols := rfl
  steps := rfl
  limit := rfl
  used := rfl
  within := Nat.zero_le room
  length := Nat.le_refl 0
  entries := nofun
  whole := rfl

/-- The entries that are there stay those of the first assignments when one more is made. -/
theorem Kept.entries_append (kept : Kept room made machine log) (next : Assignment) (index : Nat)
    (inside : index < log.length) :
    log.get? index = some ⟨index + 1, tableAfter .empty ((made ++ [next]).take (index + 1))⟩ := by
  have hlength := kept.length
  rw [kept.entries index inside, List.take_append_of_le_length (by omega)]

theorem Kept.tableAfter_append (kept : Kept room made machine log) (next : Assignment) :
    machine.symbols.insert next.name next.value = tableAfter .empty (made ++ [next]) := by
  rw [kept.symbols, Lang.tableAfter_append]
  rfl

/-- A refused assignment leaves a log that is exhausted. -/
theorem Kept.refuse {next : Assignment} (kept : Kept room made machine log)
    (tight : room < log.used +
      Snapshot.size ⟨machine.steps + 1, machine.symbols.insert next.name next.value⟩) :
    Exhausted room (made ++ [next])
      ⟨machine.symbols.insert next.name next.value, machine.steps + 1, some log⟩ log := by
  have hlength := kept.length
  have hmore : (made ++ [next]).length = made.length + 1 := by simp
  exact {
    history := rfl
    symbols := kept.tableAfter_append next
    steps := by rw [hmore, kept.steps]
    limit := kept.limit
    used := kept.used
    within := kept.within
    length := by omega
    entries := kept.entries_append next
    missing := by omega
    tight := tight }

/-- As long as there is room, each assignment adds its own entry. -/
theorem Complete.keep {next : Assignment} {longer : Log Snapshot}
    (complete : Complete room made machine log)
    (push : log.push ⟨machine.steps + 1, machine.symbols.insert next.name next.value⟩ = .ok longer) :
    Complete room (made ++ [next])
      ⟨machine.symbols.insert next.name next.value, machine.steps + 1, some longer⟩ longer := by
  obtain ⟨hfits, hlimit, hused, hnewest⟩ := Log.push_eq_ok_iff.1 push
  have hitems := Log.items_push push
  have hlength : longer.length = log.length + 1 := by simp [Log.length, hnewest]
  have hmore : (made ++ [next]).length = made.length + 1 := by simp
  have hwhole := complete.whole
  have hroom := complete.limit
  refine ⟨⟨rfl, complete.tableAfter_append next, ?_, ?_, ?_, ?_, ?_, ?_⟩, ?_⟩
  · rw [hmore, complete.steps]
  · rw [hlimit, hroom]
  · rw [hused, hitems, total_append, complete.used]
    rfl
  · rw [hused]
    omega
  · omega
  · intro index inside
    unfold Log.get?
    rw [hitems]
    by_cases old : index < log.length
    · rw [List.getElem?_append_left (by rwa [← Log.length_eq])]
      exact complete.entries_append next index old
    · -- The new entry stands at the end and holds the table after all assignments.
      obtain rfl : index = log.length := by omega
      have hall : (made ++ [next]).take (log.length + 1) = made ++ [next] := by
        rw [hwhole, ← hmore, List.take_length]
      rw [Log.length_eq, List.getElem?_concat_length, ← Log.length_eq, hall,
        complete.tableAfter_append next, complete.steps, hwhole]
  · omega

/-- An assignment is recorded, or it is refused and leaves the log exhausted. -/
theorem Kept.store (kept : Kept room made machine log) (next : Assignment) :
    (∃ longer,
        log.push ⟨machine.steps + 1, machine.symbols.insert next.name next.value⟩ = .ok longer ∧
        Traced.store next machine = ⟨[next], .ok (), machine.symbols.insert next.name next.value,
          machine.steps + 1, some longer⟩) ∨
      ∃ full, (Traced.store next machine).answer = .error (.history full) ∧
        Exhausted room (made ++ [next]) (Traced.store next machine).machine log := by
  have hhistory := kept.history
  rcases store_cases next machine with
    ⟨hnone, _⟩ | ⟨other, longer, hsome, hpush, hstore⟩ | ⟨other, full, hsome, hpush, hstore⟩
  · rw [hhistory] at hnone
    cases hnone
  · obtain rfl : log = other := by simpa [hhistory] using hsome
    exact .inl ⟨longer, hpush, hstore⟩
  · obtain rfl : log = other := by simpa [hhistory] using hsome
    have htight := (Log.push_eq_error_iff.1 hpush).1
    rw [kept.limit] at htight
    rw [hstore]
    exact .inr ⟨full, rfl, kept.refuse htight⟩

/-- An assignment is either recorded, or it uses up the history for good. -/
theorem Complete.store (complete : Complete room made machine log) (next : Assignment) :
    (∃ longer, (Traced.store next machine).answer = .ok () ∧
        Complete room (made ++ [next]) (Traced.store next machine).machine longer) ∨
      ∃ full, (Traced.store next machine).answer = .error (.history full) ∧
        Exhausted room (made ++ [next]) (Traced.store next machine).machine log := by
  rcases complete.toKept.store next with ⟨longer, hpush, hstore⟩ | hrefused
  · rw [hstore]
    exact .inl ⟨longer, rfl, complete.keep hpush⟩
  · exact .inr hrefused

/-- An assignment on an exhausted log is made and refused. -/
theorem Exhausted.store (exhausted : Exhausted room made machine log) (next : Assignment) :
    ∃ full, (Traced.store next machine).answer = .error (.history full) ∧
      Exhausted room (made ++ [next]) (Traced.store next machine).machine log := by
  rcases exhausted.toKept.store next with ⟨longer, hpush, _⟩ | hrefused
  · -- A smaller table could fit and leave a gap, but no table is smaller than the one before it.
    have hfits : log.used +
        Snapshot.size ⟨machine.steps + 1, machine.symbols.insert next.name next.value⟩ ≤
          log.limit := (Log.push_eq_ok_iff.1 hpush).1
    have hgrow := size_le_size_insert machine.symbols next machine.steps (machine.steps + 1)
    have htight := exhausted.tight
    rw [exhausted.limit] at hfits
    omega
  · exact hrefused

end Store

/-! ## Runs and chronicles -/

section Run

variable {room : Nat} {made : List Assignment} {machine : Machine} {log : Log Snapshot}
  {ran : Traced}

/-- A run on a complete log keeps it complete, or it is stopped by the history and exhausts it. -/
theorem Complete.run (complete : Complete room made machine log) (stored : Stored machine ran) :
    ((∀ full, ran.answer ≠ .error (.history full)) ∧
        ∃ longer, Complete room (made ++ ran.made) ran.machine longer) ∨
      ((∃ full, ran.answer = .error (.history full)) ∧
        ∃ longer, Exhausted room (made ++ ran.made) ran.machine longer) := by
  induction stored generalizing made log with
  | done => exact .inl ⟨nofun, log, by simpa using complete⟩
  | stopped ordinary =>
    refine .inl ⟨?_, log, by simpa using complete⟩
    intro full hfull
    exact ordinary full (Except.error.inj hfull)
  | @stored machine next run kept rest ih =>
    -- The first assignment was recorded, so the rest of the run starts from a complete log too.
    rcases complete.store next with ⟨longer, _, hcomplete⟩ | ⟨full, hlost, _⟩
    · have hrest := ih hcomplete
      simpa only [List.append_assoc, List.singleton_append] using hrest
    · rw [kept] at hlost
      cases hlost
  | @refused machine next full lost =>
    rcases complete.store next with ⟨longer, hkept, _⟩ | ⟨other, _, hexhausted⟩
    · rw [lost] at hkept
      cases hkept
    · refine .inr ⟨⟨full, lost⟩, log, ?_⟩
      rw [made_store]
      exact hexhausted

/-- A run on an exhausted log makes no assignment and leaves the machine as it is, or it makes one
and is stopped by the history. -/
theorem Exhausted.run (exhausted : Exhausted room made machine log) (stored : Stored machine ran) :
    Exhausted room (made ++ ran.made) ran.machine log ∧
      ((ran.made = [] ∧ ran.machine = machine ∧ ∀ full, ran.answer ≠ .error (.history full)) ∨
        ∃ next full, ran.made = [next] ∧ ran.answer = .error (.history full)) := by
  cases stored with
  | done => exact ⟨by simpa using exhausted, .inl ⟨rfl, rfl, nofun⟩⟩
  | stopped ordinary =>
    refine ⟨by simpa using exhausted, .inl ⟨rfl, rfl, ?_⟩⟩
    intro full hfull
    exact ordinary full (Except.error.inj hfull)
  | @stored _ next run kept rest =>
    obtain ⟨full, hlost, _⟩ := exhausted.store next
    rw [kept] at hlost
    cases hlost
  | @refused _ next full lost =>
    obtain ⟨_, _, hexhausted⟩ := exhausted.store next
    rw [made_store]
    exact ⟨hexhausted, .inr ⟨next, full, rfl, lost⟩⟩

end Run

/-- A machine and what has become of the programs it has run: all their assignments, and how each
of them ended. -/
structure Chronicle where
  machine : Machine
  made : List Assignment := []
  answers : List (Except Fault Unit) := []

namespace Chronicle

/-- Run one more program. -/
def step (limit : Nat) (past : Chronicle) (program : Stmt) : Chronicle where
  machine := (past.machine.run limit program).2
  made := past.made ++ (program.traced limit past.machine).made
  answers := past.answers ++ [(past.machine.run limit program).1]

/-- The chronicle of a machine that runs programs one after another. -/
def of (limit : Nat) (machine : Machine) (programs : List Stmt) : Chronicle :=
  programs.foldl (step limit) { machine }

theorem step_eq (limit : Nat) (past : Chronicle) (program : Stmt) :
    past.step limit program =
      { machine := (program.traced limit past.machine).machine
        made := past.made ++ (program.traced limit past.machine).made
        answers := past.answers ++ [(program.traced limit past.machine).answer] } := by
  unfold step
  rw [run_eq_traced]

/-- Some run was stopped by the history. -/
def Overfull (past : Chronicle) : Prop := ∃ full, .error (.history full) ∈ past.answers

/-- A history is overfull once some run was stopped by it. -/
theorem overfull_step {limit : Nat} {past : Chronicle} {program : Stmt} :
    (past.step limit program).Overfull ↔
      past.Overfull ∨
        ∃ full, (program.traced limit past.machine).answer = .error (.history full) := by
  simp only [Overfull, step_eq, List.mem_append, List.mem_singleton, eq_comm, exists_or]

end Chronicle

/-- The log is complete as long as no run was stopped by the history, and then it is exhausted. -/
inductive Phase (room : Nat) (past : Chronicle) : Prop
  | complete {log : Log Snapshot} (kept : Complete room past.made past.machine log)
      (never : ¬ past.Overfull)
  | exhausted {log : Log Snapshot} (kept : Exhausted room past.made past.machine log)
      (once : past.Overfull)

namespace Phase

variable {room limit : Nat}

theorem step {past : Chronicle} (phase : Phase room past) (program : Stmt) :
    Phase room (past.step limit program) := by
  have hstored := stored_traced limit program past.machine
  cases phase with
  | complete kept never =>
    rcases kept.run hstored with ⟨hordinary, longer, hcomplete⟩ | ⟨hfull, longer, hexhausted⟩
    · refine .complete (by rw [Chronicle.step_eq]; exact hcomplete) ?_
      rw [Chronicle.overfull_step]
      rintro (hbefore | ⟨full, hnow⟩)
      · exact never hbefore
      · exact hordinary full hnow
    · refine .exhausted (by rw [Chronicle.step_eq]; exact hexhausted) ?_
      exact Chronicle.overfull_step.2 (.inr hfull)
  | exhausted kept once =>
    refine .exhausted (by rw [Chronicle.step_eq]; exact (kept.run hstored).1) ?_
    exact Chronicle.overfull_step.2 (.inl once)

theorem of (programs : List Stmt) : Phase room (.of limit (.recording room) programs) := by
  unfold Chronicle.of
  refine List.foldlRecOn programs (Chronicle.step limit) ?_ ?_
  · exact .complete (Complete.recording room) nofun
  · intro past phase program _
    exact phase.step program

/-- Whatever the phase, there is a log, and it tells whether a run was stopped by the history. -/
theorem kept {past : Chronicle} (phase : Phase room past) :
    ∃ log, Kept room past.made past.machine log ∧
      (log.length = past.made.length ↔ ¬ past.Overfull) ∧
      (past.Overfull → Exhausted room past.made past.machine log) := by
  cases phase with
  | @complete log kept never =>
    exact ⟨log, kept.toKept, iff_of_true kept.whole never, fun once => absurd once never⟩
  | @exhausted log kept once =>
    have hmissing : log.length ≠ past.made.length := Nat.ne_of_lt kept.missing
    exact ⟨log, kept.toKept, iff_of_false hmissing (not_not_intro once), fun _ => kept⟩

end Phase

/-- An exhausted log stays as it is, whatever is run. -/
theorem Exhausted.history_of {room limit : Nat} {machine : Machine} {log : Log Snapshot}
    {programs : List Stmt}
    (exhausted : Exhausted room (Chronicle.of limit machine programs).made
      (Chronicle.of limit machine programs).machine log) (later : List Stmt) :
    (Chronicle.of limit machine (programs ++ later)).machine.history = some log := by
  have hlater : Exhausted room (Chronicle.of limit machine (programs ++ later)).made
      (Chronicle.of limit machine (programs ++ later)).machine log := by
    unfold Chronicle.of
    rw [List.foldl_append]
    refine List.foldlRecOn later (Chronicle.step limit)
      (motive := fun past => Exhausted room past.made past.machine log) exhausted ?_
    intro past hpast program _
    have hrun := hpast.run (stored_traced limit program past.machine)
    rw [Chronicle.step_eq]
    exact hrun.1
  exact hlater.history

/-- **A history holds the first assignments, and a full one stays full.** Let a machine that records
into a log of some room run any programs, whether they finish or not. The entries of the log are
numbered from one, and each holds the whole symbol table, names in the order of first assignment, as
it was right after the assignment of its number. There are at most as many entries as there were
assignments, and as many exactly if no run was stopped by the history. The used room is what the
entries take up together, and within the limit. From the first time on that the history stops a run
the log never changes, and every program that comes to an assignment makes that one and is stopped
by the history. -/
theorem history_holds_the_first_assignments (room limit : Nat) (programs : List Stmt) :
    let past := Chronicle.of limit (.recording room) programs
    ∃ log, past.machine.history = some log ∧
      (past.machine.symbols = tableAfter .empty past.made ∧
        past.machine.steps = past.made.length) ∧
      (∀ index, index < log.length → ∃ snapshot, log.get? index = some snapshot ∧
        snapshot.step = index + 1 ∧
        snapshot.symbols = tableAfter .empty (past.made.take (index + 1)) ∧
        snapshot.symbols.names =
          ((past.made.take (index + 1)).map Assignment.name).eraseDups) ∧
      log.length ≤ past.machine.steps ∧
      (log.length = past.machine.steps ↔ ∀ full, .error (.history full) ∉ past.answers) ∧
      log.used = total Snapshot.size log.items ∧ log.used ≤ room ∧
      ((∃ full, .error (.history full) ∈ past.answers) →
        (∀ later, (Chronicle.of limit (.recording room) (programs ++ later)).machine.history =
            some log) ∧
          ∀ program,
            let made := (program.traced limit past.machine).made
            let run := past.machine.run limit program
            (made = [] ∧ run.2 = past.machine ∧ ∀ full, run.1 ≠ .error (.history full)) ∨
              ∃ next full, made = [next] ∧ run.1 = .error (.history full) ∧
                run.2.symbols = past.machine.symbols.insert next.name next.value ∧
                run.2.steps = past.machine.steps + 1) := by
  intro past
  obtain ⟨log, kept, hwhole, hexhausted⟩ := (Phase.of programs : Phase room past).kept
  have hsteps := kept.steps
  refine ⟨log, kept.history, ⟨kept.symbols, hsteps⟩, ?_, ?_, ?_, kept.used, kept.within, ?_⟩
  · intro index inside
    exact ⟨_, kept.entries index inside, rfl, rfl, names_tableAfter _⟩
  · rw [hsteps]
    exact kept.length
  · rw [hsteps, hwhole]
    exact not_exists
  · intro once
    have hlog := hexhausted once
    refine ⟨hlog.history_of, ?_⟩
    intro program made run
    have hstored := stored_traced limit program past.machine
    have hrun : run = _ := run_eq_traced program past.machine
    rw [hrun]
    rcases (hlog.run hstored).2 with hnone | ⟨next, full, hone, hanswer⟩
    · exact .inl hnone
    · have hsymbols := hstored.symbols
      have hcount := hstored.steps
      rw [hone] at hsymbols hcount
      exact .inr ⟨next, full, hone, hanswer, hsymbols, hcount⟩

/-- Two variables do not fit where one does: the log stays as the first run has left it, though a
later run assigns a variable that is known. -/
theorem history_stays_after_two_variables :
    let programs := [Stmt.block [.assign "x" (.number 1), .assign "y" (.number 2)]]
    let past := Chronicle.of 10 (.recording 20) programs
    let later := Chronicle.of 10 (.recording 20) (programs ++ [.assign "x" (.number 3)])
    .error (.history ⟨13, 18, 20⟩) ∈ past.answers ∧ later.machine.steps = 3 ∧
      ∃ log, log.length = 1 ∧ past.machine.history = some log ∧
        later.machine.history = some log := by
  intro programs past later
  have honce : .error (.history ⟨13, 18, 20⟩) ∈ past.answers := List.mem_singleton.2 rfl
  obtain ⟨log, hlog, _, _, _, _, _, _, hstays⟩ := history_holds_the_first_assignments 20 10 programs
  have hlength : log.length = 1 := by
    cases hlog
    rfl
  exact ⟨honce, rfl, log, hlength, hlog, (hstays ⟨_, honce⟩).1 [.assign "x" (.number 3)]⟩

end Primer.Lang
