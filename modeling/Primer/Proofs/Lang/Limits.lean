import Primer.Proofs.Lang.Traced

/-!
# Raising the loop limit

A run that a loop limit did not stop is the same run under every larger limit, and one that was
stopped goes on (`traced_extends_of_le`). What such a run leaves behind follows from its assignments
alone: a machine is what they make of it one after another (`Machine.after`, `Stored.machine_eq`),
and each of them adds at most one entry to the history. So the history of the shorter run is a
prefix of that of the longer one (`larger_limit_extends_runs`).
-/

namespace Primer.Lang

/-- The machine after assignments made one after another. -/
def Machine.after (machine : Machine) (made : List Assignment) : Machine :=
  made.foldl (fun machine next => (Traced.store next machine).machine) machine

/-- The second history has the entries of the first, and then perhaps more. Without a first history
there is no second one. -/
def HistoryGrows : Option (Log Snapshot) → Option (Log Snapshot) → Prop :=
  Option.Rel fun log longer => log.limit = longer.limit ∧ log.items <+: longer.items

section Growth

variable {first second third : Option (Log Snapshot)}

theorem HistoryGrows.refl (history : Option (Log Snapshot)) : HistoryGrows history history := by
  cases history with
  | none => exact .none
  | some log => exact .some ⟨rfl, List.prefix_refl _⟩

theorem HistoryGrows.trans (before : HistoryGrows first second)
    (after : HistoryGrows second third) : HistoryGrows first third := by
  cases before with
  | none => exact after
  | some hfirst =>
    cases after with
    | some hsecond =>
      exact .some ⟨hfirst.1.trans hsecond.1, hfirst.2.trans hsecond.2⟩

theorem historyGrows_store (next : Assignment) (machine : Machine) :
    HistoryGrows machine.history (Traced.store next machine).machine.history := by
  rcases store_cases next machine with
    ⟨hnone, hstore⟩ | ⟨log, longer, hsome, hpush, hstore⟩ | ⟨log, full, hsome, _, hstore⟩
  · rw [hnone, hstore]
    exact .none
  · have hlimit := (Log.push_eq_ok_iff.1 hpush).2.1
    rw [hsome, hstore]
    refine .some ⟨hlimit.symm, ?_⟩
    rw [Log.items_push hpush]
    exact List.prefix_append _ _
  · rw [hsome, hstore]
    exact .refl _

theorem historyGrows_after (machine : Machine) (made : List Assignment) :
    HistoryGrows machine.history (machine.after made).history := by
  induction made generalizing machine with
  | nil => exact .refl _
  | cons next rest ih =>
    apply (historyGrows_store next machine).trans
    exact ih (Traced.store next machine).machine

end Growth

theorem Machine.after_append (machine : Machine) (made more : List Assignment) :
    machine.after (made ++ more) = (machine.after made).after more :=
  List.foldl_append

/-- A run leaves the machine that its assignments make, however it ended. -/
theorem Stored.machine_eq {machine : Machine} {run : Traced} (stored : Stored machine run) :
    run.machine = machine.after run.made := by
  induction stored with
  | done => rfl
  | stopped _ => rfl
  | stored kept rest ih => exact ih
  | refused lost =>
    rw [made_store]
    rfl

/-- With a larger limit a program does the same, or goes on where the smaller limit stopped it. -/
theorem traced_extends_of_le {limit limit' : Nat} (le : limit ≤ limit') (program : Stmt)
    (machine : Machine) :
    Extends (· = .loopLimit limit) id (program.traced limit machine)
      (program.traced limit' machine) := by
  have hsees : ∀ machine : Machine, (id machine).symbols = machine.symbols := fun _ => rfl
  refine traced_extends hsees ?_ le ?_ program machine
  · intro next machine
    exact .same rfl
  · exact .inr rfl

/-- **Raising the loop limit only extends runs.** Run a program from the same machine under two
loop limits. If the smaller one did not stop it, the larger one changes nothing: both runs answer
the same, make the same assignments and leave the same machine, history included. In any case the
assignments under the smaller limit are the first ones under the larger, and the history under the
smaller limit is a prefix of the other. -/
theorem larger_limit_extends_runs {limit limit' : Nat} (le : limit ≤ limit') (program : Stmt)
    (machine : Machine) :
    let shorter := Machine.run limit program machine
    let longer := Machine.run limit' program machine
    let made := (program.traced limit machine).made
    let made' := (program.traced limit' machine).made
    (shorter.2 = machine.after made ∧ longer.2 = machine.after made') ∧
      (shorter.1 ≠ .error (.loopLimit limit) → longer = shorter ∧ made' = made) ∧
      made <+: made' ∧ HistoryGrows shorter.2.history longer.2.history := by
  intro shorter longer made made'
  have hshorter : shorter = _ := run_eq_traced program machine
  have hlonger : longer = _ := run_eq_traced program machine
  have hmachine : shorter.2 = machine.after made := by
    rw [hshorter]
    exact (stored_traced limit program machine).machine_eq
  have hmachine' : longer.2 = machine.after made' := by
    rw [hlonger]
    exact (stored_traced limit' program machine).machine_eq
  have hextends := traced_extends_of_le le program machine
  have hbefore : made <+: made' := hextends.isPrefix
  refine ⟨⟨hmachine, hmachine'⟩, ?_, hbefore, ?_⟩
  · intro unstopped
    cases hextends with
    | same equal =>
      have hequal : program.traced limit' machine = program.traced limit machine := equal
      rw [hshorter, hlonger, hequal]
      exact ⟨rfl, congrArg Traced.made hequal⟩
    | cut stopped cuts _ =>
      rw [hshorter] at unstopped
      rw [cuts] at stopped
      exact absurd stopped unstopped
  · -- The longer run goes on from the machine that the shorter one left.
    obtain ⟨more, hmore⟩ := hbefore
    rw [hmachine, hmachine', ← hmore, Machine.after_append]
    exact historyGrows_after _ more

/-- A loop that needs two rounds is cut short by a limit of one, and a limit of two is enough. -/
theorem two_rounds_need_a_limit_of_two :
    let program := Stmt.block [.assign "x" (.number 2),
      .loop (.var "x") (.assign "x" (.binary .sub (.var "x") (.number 1)))]
    let run := fun limit => Machine.run limit program (.recording 100)
    (1 ≤ 2 ∧ (run 1).1 = .error (.loopLimit 1) ∧
        HistoryGrows (run 1).2.history (run 2).2.history) ∧
      2 ≤ 9 ∧ (run 2).1 ≠ .error (.loopLimit 2) ∧ run 9 = run 2 := by
  intro program run
  have hfinished : (run 2).1 = .ok () := rfl
  have hunstopped : (run 2).1 ≠ .error (.loopLimit 2) := by
    rw [hfinished]
    exact nofun
  have hone : 1 ≤ 2 := by decide
  have htwo : 2 ≤ 9 := by decide
  obtain ⟨_, _, _, hhistory⟩ := larger_limit_extends_runs hone program (.recording 100)
  obtain ⟨_, hsame, _⟩ := larger_limit_extends_runs htwo program (.recording 100)
  exact ⟨⟨hone, rfl, hhistory⟩, htwo, hunstopped, (hsame hunstopped).1⟩

end Primer.Lang
