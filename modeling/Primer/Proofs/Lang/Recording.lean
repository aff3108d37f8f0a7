import Primer.Proofs.Lang.Traced

/-!
# Recording changes nothing else

A machine with a history and one without, otherwise alike, do the same with a program until the
history is full. Forgetting the history of a machine (`Machine.forget`) is a view through which a
recorded run extends to the plain one: a single assignment does (`store_extends_forget`), and so do
whole runs (`traced_extends`). A run that the history cuts short has made the first assignments of
the plain run, and has left the table as it was after them (`recording_changes_nothing`).
-/

namespace Primer.Lang

/-- The machine without its history. -/
def Machine.forget (machine : Machine) : Machine := { machine with history := none }

/-- The fault of a full history. -/
def Fault.IsHistory (fault : Fault) : Prop := ∃ full, fault = .history full

theorem store_forget (next : Assignment) (machine : Machine) :
    Traced.store next machine.forget =
      ⟨[next], .ok (), machine.symbols.insert next.name next.value, machine.steps + 1, none⟩ := rfl

theorem store_extends_forget (next : Assignment) (machine : Machine) :
    Extends Fault.IsHistory Machine.forget (Traced.store next machine)
      (Traced.store next machine.forget) := by
  rw [store_forget]
  rcases store_cases next machine with ⟨_, hstore⟩ | ⟨_, _, _, _, hstore⟩ | ⟨_, full, _, _, hstore⟩
  · rw [hstore]
    exact .same rfl
  · rw [hstore]
    exact .same rfl
  · rw [hstore]
    exact .cut rfl ⟨full, rfl⟩ (List.prefix_refl _)

/-- A program does the same without a history, except that it goes on where the history would have
stopped it. -/
theorem traced_extends_forget (limit : Nat) (program : Stmt) (machine : Machine) :
    Extends Fault.IsHistory Machine.forget (program.traced limit machine)
      (program.traced limit machine.forget) := by
  have hsees : ∀ machine : Machine, machine.forget.symbols = machine.symbols := fun _ => rfl
  exact traced_extends hsees store_extends_forget (Nat.le_refl limit) (.inl rfl) program machine

/-- **Recording changes nothing else.** Take two machines with the same symbol table and number of
assignments, one with any history and one without, and run a program on both. The second makes at
least as many assignments as the first, the first ones are the same, and the first machine has the
table that the second had right after them, wherever the history may have stopped it. Unless the
history did stop it, both answer the same and are left with the same table and number of
assignments. -/
theorem recording_changes_nothing (limit : Nat) (program : Stmt) (symbols : Table Int32)
    (steps : Nat) (log : Log Snapshot) :
    let recorded := Machine.run limit program ⟨symbols, steps, some log⟩
    let plain := Machine.run limit program ⟨symbols, steps, none⟩
    let kept := (program.traced limit ⟨symbols, steps, some log⟩).made
    let made := (program.traced limit ⟨symbols, steps, none⟩).made
    (recorded.2.steps = steps + kept.length ∧
        plain.2.steps = steps + made.length ∧ plain.2.symbols = tableAfter symbols made) ∧
      (kept.length ≤ made.length ∧ kept = made.take kept.length ∧
        recorded.2.symbols = tableAfter symbols (made.take kept.length)) ∧
      ((∀ full, recorded.1 ≠ .error (.history full)) →
        recorded.1 = plain.1 ∧ recorded.2.symbols = plain.2.symbols ∧
          recorded.2.steps = plain.2.steps ∧ kept = made) := by
  intro recorded plain kept made
  have hrecorded : recorded = _ := run_eq_traced program ⟨symbols, steps, some log⟩
  have hplain : plain = _ := run_eq_traced program ⟨symbols, steps, none⟩
  have hstored := stored_traced limit program ⟨symbols, steps, some log⟩
  have hstored' := stored_traced limit program ⟨symbols, steps, none⟩
  have hextends := traced_extends_forget limit program ⟨symbols, steps, some log⟩
  rw [hrecorded, hplain]
  refine ⟨⟨hstored.steps, hstored'.steps, hstored'.symbols⟩, ?_, ?_⟩
  · have hbefore : kept <+: made := hextends.isPrefix
    have htake : kept = made.take kept.length := List.prefix_iff_eq_take.1 hbefore
    refine ⟨hbefore.length_le, htake, ?_⟩
    rw [← htake]
    exact hstored.symbols
  · intro unstopped
    cases hextends with
    | same equal =>
      have hequal : program.traced limit ⟨symbols, steps, none⟩ = _ := equal
      rw [hequal]
      exact ⟨rfl, rfl, rfl, by simp only [made, kept, hequal]⟩
    | cut stopped cuts _ =>
      obtain ⟨full, rfl⟩ := cuts
      exact absurd stopped (unstopped full)

/-- With too little room the history stops the second of three assignments, though that one is made;
with enough it stops none. -/
theorem recording_stops_at_the_second_assignment :
    let program := Stmt.block [.assign "x" (.number 1), .assign "y" (.number 2),
      .assign "x" (.var "y")]
    let narrow := Machine.run 10 program (.recording 20)
    let wide := Machine.run 10 program (.recording 49)
    (narrow.1 = .error (.history ⟨13, 18, 20⟩) ∧
        narrow.2.symbols = tableAfter .empty [⟨"x", 1⟩, ⟨"y", 2⟩]) ∧
      (∀ full, wide.1 ≠ .error (.history full)) ∧
      wide.2.symbols = (Machine.run 10 program .plain).2.symbols := by
  intro program narrow wide
  have hwide : wide.1 = .ok () := rfl
  have hunstopped : ∀ full, wide.1 ≠ .error (.history full) := by
    intro full hstop
    rw [hwide] at hstop
    cases hstop
  obtain ⟨_, ⟨_, _, htable⟩, _⟩ := recording_changes_nothing 10 program .empty 0 (.empty 20)
  obtain ⟨_, _, hsame⟩ := recording_changes_nothing 10 program .empty 0 (.empty 49)
  exact ⟨⟨rfl, htable⟩, hunstopped, (hsame hunstopped).2.1⟩

end Primer.Lang
