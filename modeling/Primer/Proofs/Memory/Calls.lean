import Mathlib.Data.List.Infix
import Primer.Proofs.Memory.StackLayout

/-!
# Calls leave their caller as it was

While a called function runs, the frames of its callers lie below its own. Names are looked up in the
innermost frame only, so in the frames below nothing changes but the values that are written by
address (`Entered`). A command keeps this as long as it does not leave the call (`Entered.step`), and
so do commands one after another (`Entered.run`). When the call is left, the next slot is that of the
caller again, and all slots that were given during the call lie beyond it
(`balanced_call_restores_its_caller`).
-/

namespace Primer.Memory

/-- The addresses to which a command stores an integer. -/
def writtenBy (memory : Memory) : Command → List Address
  | .writeInt address value =>
    match memory.writeInt address value with
    | .ok _ => [address]
    | .error _ => []
  | _ => []

/-- The slots that a row of declarations is given. -/
def Stack.rowSlots (stem : String) (index : Nat) : (count : Nat) → Stack → List Address
  | 0, _ => []
  | count + 1, stack =>
    match stack.declare (stem ++ toString index) (.int (Int32.ofNat index)) with
    | .ok (address, after) => address :: rowSlots stem (index + 1) count after
    | .error _ => []

/-- The slots that a command is given for what it declares. -/
def givenTo (memory : Memory) : Command → List Address
  | .declare name value =>
    match memory.stack.declare name value with
    | .ok (address, _) => [address]
    | .error _ => []
  | .declareMany stem count => Stack.rowSlots stem 0 count memory.stack
  | _ => []

/-- Addresses that go with single commands, for commands carried out one after another. -/
def collect (each : Memory → Command → List Address) (memory : Memory) :
    List Command → List Address
  | [] => []
  | command :: rest => each memory command ++ collect each (memory.step command) rest

/-! ## Inside a call -/

/-- The frames of a call of `function`: those of the caller, changed in written values only, on top
of them the frame of the function, which begins at the caller's next slot, and then any others. -/
inductive Entered (caller : Stack) (function : String) (written : List Address) :
    List Frame → Prop
  | callee {frame : Frame} {below : List Frame} (called : frame.function = function)
      (begins : frame.base = caller.next)
      (kept : List.Forall₂ (Frame.AlikeBut (· ∈ written)) caller.frames below) :
      Entered caller function written (frame :: below)
  | above {frame : Frame} {frames : List Frame} (rest : Entered caller function written frames) :
      Entered caller function written (frame :: frames)

namespace Entered

variable {caller : Stack} {function : String} {written : List Address} {frame other : Frame}
  {frames : List Frame}

theorem depth_lt (entered : Entered caller function written frames) :
    caller.depth < frames.length := by
  induction entered with
  | callee _ _ kept =>
    rw [List.length_cons, ← kept.length_eq]
    exact Nat.lt_succ_self _
  | above _ ih => exact Nat.lt_succ_of_lt ih

/-- When no other function is running inside the call, the innermost frame is its own. -/
theorem callee_of_depth (entered : Entered caller function written frames)
    (balanced : frames.length = caller.depth + 1) :
    ∃ frame below, frames = frame :: below ∧ frame.function = function ∧
      frame.base = caller.next ∧
      List.Forall₂ (Frame.AlikeBut (· ∈ written)) caller.frames below := by
  cases entered with
  | callee called begins kept => exact ⟨_, _, rfl, called, begins, kept⟩
  | above rest => exact absurd (Nat.succ.inj balanced) (Nat.ne_of_gt rest.depth_lt)

/-- Whatever is done to the innermost frame is done inside the call. -/
theorem replace (entered : Entered caller function written (frame :: frames))
    (called : other.function = frame.function) (begins : other.base = frame.base) :
    Entered caller function written (other :: frames) := by
  cases entered with
  | callee called' begins' kept => exact .callee (called.trans called') (begins.trans begins') kept
  | above rest => exact .above rest

theorem pop (entered : Entered caller function written (frame :: frames))
    (deep : caller.depth < frames.length) : Entered caller function written frames := by
  cases entered with
  | callee _ _ kept => exact absurd kept.length_eq (Nat.ne_of_lt deep)
  | above rest => exact rest

/-- A store is written down, so the frames of the caller are still alike but for what was
written. -/
theorem setAt {address : Address} (entered : Entered caller function written frames)
    (hit : address ∈ written) (value : Value) :
    Entered caller function written (frames.map fun frame => frame.setAt address value) := by
  induction entered with
  | callee called begins kept =>
    refine .callee called begins ?_
    apply List.forall₂_map_right_iff.2
    exact kept.imp fun _ _ alike => alike.setAt hit value
  | above _ ih => exact .above ih

/-- Whatever is done to the stack short of leaving the call, one is still inside it. -/
theorem change {stack after : Stack} {event : Stack.Event}
    (entered : Entered caller function written stack.frames) (changed : stack.Change event after)
    (deep : event = .popped → caller.depth < after.depth)
    (hit : ∀ address, event = .wrote address → address ∈ written) :
    Entered caller function written after.frames := by
  cases changed with
  | push => exact .above entered
  | pop top =>
    -- The only change by which the call could be left.
    rw [top] at entered
    exact entered.pop (deep rfl)
  | declare top _ _ | assign _ top _ | remove top =>
    rw [top] at entered
    exact entered.replace rfl rfl
  | write _ => exact entered.setAt (hit _ rfl) _

/-- The innermost frame begins at the caller's next slot or beyond it. -/
theorem next_le_base {next : Address} (entered : Entered caller function written (frame :: frames))
    (stacked : Stacked (frame :: frames) next) : caller.next ≤ frame.base := by
  induction frames generalizing frame next with
  | nil =>
    cases entered with
    | callee _ begins _ => exact Nat.le_of_eq begins.symm
    | above rest => cases rest
  | cons second outer ih =>
    cases entered with
    | callee _ begins _ => exact Nat.le_of_eq begins.symm
    | above rest => exact Nat.le_trans (ih rest stacked.2) stacked.2.1.base_le

/-- A slot that is given inside a call is none of the caller's, and none beyond the stack. -/
theorem bounds_of_declare {stack after : Stack} {name : String} {value : Value} {address : Address}
    (entered : Entered caller function written stack.frames) (laid : stack.Laid)
    (declared : stack.declare name value = .ok (address, after)) :
    caller.next ≤ address ∧ address < globalStart := by
  obtain ⟨frame, frames, top, _, hslot⟩ := Stack.declare_cases declared
  have hstacked := laid.stacked
  rw [top] at entered hstacked
  have hbase := entered.next_le_base hstacked
  rcases hslot with ⟨rfl, hroom⟩ | ⟨var, found, rfl⟩
  · exact ⟨Nat.le_trans hbase hstacked.1.base_le, lt_of_add_wordSize_le hroom⟩
  · have hmem := Frame.address_mem_slots found
    have hhigh := Nat.le_trans (hstacked.1.high hmem) laid.below
    exact ⟨Nat.le_trans hbase (hstacked.1.low hmem), lt_of_add_wordSize_le hhigh⟩

/-- A row of declarations inside a call takes slots behind those of the caller. -/
theorem bounds_of_rowSlots {stack : Stack} {stem : String} {index count : Nat} {address : Address}
    (entered : Entered caller function written stack.frames) (laid : stack.Laid)
    (given : address ∈ Stack.rowSlots stem index count stack) :
    caller.next ≤ address ∧ address < globalStart := by
  induction count generalizing stack index with
  | zero => cases given
  | succ count ih =>
    unfold Stack.rowSlots at given
    split at given
    · next declared =>
      obtain ⟨_, _, _, changed, _⟩ := Stack.declare_cases declared
      rcases List.mem_cons.1 given with rfl | later
      · exact entered.bounds_of_declare laid declared
      · exact ih (entered.change changed nofun nofun) (laid.change changed) later
    · cases given

end Entered

/-! ## Commands inside a call -/

section Run

variable {caller : Stack} {function : String} {written : List Address} {memory : Memory}
  {command : Command} {address : Address}

/-- A command stores at no other addresses than those it is known to write. -/
theorem mem_writtenBy {answer : Answer} {after : Memory}
    (performed : memory.perform command = .ok (answer, after))
    (cause : command.Causes (.wrote address)) : address ∈ memory.writtenBy command := by
  cases command with
  | writeInt other value =>
    cases cause
    obtain ⟨changed, wrote, _⟩ := except_bind_ok.1 performed
    simp [writtenBy, wrote]
  | declareMany stem count =>
    obtain ⟨name, hname⟩ := cause
    cases hname
  | _ => cases cause

/-- A command that does not leave the call stays inside it. -/
theorem Entered.step (entered : Entered caller function written memory.stack.frames)
    (deep : caller.depth < (memory.step command).stack.depth)
    (hit : ∀ address ∈ memory.writtenBy command, address ∈ written) :
    Entered caller function written (memory.step command).stack.frames := by
  unfold Memory.step at deep ⊢
  split at deep
  · next performed =>
    cases change_of_perform performed with
    | stack cause changed =>
      refine entered.change changed (fun _ => deep) ?_
      rintro address rfl
      exact hit address (mem_writtenBy performed cause)
    | row _ =>
      refine Stack.declareFrom_induction
        (motive := fun stack => Entered caller function written stack.frames) ?_ _ _ _ _ entered
      intro stack after name entered changed
      exact entered.change changed nofun nofun
    | _ => exact entered
  · exact entered

/-- What is declared inside a call lies behind the slots of the caller. -/
theorem Entered.bounds_of_givenTo (entered : Entered caller function written memory.stack.frames)
    (laid : memory.stack.Laid) (given : address ∈ memory.givenTo command) :
    caller.next ≤ address ∧ address < globalStart := by
  unfold givenTo at given
  split at given
  · split at given
    · next declared =>
      rw [List.mem_singleton] at given
      subst given
      exact entered.bounds_of_declare laid declared
    · cases given
  · exact entered.bounds_of_rowSlots laid given
  · cases given

/-- Commands that never leave the call stay inside it, and what they are given is beyond the slots
of the caller. -/
theorem Entered.run {commands : List Command}
    (entered : Entered caller function written memory.stack.frames) (laid : memory.stack.Laid)
    (inside : ∀ made, made <+: commands → caller.depth < (memory.after made).stack.depth)
    (hit : ∀ address ∈ collect writtenBy memory commands, address ∈ written) :
    Entered caller function written (memory.after commands).stack.frames ∧
      ∀ address ∈ collect givenTo memory commands,
        caller.next ≤ address ∧ address < globalStart := by
  induction commands generalizing memory with
  | nil => exact ⟨entered, nofun⟩
  | cons command rest ih =>
    -- `written` stands for the whole run from its start, so no step has to enlarge it.
    simp only [collect, List.mem_append] at hit ⊢
    have hdeep : caller.depth < (memory.step command).stack.depth :=
      inside [command] ⟨rest, rfl⟩
    have hentered := entered.step hdeep fun address hmem => hit address (.inl hmem)
    have hlaid := laid_of_change laid (change_step memory command)
    have hinside : ∀ made, made <+: rest →
        caller.depth < ((memory.step command).after made).stack.depth := by
      intro made hmade
      exact inside (command :: made) (List.cons_prefix_cons.2 ⟨rfl, hmade⟩)
    obtain ⟨hrest, hgiven⟩ := ih hentered hlaid hinside fun address hmem =>
      hit address (.inr hmem)
    refine ⟨hrest, ?_⟩
    rintro address (hhere | hlater)
    · exact entered.bounds_of_givenTo laid hhere
    · exact hgiven address hlater

end Run

/-- **A balanced call restores its caller.** Enter a function from any memory that can be reached and
carry out commands, refused ones included, that never leave the function and end in its own frame.
Leaving it then gives back the frame of that function, which began at the caller's next slot, and a
stack with the depth and the next slot of the caller, and with its frames: functions, bases, orders
of declaration, names and slots are the same, and so are the values but for those in slots to which
an integer was stored by address. If none of the caller's slots was, the stack is the caller's. No
local is left at or beyond the popped base, and where a slot was given during the call there is
nothing to be read. -/
theorem balanced_call_restores_its_caller (limit : Nat) (before commands : List Command)
    (function : String) :
    let caller := (Memory.empty limit).after before
    let entered := caller.step (.push function)
    let last := entered.after commands
    let written := collect writtenBy entered commands
    (∀ made, made <+: commands → caller.stack.depth < (entered.after made).stack.depth) →
      last.stack.depth = caller.stack.depth + 1 →
      ∃ frame stack, last.perform .pop = .ok (.frame (some frame), { last with stack }) ∧
        frame.function = function ∧ frame.base = caller.stack.next ∧
        stack.depth = caller.stack.depth ∧ stack.next = caller.stack.next ∧
        List.Forall₂ (Frame.AlikeBut (· ∈ written)) caller.stack.frames stack.frames ∧
        ((∀ var ∈ caller.stack.locals, var.address ∉ written) → stack = caller.stack) ∧
        (∀ var ∈ stack.locals, var.address < frame.base) ∧
        ∀ address ∈ collect givenTo entered commands,
          stack.at? address = none ∧
            { last with stack }.readInt address = .error (.invalidAddress address) := by
  intro caller entered last written inside balanced
  have hlaid : entered.stack.Laid := by
    have hcaller : caller.stack.Laid := laid_after limit before
    exact hcaller.change .push
  have hentered : Entered caller.stack function written entered.stack.frames := by
    refine .callee rfl rfl ?_
    exact List.forall₂_same.2 fun frame _ => .refl _ frame
  obtain ⟨hlast, hgiven⟩ := hentered.run hlaid inside fun _ hmem => hmem
  obtain ⟨frame, below, hframes, hcalled, hbegins, hkept⟩ := hlast.callee_of_depth balanced
  have hlaidLast : last.stack.Laid :=
    after_induction (motive := fun memory => memory.stack.Laid) hlaid laid_of_change commands
  have hlaidBelow : Stack.Laid { frames := below, next := frame.base } :=
    hlaidLast.change (.pop hframes)
  have hpop : last.stack.pop? = some (frame, { frames := below, next := frame.base }) := by
    unfold Stack.pop?
    rw [hframes]
  refine ⟨frame, { frames := below, next := frame.base }, ?_, hcalled, hbegins,
    hkept.length_eq.symm, hbegins, hkept, ?_, fun _ => hlaidBelow.lt_next, ?_⟩
  · simp only [perform, hpop]
  · intro unwritten
    have hsame : below = caller.stack.frames := by
      apply eq_of_forall₂ hkept
      intro kept hmem other alike
      apply alike.eq_of_unwritten
      intro var hvar
      exact unwritten var (List.mem_flatMap.2 ⟨kept, hmem, hvar⟩)
    rw [hsame, hbegins]
  · intro address hmem
    obtain ⟨hnext, hglobal⟩ := hgiven address hmem
    have hnone := hlaidBelow.at?_eq_none (Nat.le_trans (Nat.le_of_eq hbegins) hnext)
    refine ⟨hnone, ?_⟩
    simp only [readInt, Region.of_eq_stack_iff.2 hglobal, hnone]

/-- A call that hides the caller's local, writes to its own slot and calls another function leaves
the caller's stack behind. -/
theorem hiding_call_restores_its_caller :
    let caller := (Memory.empty 8).after [.push "main", .declare "x" (.int 1)]
    let commands : List Command := [.declare "x" (.int 7), .push "inner",
      .declare "y" .uninitialized, .writeInt 8 9, .pop, .removeLocal "x", .allocate 4]
    let last := (caller.step (.push "f")).after commands
    (∀ made, made <+: commands →
        caller.stack.depth < ((caller.step (.push "f")).after made).stack.depth) ∧
      last.stack.depth = caller.stack.depth + 1 ∧
      ∃ frame, last.perform .pop = .ok (.frame (some frame), { last with stack := caller.stack }) ∧
        frame.function = "f" ∧ frame.base = 8 ∧
        { last with stack := caller.stack }.readInt 12 = .error (.invalidAddress 12) := by
  intro caller commands last
  have hinside : ∀ made, made <+: commands →
      caller.stack.depth < ((caller.step (.push "f")).after made).stack.depth := by
    intro made hmade
    have hall : ∀ made ∈ commands.inits,
        caller.stack.depth < ((caller.step (.push "f")).after made).stack.depth := by decide
    exact hall made ((List.mem_inits made commands).2 hmade)
  have hbalanced : last.stack.depth = caller.stack.depth + 1 := rfl
  obtain ⟨frame, stack, hpop, hfunction, hbase, _, _, _, hsame, _, hgiven⟩ :=
    balanced_call_restores_its_caller 8 [.push "main", .declare "x" (.int 1)] commands "f" hinside
      hbalanced
  have hstack : stack = caller.stack := hsame (by decide)
  subst hstack
  exact ⟨hinside, hbalanced, frame, hpop, hfunction, hbase, (hgiven 12 (by decide)).2⟩

end Primer.Memory
