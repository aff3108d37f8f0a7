import Primer.Memory.Command
import Primer.Proofs.Memory.HeapCourse

/-!
# What commands do to a memory

Commands are carried out one after another, and a refused one changes nothing (`Memory.after`). A
command that is not refused changes one of the three regions at most: `Change` lists what can become
of each, so that statements about all memories that can be reached are proved by cases on it
(`after_induction`). A row of declarations is the one command that changes the stack several times
(`Stack.declareFrom_induction`).
-/

namespace Primer.Memory

/-- The memory after one command, which is the same memory if the command is refused. -/
def step (memory : Memory) (command : Command) : Memory :=
  match memory.perform command with
  | .ok (_, after) => after
  | .error _ => memory

/-- The memory after commands carried out one after another. -/
def after (memory : Memory) (commands : List Command) : Memory :=
  commands.foldl step memory

/-! ## Changes of the stack -/

/-- What can happen to a stack. -/
inductive Stack.Event where
  | pushed (function : String)
  | popped
  | declared (name : String)
  | assigned (name : String)
  | removed (name : String)
  | wrote (address : Address)
deriving Repr, DecidableEq

/-- What an event does to a stack. A name that is declared again is only assigned. -/
inductive Stack.Change (stack : Stack) : Stack.Event → Stack → Prop
  | push {function : String} : Change stack (.pushed function) (stack.push function)
  | pop {frame : Frame} {frames : List Frame} (top : stack.frames = frame :: frames) :
      Change stack .popped { frames, next := frame.base }
  | declare {frame : Frame} {frames : List Frame} {name : String} {value : Value}
      (top : stack.frames = frame :: frames) (fresh : frame.locals.find? name = none)
      (room : stack.next + wordSize ≤ globalStart) :
      Change stack (.declared name) {
        frames := { frame with
          locals := frame.locals.insert name ⟨value, stack.next⟩
          order := frame.order ++ [name] } :: frames
        next := stack.next + wordSize }
  | assign {event : Stack.Event} {frame : Frame} {frames : List Frame} {name : String}
      {var : Local} {value : Value} (named : event = .declared name ∨ event = .assigned name)
      (top : stack.frames = frame :: frames) (found : frame.locals.find? name = some var) :
      Change stack event { stack with
        frames := { frame with locals := frame.locals.insert name { var with value } } :: frames }
  | remove {frame : Frame} {frames : List Frame} {name : String}
      (top : stack.frames = frame :: frames) :
      Change stack (.removed name) { stack with
        frames := { frame with locals := frame.locals.erase name } :: frames }
  | write {address : Address} {value : Value} (found : (stack.at? address).isSome) :
      Change stack (.wrote address) { stack with
        frames := stack.frames.map fun frame => frame.setAt address value }

namespace Stack

variable {stack after : Stack} {name : String} {value : Value} {address : Address}

/-- A declaration takes the next slot, or keeps the slot that the name has. -/
theorem declare_cases (declared : stack.declare name value = .ok (address, after)) :
    ∃ frame frames, stack.frames = frame :: frames ∧ stack.Change (.declared name) after ∧
      (address = stack.next ∧ stack.next + wordSize ≤ globalStart ∨
        ∃ var, frame.locals.find? name = some var ∧ address = var.address) := by
  unfold declare at declared
  split at declared
  · cases declared
  · next frame frames top =>
    refine ⟨frame, frames, top, ?_⟩
    split at declared
    · next var found =>
      cases declared
      exact ⟨.assign (.inl rfl) top found, .inr ⟨var, found, rfl⟩⟩
    · next fresh =>
      split at declared
      · cases declared
      · next room =>
        cases declared
        exact ⟨.declare top fresh (Nat.le_of_not_lt room), .inl ⟨rfl, Nat.le_of_not_lt room⟩⟩

theorem change_of_set (assigned : stack.set name value = .ok after) :
    stack.Change (.assigned name) after := by
  unfold set at assigned
  split at assigned
  · cases assigned
  · next top =>
    split at assigned
    · next found =>
      cases assigned
      exact .assign (.inr rfl) top found
    · cases assigned

theorem change_of_remove {var : Option Local} (removed : stack.remove name = .ok (var, after)) :
    stack.Change (.removed name) after := by
  unfold remove at removed
  split at removed
  · cases removed
  · next top =>
    cases removed
    exact .remove top

theorem change_of_setAt (wrote : stack.setAt address value = .ok after) :
    stack.Change (.wrote address) after := by
  unfold setAt at wrote
  split at wrote
  · next found =>
    cases wrote
    exact .write found
  · cases wrote

/-- What every declaration keeps, a row of them keeps. -/
theorem declareFrom_induction {motive : Stack → Prop}
    (declare : ∀ {stack after name}, motive stack → stack.Change (.declared name) after →
      motive after)
    (stem : String) (index count : Nat) (declared : Declared) (holds : motive stack) :
    motive (stack.declareFrom stem index count declared).2 := by
  induction count generalizing stack index declared with
  | zero => exact holds
  | succ count ih =>
    unfold declareFrom
    split
    · next hdeclared =>
      obtain ⟨_, _, _, changed, _⟩ := declare_cases hdeclared
      exact ih (index + 1) _ (declare holds changed)
    · exact holds

end Stack

/-- The events that a command can bring about in the stack. -/
def Command.Causes : Command → Stack.Event → Prop
  | .push function, event => event = .pushed function
  | .pop, event => event = .popped
  | .declare name _, event => event = .declared name
  | .declareMany _ _, event => ∃ name, event = .declared name
  | .setVar name _, event => event = .assigned name
  | .removeLocal name, event => event = .removed name
  | .writeInt address _, event => event = .wrote address
  | _, _ => False

/-! ## Changes of a memory -/

/-- What can become of the globals. -/
inductive Globals.Change (globals : Globals) : Globals → Prop
  | define {name : String} {value : Value} (fresh : globals.find? name = none)
      (room : globals.next + wordSize ≤ heapStart) :
      Change globals ⟨globals.vars ++ [⟨name, value, globals.next⟩]⟩
  | assign {which : Global → Bool} {value : Value} :
      Change globals (globals.assign which value)

/-- What can become of a memory by a command that is not refused. -/
inductive Change (memory : Memory) (command : Command) : Memory → Prop
  | none : Change memory command memory
  | globals {globals : Globals} (changed : memory.globals.Change globals) :
      Change memory command { memory with globals }
  | stack {event : Stack.Event} {stack : Stack} (cause : command.Causes event)
      (changed : memory.stack.Change event stack) : Change memory command { memory with stack }
  | row {stem : String} {count : Nat} (isRow : command = .declareMany stem count) :
      Change memory command
        { memory with stack := (memory.stack.declareFrom stem 0 count {}).2 }
  | heap {action : Action} {event : Event} {heap : Heap}
      (acted : memory.heap.act action = .ok (event, heap)) :
      Change memory command { memory with heap }

/-- Defining a global is a change of the globals: a new slot comes behind the others, if it fits. -/
theorem Globals.change_of_define {globals after : Globals} {name : String} {value : Value}
    {address : Address} (defined : globals.define name value = .ok (address, after)) :
    globals.Change after := by
  unfold define at defined
  split at defined
  · cases defined
  · next unknown =>
    split at defined
    · cases defined
    · next room =>
      cases defined
      exact .define (by simpa using unknown) (Nat.le_of_not_lt room)

theorem Globals.change_of_set {globals after : Globals} {name : String} {value : Value}
    (assigned : globals.set name value = .ok after) : globals.Change after := by
  unfold set at assigned
  split at assigned
  · cases assigned
    exact .assign
  · cases assigned

theorem Globals.change_of_setAt {globals after : Globals} {address : Address} {value : Value}
    (wrote : globals.setAt address value = .ok after) : globals.Change after := by
  unfold setAt at wrote
  split at wrote
  · cases wrote
    exact .assign
  · cases wrote

section Perform

variable {memory after : Memory} {command : Command} {answer : Answer}

/-- An integer is stored by the region that its address belongs to. -/
theorem writeInt_eq_ok_iff {address : Address} {value : Int32} :
    memory.writeInt address value = .ok after ↔
      (address < globalStart ∧ ∃ stack, memory.stack.setAt address (.int value) = .ok stack ∧
        { memory with stack } = after) ∨
      ((globalStart ≤ address ∧ address < heapStart) ∧
        ∃ globals, memory.globals.setAt address (.int value) = .ok globals ∧
          { memory with globals } = after) ∨
      (heapStart ≤ address ∧ ∃ heap, memory.heap.write address (intToBytes value) = .ok heap ∧
        { memory with heap } = after) := by
  unfold writeInt
  rw [← Region.of_eq_stack_iff, ← Region.of_eq_global_iff, ← Region.of_eq_heap_iff]
  cases Region.of address <;> simp [except_bind_ok, pure, Except.pure]

theorem change_of_writeInt {address : Address} {value : Int32}
    (wrote : memory.writeInt address value = .ok after) :
    memory.Change (.writeInt address value) after := by
  rcases writeInt_eq_ok_iff.1 wrote with
    ⟨_, stack, written, rfl⟩ | ⟨_, globals, written, rfl⟩ | ⟨_, heap, written, rfl⟩
  · exact .stack rfl (Stack.change_of_setAt written)
  · exact .globals (Globals.change_of_setAt written)
  · exact .heap (Heap.act_of_write written)

/-- A command that is not refused changes one region at most, and as `Change` says. -/
theorem change_of_perform (performed : memory.perform command = .ok (answer, after)) :
    memory.Change command after := by
  cases command with
  | define name value =>
    obtain ⟨⟨address, globals⟩, defined, same⟩ := except_bind_ok.1 performed
    cases same
    exact .globals (Globals.change_of_define defined)
  | setGlobal name value =>
    obtain ⟨globals, assigned, same⟩ := except_bind_ok.1 performed
    cases same
    exact .globals (Globals.change_of_set assigned)
  | push function =>
    cases performed
    exact .stack rfl .push
  | pop =>
    simp only [perform] at performed
    split at performed
    · next frame stack popped =>
      cases performed
      unfold Stack.pop? at popped
      split at popped
      · cases popped
      · next top =>
        cases popped
        exact .stack rfl (.pop top)
    · -- An empty stack refuses nothing: it answers that there was no frame.
      cases performed
      exact .none
  | declare name value =>
    obtain ⟨⟨address, stack⟩, declared, same⟩ := except_bind_ok.1 performed
    cases same
    obtain ⟨_, _, _, changed, _⟩ := Stack.declare_cases declared
    exact .stack rfl changed
  | declareMany stem count =>
    cases performed
    exact .row rfl
  | setVar name value =>
    obtain ⟨stack, assigned, same⟩ := except_bind_ok.1 performed
    cases same
    exact .stack rfl (Stack.change_of_set assigned)
  | removeLocal name =>
    obtain ⟨⟨var, stack⟩, removed, same⟩ := except_bind_ok.1 performed
    cases same
    exact .stack rfl (Stack.change_of_remove removed)
  | allocate size =>
    obtain ⟨⟨base, heap⟩, allocated, same⟩ := except_bind_ok.1 performed
    cases same
    have hacted : memory.heap.act (.allocate size) = .ok (.allocated base size, heap) :=
      except_bind_ok.2 ⟨(base, heap), allocated, rfl⟩
    exact .heap hacted
  | free base =>
    obtain ⟨heap, freed, same⟩ := except_bind_ok.1 performed
    cases same
    have hacted : memory.heap.act (.free base) = .ok (.freed base, heap) :=
      except_bind_ok.2 ⟨heap, freed, rfl⟩
    exact .heap hacted
  | write address bytes =>
    obtain ⟨heap, wrote, same⟩ := except_bind_ok.1 performed
    cases same
    exact .heap (Heap.act_of_write wrote)
  | blockWrite base offset bytes =>
    obtain ⟨heap, wrote, same⟩ := except_bind_ok.1 performed
    cases same
    have hacted : memory.heap.act (.writeBlock base offset bytes) =
        .ok (.wrote (base + offset) bytes, heap) := except_bind_ok.2 ⟨heap, wrote, rfl⟩
    exact .heap hacted
  | writeInt address value =>
    obtain ⟨changed, wrote, same⟩ := except_bind_ok.1 performed
    cases same
    exact change_of_writeInt wrote
  | getVar name | read address length | block address | readInt address
  | blockInitialized address offset length =>
    obtain ⟨_, _, same⟩ := except_bind_ok.1 performed
    cases same
    exact .none
  | getGlobal name | globalAt address | stackAt address | currentFrame | liveBlocks
  | region address | dump =>
    cases performed
    exact .none

/-- Every command, also one that is refused, changes a memory only in one of the known ways. -/
theorem change_step (memory : Memory) (command : Command) :
    memory.Change command (memory.step command) := by
  unfold step
  split
  · next performed => exact change_of_perform performed
  · exact .none

end Perform

/-- What holds of a memory, and of every memory after a change if it held before, holds after all
commands. -/
theorem after_induction {motive : Memory → Prop} {memory : Memory} (start : motive memory)
    (change : ∀ {memory command after}, motive memory → memory.Change command after →
      motive after)
    (commands : List Command) : motive (memory.after commands) := by
  induction commands generalizing memory with
  | nil => exact start
  | cons command rest ih => exact ih (change start (change_step memory command))

theorem Course.of_concat (limit : Nat) (actions : List Action) (action : Action) :
    Course.of limit (actions ++ [action]) = (Course.of limit actions).step action :=
  List.foldl_append

/-- The heap of a memory that can be reached has a course of its own. -/
theorem exists_course (limit : Nat) (commands : List Command) :
    ∃ actions, (Course.of limit actions).heap = ((Memory.empty limit).after commands).heap := by
  refine after_induction (motive := fun memory =>
    ∃ actions, (Course.of limit actions).heap = memory.heap) ⟨[], rfl⟩ ?_ commands
  rintro memory command after ⟨actions, hcourse⟩ changed
  cases changed with
  | @heap action event heap acted =>
    refine ⟨actions ++ [action], ?_⟩
    rw [Course.of_concat, Course.step, hcourse, acted]
  | _ => exact ⟨actions, hcourse⟩

end Primer.Memory
