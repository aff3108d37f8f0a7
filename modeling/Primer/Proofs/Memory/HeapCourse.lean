import Primer.Memory.Heap

/-!
# The course of a heap

An `Action` is asked of a heap and an `Event` is what came of it; a `Course` is a heap with all
events that led to it from the empty heap. What is refused leaves no event and changes nothing.
`Change` says what an event can do to a heap: statements about all courses are proved by cases on it
(`Course.induction`).
-/

namespace Primer.Memory

/-- What can be asked of a heap. -/
inductive Action where
  | allocate (size : Nat)
  | free (base : Address)
  | write (address : Address) (bytes : List UInt8)
  | writeBlock (base : Address) (offset : Nat) (bytes : List UInt8)
deriving Repr, DecidableEq

/-- What has happened to a heap. -/
inductive Event where
  | allocated (base size : Nat)
  | freed (base : Nat)
  | wrote (address : Nat) (bytes : List UInt8)
deriving Repr, DecidableEq

/-- Do what is asked: what happened, and the heap after it. -/
def Heap.act (heap : Heap) : Action → Except Fault (Event × Heap)
  | .allocate size => do
    let (base, after) ← heap.allocate size
    return (.allocated base size, after)
  | .free base => do return (.freed base, ← heap.free base)
  | .write address bytes => do return (.wrote address bytes, ← heap.write address bytes)
  | .writeBlock base offset bytes => do
    return (.wrote (base + offset) bytes, ← heap.writeBlock base offset bytes)

/-- A heap and what has happened to it, the last event first. -/
structure Course where
  events : List Event := []
  heap : Heap

namespace Course

/-- Ask one thing more. -/
def step (course : Course) (action : Action) : Course :=
  match course.heap.act action with
  | .ok (event, heap) => ⟨event :: course.events, heap⟩
  | .error _ => course

/-- The course of an empty heap of which all this is asked. -/
def of (limit : Nat) (actions : List Action) : Course :=
  actions.foldl step { heap := .empty limit }

end Course

/-- What an event does to a heap. -/
inductive Heap.Change (heap : Heap) : Event → Heap → Prop
  | allocate {size : Nat} (positive : 0 < size) (fits : heap.liveBytes + size ≤ heap.limit)
      (small : size ≤ blockCapacity) :
      Change heap (.allocated heap.next size) { heap with
        next := heap.next + size
        liveBytes := heap.liveBytes + size
        totalBytes := heap.totalBytes + size
        blocks := heap.blocks ++ [(heap.next, Block.fresh size)] }
  | free {base : Nat} {block : Block} (found : heap.block? base = some block)
      (live : block.released = false) :
      Change heap (.freed base) { heap.setBlock base { block with released := true } with
        liveBytes := heap.liveBytes - block.size }
  | write {base offset : Nat} {block : Block} {bytes : List UInt8}
      (found : heap.block? base = some block) (live : block.released = false)
      (fits : offset + bytes.length ≤ block.size) :
      Change heap (.wrote (base + offset) bytes)
        (heap.setBlock base { block with cells := writeCells block.cells offset bytes })

theorem except_bind_ok {α β ε : Type} {first : Except ε α} {next : α → Except ε β} {result : β} :
    first >>= next = .ok result ↔ ∃ value, first = .ok value ∧ next value = .ok result := by
  cases first <;> simp [bind, Except.bind]

theorem Heap.act_of_write {heap after : Heap} {address : Address} {bytes : List UInt8}
    (wrote : heap.write address bytes = .ok after) :
    heap.act (.write address bytes) = .ok (.wrote address bytes, after) :=
  except_bind_ok.2 ⟨after, wrote, rfl⟩

theorem Heap.liveBlock_eq_ok_iff {heap : Heap} {base : Address} {block : Block} :
    heap.liveBlock base = .ok block ↔ heap.block? base = some block ∧ block.released = false := by
  unfold Heap.liveBlock
  constructor
  · intro looked
    split at looked
    · cases looked
    · next found =>
      split at looked
      · cases looked
      · next live =>
        cases looked
        exact ⟨found, Bool.eq_false_iff.2 live⟩
  · rintro ⟨found, live⟩
    simp [found, live]

/-- A write into a block is a change of the heap at the address where it begins. -/
theorem Heap.change_of_writeBlock {heap after : Heap} {base : Address} {offset : Nat}
    {bytes : List UInt8} (wrote : heap.writeBlock base offset bytes = .ok after) :
    heap.Change (.wrote (base + offset) bytes) after := by
  obtain ⟨block, found, wrote⟩ := except_bind_ok.1 wrote
  obtain ⟨written, stored, same⟩ := except_bind_ok.1 wrote
  obtain ⟨found, live⟩ := Heap.liveBlock_eq_ok_iff.1 found
  unfold Block.write at stored
  split at stored
  · next fits =>
    cases stored
    cases same
    exact .write found live fits
  · cases stored

/-- The block that is found for an address contains it. -/
theorem Heap.mem_of_locate {heap : Heap} {address base offset : Nat}
    (located : heap.locate address = .ok (base, offset)) :
    ∃ block, (base, block) ∈ heap.blocks ∧ base + offset = address ∧ offset < block.size := by
  unfold Heap.locate at located
  split at located
  · next block found =>
    cases located
    have inside := List.find?_some found
    simp only [decide_eq_true_eq] at inside
    refine ⟨block, List.mem_of_find?_eq_some found, ?_⟩
    unfold Address at *
    omega
  · cases located

/-- What is done to a heap changes it as the event says. -/
theorem Heap.change_of_act {heap after : Heap} {action : Action} {event : Event}
    (acted : heap.act action = .ok (event, after)) : heap.Change event after := by
  cases action with
  | allocate size =>
    obtain ⟨⟨base, grown⟩, allocated, same⟩ := except_bind_ok.1 acted
    cases same
    obtain ⟨_, came⟩ | ⟨_, _, came⟩ | ⟨_, _, _, came⟩ | ⟨positive, fits, small, came⟩ :=
      heap.allocate_cases size
    all_goals
      rw [came] at allocated
      cases allocated
    exact .allocate positive fits small
  | free base =>
    obtain ⟨less, freed, same⟩ := except_bind_ok.1 acted
    cases same
    unfold Heap.free at freed
    split at freed
    · cases freed
    · next block found =>
      split at freed
      · cases freed
      · next live =>
        cases freed
        exact .free found (Bool.eq_false_iff.2 live)
  | write address bytes =>
    obtain ⟨changed, wrote, same⟩ := except_bind_ok.1 acted
    cases same
    obtain ⟨⟨base, offset⟩, located, wrote⟩ := except_bind_ok.1 wrote
    obtain ⟨_, _, sum, _⟩ := Heap.mem_of_locate located
    rw [← sum]
    exact Heap.change_of_writeBlock wrote
  | writeBlock base offset bytes =>
    obtain ⟨changed, wrote, same⟩ := except_bind_ok.1 acted
    cases same
    exact Heap.change_of_writeBlock wrote

/-- What holds of the empty heap, and of a heap after an event if it held before, holds of every
course. -/
theorem Course.induction {motive : List Event → Heap → Prop} {limit : Nat}
    (start : motive [] (.empty limit))
    (change : ∀ {events heap event after}, motive events heap → heap.Change event after →
      motive (event :: events) after)
    (actions : List Action) :
    motive (Course.of limit actions).events (Course.of limit actions).heap := by
  unfold Course.of
  -- The fold goes on from its first step, so the induction is about any course to start from.
  generalize initial : ({ heap := .empty limit } : Course) = course
  have holds : motive course.events course.heap := initial ▸ start
  clear initial
  induction actions generalizing course with
  | nil => exact holds
  | cons action rest ih =>
    refine ih (course.step action) ?_
    unfold Course.step
    split
    · next event heap acted => exact change holds (Heap.change_of_act acted)
    · exact holds

end Primer.Memory
