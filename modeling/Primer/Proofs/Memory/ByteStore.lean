import Primer.Proofs.Memory.HeapLayout

/-!
# The heap as a byte store

What reads and writes of a heap answer follows from what has happened to it, without its blocks.
`byteAt` is the byte that the events have left at an address, `Admitted` says that a range lies in a
block that was handed out and not released, and `Refused` which fault answers a range that does not.
A heap `Reflects` its events: each block is one that was handed out, is released if that has
happened, and holds in each cell what the events have left there. Every course keeps this
(`Course.reflects`), and reads and writes are then settled by the events alone
(`heap_refines_byte_store`).
-/

namespace Primer.Memory

/-- The byte written last at an address since the address was handed out, if there is one. The last
event comes first. -/
def byteAt : List Event → Nat → Option UInt8
  | [], _ => none
  | .allocated base size :: older, address =>
    if base ≤ address ∧ address < base + size then none else byteAt older address
  | .freed _ :: older, address => byteAt older address
  | .wrote start bytes :: older, address =>
    if start ≤ address ∧ address < start + bytes.length then bytes[address - start]?
    else byteAt older address

section ByteAt

variable {events : List Event} {start size address : Nat} {bytes : List UInt8}

theorem byteAt_allocated_of_outside (outside : address < start ∨ start + size ≤ address) :
    byteAt (.allocated start size :: events) address = byteAt events address := by
  rw [byteAt, if_neg (by omega)]

theorem byteAt_allocated_of_inside (low : start ≤ address) (high : address < start + size) :
    byteAt (.allocated start size :: events) address = none := by
  rw [byteAt, if_pos ⟨low, high⟩]

theorem byteAt_wrote_of_outside (outside : address < start ∨ start + bytes.length ≤ address) :
    byteAt (.wrote start bytes :: events) address = byteAt events address := by
  rw [byteAt, if_neg (by omega)]

theorem byteAt_wrote_of_inside (low : start ≤ address) (high : address < start + bytes.length) :
    byteAt (.wrote start bytes :: events) address = bytes[address - start]? := by
  rw [byteAt, if_pos ⟨low, high⟩]

end ByteAt

/-- A block of this size was handed out at `base` and contains the address. -/
def Owns (events : List Event) (base size address : Nat) : Prop :=
  .allocated base size ∈ events ∧ base ≤ address ∧ address < base + size

/-- A range begins in a block that was handed out and not released, and ends there too. -/
def Admitted (events : List Event) (address length : Nat) : Prop :=
  ∃ base size, Owns events base size address ∧ .freed base ∉ events ∧
    address + length ≤ base + size

/-- How an access to a range is refused, whatever is stored there. -/
inductive Refused (events : List Event) (address length : Nat) : Fault → Prop
  /-- No block was ever handed out that contains the address. -/
  | nowhere (unowned : ∀ base size, ¬ Owns events base size address) :
      Refused events address length (.invalidAddress address)
  /-- The block that contains the address was released. -/
  | released {base size : Nat} (owns : Owns events base size address)
      (freed : .freed base ∈ events) : Refused events address length (.useAfterFree base)
  /-- The range leaves the block, even if it goes on in the next one. -/
  | overrun {base size : Nat} (owns : Owns events base size address) (live : .freed base ∉ events)
      (leaves : base + size < address + length) :
      Refused events address length (.bufferOverrun (address - base) length size)

theorem refused_or_admitted (events : List Event) (address length : Nat) :
    (∃ fault, Refused events address length fault) ∨ Admitted events address length := by
  by_cases owned : ∃ base size, Owns events base size address
  · obtain ⟨base, size, owns⟩ := owned
    by_cases freed : .freed base ∈ events
    · exact .inl ⟨_, .released owns freed⟩
    · by_cases fits : address + length ≤ base + size
      · exact .inr ⟨base, size, owns, freed, fits⟩
      · exact .inl ⟨_, .overrun owns freed (Nat.lt_of_not_le fits)⟩
  · exact .inl ⟨_, .nowhere fun base size owns => owned ⟨base, size, owns⟩⟩

/-- The blocks of a heap are what the events have made of them. -/
structure Reflects (events : List Event) (heap : Heap) : Prop where
  tiled : heap.Tiled
  known : ∀ {base size : Nat}, .allocated base size ∈ events ↔
    ∃ block, (base, block) ∈ heap.blocks ∧ block.size = size
  released : ∀ {base : Nat} {block : Block}, (base, block) ∈ heap.blocks →
    (block.released = true ↔ .freed base ∈ events)
  freed : ∀ {base : Nat}, .freed base ∈ events → base < heap.next
  cells : ∀ {base index : Nat} {block : Block}, (base, block) ∈ heap.blocks →
    index < block.size → block.cells[index]? = some (byteAt events (base + index))

namespace Reflects

variable {events : List Event} {heap : Heap} {base size : Nat} {block : Block}

theorem empty (limit : Nat) : Reflects [] (.empty limit) where
  tiled := rfl
  known := by simp [Heap.empty]
  released mem := by cases mem
  freed mem := by cases mem
  cells mem := by cases mem

/-- A new block begins behind all others, so what the events tell about those stays true. -/
theorem change_allocated {after : Heap} (reflects : Reflects events heap)
    (changed : heap.Change (.allocated base size) after) :
    Reflects (.allocated base size :: events) after := by
  have tiled := reflects.tiled.change changed
  cases changed with
  | allocate positive fits =>
    refine ⟨tiled, ?_, ?_, ?_, ?_⟩
    · intro base size'
      simp only [List.mem_cons, Event.allocated.injEq, List.mem_append, List.mem_nil_iff, or_false,
        Prod.mk.injEq, reflects.known]
      constructor
      · rintro (⟨rfl, rfl⟩ | ⟨block, mem, same⟩)
        · exact ⟨_, .inr ⟨rfl, rfl⟩, Block.size_fresh size'⟩
        · exact ⟨block, .inl mem, same⟩
      · rintro ⟨block, mem | ⟨rfl, rfl⟩, same⟩
        · exact .inr ⟨block, mem, same⟩
        · rw [Block.size_fresh] at same
          exact .inl ⟨rfl, same.symm⟩
    · intro base block mem
      simp only [List.mem_cons, reduceCtorEq, false_or]
      rcases List.mem_append.1 mem with old | new
      · exact reflects.released old
      · rw [List.mem_singleton] at new
        cases new
        -- A base is freed only after it was handed out, and this one is handed out now.
        have unfreed : .freed heap.next ∉ events :=
          fun freed => Nat.lt_irrefl _ (reflects.freed freed)
        simp [Block.fresh, unfreed]
    · intro base mem
      simp only [List.mem_cons, reduceCtorEq, false_or] at mem
      exact Nat.lt_add_right size (reflects.freed mem)
    · intro base index block mem inside
      rcases List.mem_append.1 mem with old | new
      · have below : base + block.size ≤ heap.next := (Tiles.bounds reflects.tiled old).2.2
        rw [byteAt_allocated_of_outside (.inl (by omega))]
        exact reflects.cells old inside
      · rw [List.mem_singleton] at new
        cases new
        rw [Block.size_fresh] at inside
        rw [byteAt_allocated_of_inside (by omega) (by omega)]
        simp [Block.fresh, inside]

/-- The blocks handed out are still there after one is replaced by one of its size. -/
theorem known_setBlock {block' : Block} (reflects : Reflects events heap)
    (here : (base, block) ∈ heap.blocks) (same : block'.size = block.size) {other size : Nat} :
    .allocated other size ∈ events ↔
      ∃ found, (other, found) ∈ (heap.setBlock base block').blocks ∧ found.size = size := by
  have unique {old : Block} (mem : (base, old) ∈ heap.blocks) : old = block :=
    Tiles.eq_of_base reflects.tiled mem here
  rw [reflects.known, Heap.exists_mem_setBlock_iff here unique same]

theorem change_freed {after : Heap} (reflects : Reflects events heap)
    (changed : heap.Change (.freed base) after) : Reflects (.freed base :: events) after := by
  have tiled := reflects.tiled.change changed
  cases changed with
  | @free _ block found live =>
    have here := Heap.mem_of_blockAt found
    refine ⟨tiled, ?_, ?_, ?_, ?_⟩
    · intro other size
      simp only [List.mem_cons, reduceCtorEq, false_or]
      refine reflects.known_setBlock here ?_
      rfl
    · intro other block' mem
      simp only [List.mem_cons, Event.freed.injEq]
      rcases Heap.mem_setBlock.1 mem with ⟨rfl, rfl, _⟩ | ⟨away, old⟩
      · simp
      · simp only [away, false_or]
        exact reflects.released old
    · intro other mem
      simp only [List.mem_cons, Event.freed.injEq] at mem
      rcases mem with rfl | old
      · obtain ⟨_, positive, below⟩ := Tiles.bounds reflects.tiled here
        show other < heap.next
        omega
      · exact reflects.freed old
    · intro other index block' mem inside
      rw [byteAt]
      rcases Heap.mem_setBlock.1 mem with ⟨rfl, rfl, _⟩ | ⟨away, old⟩
      · show block.cells[index]? = _
        exact reflects.cells here inside
      · exact reflects.cells old inside

/-- A write changes the bytes of its range in its block, and no other byte of the heap. -/
theorem change_wrote {after : Heap} {start : Nat} {bytes : List UInt8}
    (reflects : Reflects events heap) (changed : heap.Change (.wrote start bytes) after) :
    Reflects (.wrote start bytes :: events) after := by
  have tiled := reflects.tiled.change changed
  cases changed with
  | @write base offset block _ found live fits =>
    have here := Heap.mem_of_blockAt found
    refine ⟨tiled, ?_, ?_, ?_, ?_⟩
    · intro other size
      simp only [List.mem_cons, reduceCtorEq, false_or]
      refine reflects.known_setBlock here ?_
      exact size_writeCells block.cells offset bytes
    · intro other block' mem
      simp only [List.mem_cons, reduceCtorEq, false_or]
      rcases Heap.mem_setBlock.1 mem with ⟨rfl, rfl, _⟩ | ⟨away, old⟩
      · show block.released = true ↔ _
        exact reflects.released here
      · exact reflects.released old
    · intro other mem
      simp only [List.mem_cons, reduceCtorEq, false_or] at mem
      exact reflects.freed mem
    · intro other index block' mem inside
      rcases Heap.mem_setBlock.1 mem with ⟨rfl, rfl, _⟩ | ⟨away, old⟩
      · show (writeCells block.cells offset bytes)[index]? = _
        have inside : index < block.cells.size := by simpa [Block.size] using inside
        rw [getElem?_writeCells]
        by_cases hit : offset ≤ index ∧ index < offset + bytes.length
        · rw [if_pos ⟨hit.1, hit.2, inside⟩, byteAt_wrote_of_inside (by omega) (by omega)]
          congr 2
          omega
        · rw [if_neg (by omega), byteAt_wrote_of_outside (by omega)]
          exact reflects.cells here inside
      · -- The write stays inside its block, and no other block has an address in there.
        have apart : ¬ (base ≤ other + index ∧ other + index < base + block.size) := fun both =>
          away (Tiles.eq_of_inside reflects.tiled old here (Nat.le_add_right other index)
            (Nat.add_lt_add_left inside other) both.1 both.2).1
        rw [byteAt_wrote_of_outside (by omega)]
        exact reflects.cells old inside

/-- A heap after an event reflects the events with that one. -/
theorem change {event : Event} {after : Heap} (reflects : Reflects events heap)
    (changed : heap.Change event after) : Reflects (event :: events) after := by
  cases event with
  | allocated base size => exact reflects.change_allocated changed
  | freed base => exact reflects.change_freed changed
  | wrote start bytes => exact reflects.change_wrote changed

end Reflects

/-- Every course reflects its events. -/
theorem Course.reflects (limit : Nat) (actions : List Action) :
    Reflects (Course.of limit actions).events (Course.of limit actions).heap :=
  Course.induction (.empty limit) (fun reflects changed => reflects.change changed) actions

/-! ## Reads and writes -/

/-- Find the block that contains an address, which has to be in use, and go on with it. -/
def Heap.access {α : Type} (heap : Heap) (address : Address)
    (next : Address → Nat → Block → Except Fault α) : Except Fault α := do
  let (base, offset) ← heap.locate address
  let block ← heap.liveBlock base
  next base offset block

theorem Heap.read_eq_access (heap : Heap) (address : Address) (length : Nat) :
    heap.read address length = heap.access address (fun _ offset block => do
      let cells ← block.range offset length
      match cells.mapM id with
      | some bytes => return bytes
      | none => throw (.uninitializedRead address)) := rfl

theorem Heap.write_eq_access (heap : Heap) (address : Address) (bytes : List UInt8) :
    heap.write address bytes = heap.access address (fun base offset block => do
      let block ← block.write offset bytes
      return heap.setBlock base block) := rfl

theorem mapM_id_eq_some_iff {α : Type} {cells : List (Option α)} {values : List α} :
    cells.mapM id = some values ↔ cells = values.map some := by
  induction cells generalizing values with
  | nil => cases values <;> simp
  | cons cell rest ih =>
    rw [List.mapM_cons]
    constructor
    · intro mapped
      simp only [id, Option.bind_eq_bind, Option.bind_eq_some_iff, Option.pure_def,
        Option.some.injEq] at mapped
      obtain ⟨value, rfl, others, tail, rfl⟩ := mapped
      rw [ih.1 tail]
      rfl
    · intro same
      cases values with
      | nil => cases same
      | cons value others =>
        obtain ⟨rfl, tail⟩ := List.cons.inj same
        simp [ih.2 tail]

theorem mapM_id_eq_none_iff {α : Type} {cells : List (Option α)} :
    cells.mapM id = none ↔ none ∈ cells := by
  induction cells with
  | nil => simp
  | cons cell rest ih =>
    rw [List.mapM_cons]
    cases cell with
    | none => simp
    | some value =>
      simp only [List.mem_cons, reduceCtorEq, false_or, ← ih]
      cases rest.mapM id <;> simp

/-- Bytes are the contents of a range exactly if there are as many of them and each is the byte that
was left at its address. -/
theorem contents_eq_map_some_iff {events : List Event} {address length : Nat} {bytes : List UInt8} :
    ((List.range length).map fun index => byteAt events (address + index)) = bytes.map some ↔
      bytes.length = length ∧
        ∀ index, index < length → byteAt events (address + index) = bytes[index]? := by
  constructor
  · intro same
    have sameLength : bytes.length = length := by simpa using (congrArg List.length same).symm
    refine ⟨sameLength, fun index inside => ?_⟩
    have here := congrArg (·[index]?) same
    simpa [inside, sameLength] using here
  · rintro ⟨rfl, agree⟩
    refine List.ext_getElem? fun index => ?_
    by_cases inside : index < bytes.length
    · simp [inside, agree index inside]
    · simp [inside]

namespace Reflects

variable {events : List Event} {heap : Heap} {base size address length : Nat} {fault : Fault}

/-- An address in a block that was handed out is located there. -/
theorem locate_of_owns (reflects : Reflects events heap) (owns : Owns events base size address) :
    ∃ block, (base, block) ∈ heap.blocks ∧ block.size = size ∧
      heap.locate address = .ok (base, address - base) := by
  obtain ⟨handedOut, low, high⟩ := owns
  obtain ⟨block, mem, rfl⟩ := reflects.known.1 handedOut
  exact ⟨block, mem, rfl, reflects.tiled.locate_of_inside mem low high⟩

theorem locate_of_unowned (reflects : Reflects events heap)
    (unowned : ∀ base size, ¬ Owns events base size address) :
    heap.locate address = .error (.invalidAddress address) := by
  refine Heap.locate_of_outside fun mem inside => ?_
  exact unowned _ _ ⟨reflects.known.2 ⟨_, mem, rfl⟩, inside⟩

theorem liveBlock_of_freed {block : Block} (reflects : Reflects events heap)
    (mem : (base, block) ∈ heap.blocks) (freed : .freed base ∈ events) :
    heap.liveBlock base = .error (.useAfterFree base) := by
  have gone := (reflects.released mem).2 freed
  simp [Heap.liveBlock, reflects.tiled.block?_eq_some_iff.2 mem, gone]

theorem liveBlock_of_unfreed {block : Block} (reflects : Reflects events heap)
    (mem : (base, block) ∈ heap.blocks) (live : .freed base ∉ events) :
    heap.liveBlock base = .ok block := by
  refine Heap.liveBlock_eq_ok_iff.2 ⟨reflects.tiled.block?_eq_some_iff.2 mem, ?_⟩
  exact Bool.eq_false_iff.2 fun gone => live ((reflects.released mem).1 gone)

/-- What is refused by the events is refused whatever is done with the block, if that notices ranges
that leave the block. -/
theorem access_of_refused {α : Type} {next : Address → Nat → Block → Except Fault α}
    (reflects : Reflects events heap) (refused : Refused events address length fault)
    (notices : ∀ {base offset block}, block.size < offset + length →
      next base offset block = .error (.bufferOverrun offset length block.size)) :
    heap.access address next = .error fault := by
  unfold Heap.access
  cases refused with
  | nowhere unowned =>
    rw [reflects.locate_of_unowned unowned]
    rfl
  | released owns freed =>
    obtain ⟨block, mem, _, located⟩ := reflects.locate_of_owns owns
    rw [located]
    simp only [bind, Except.bind, reflects.liveBlock_of_freed mem freed]
  | @overrun base _ owns live leaves =>
    obtain ⟨block, mem, rfl, located⟩ := reflects.locate_of_owns owns
    have low := owns.2.1
    rw [located]
    simp only [bind, Except.bind, reflects.liveBlock_of_unfreed mem live]
    exact notices (by omega)

/-- An admitted range lies in one block, and it is that block that is accessed. -/
theorem access_of_admitted (reflects : Reflects events heap)
    (admitted : Admitted events address length) :
    ∃ (base offset : Nat) (block : Block), (base, block) ∈ heap.blocks ∧
      base + offset = address ∧ offset + length ≤ block.size ∧
        ∀ {α : Type} (next : Address → Nat → Block → Except Fault α),
          heap.access address next = next base offset block := by
  obtain ⟨base, size, owns, live, fits⟩ := admitted
  obtain ⟨block, mem, rfl, located⟩ := reflects.locate_of_owns owns
  have low := owns.2.1
  refine ⟨base, address - base, block, mem, by omega, by omega, fun next => ?_⟩
  unfold Heap.access
  rw [located]
  simp only [bind, Except.bind, reflects.liveBlock_of_unfreed mem live]

/-- A read is refused for the first reason there is: no block, a released block, or a range that
leaves its block. -/
theorem read_of_refused (reflects : Reflects events heap)
    (refused : Refused events address length fault) : heap.read address length = .error fault := by
  rw [Heap.read_eq_access]
  refine reflects.access_of_refused refused fun leaves => ?_
  rw [Block.range, if_neg (Nat.not_le.2 leaves)]
  rfl

/-- A write is refused for the same reasons as a read, in the same order. -/
theorem write_of_refused {bytes : List UInt8} (reflects : Reflects events heap)
    (refused : Refused events address bytes.length fault) :
    heap.write address bytes = .error fault := by
  rw [Heap.write_eq_access]
  refine reflects.access_of_refused refused fun leaves => ?_
  rw [Block.write, if_neg (Nat.not_le.2 leaves)]
  rfl

theorem write_of_admitted {bytes : List UInt8} (reflects : Reflects events heap)
    (admitted : Admitted events address bytes.length) :
    ∃ after, heap.write address bytes = .ok after := by
  obtain ⟨base, offset, block, _, _, inside, accessed⟩ := reflects.access_of_admitted admitted
  rw [Heap.write_eq_access, accessed, Block.write, if_pos inside]
  exact ⟨_, rfl⟩

/-- The cells of a range hold what the events have left at its addresses. -/
theorem extract_cells {block : Block} {offset : Nat} (reflects : Reflects events heap)
    (mem : (base, block) ∈ heap.blocks) (fits : offset + length ≤ block.size) :
    (block.cells.extract offset (offset + length)).toList =
      (List.range length).map fun index => byteAt events (base + offset + index) := by
  refine List.ext_getElem? fun index => ?_
  rw [Array.getElem?_toList, Array.getElem?_extract]
  have whole : offset + length ≤ block.cells.size := fits
  by_cases inside : index < length
  · have within : offset + index < block.size := by omega
    rw [if_pos (by omega), reflects.cells mem within]
    simp [inside, Nat.add_assoc]
  · rw [if_neg (by omega)]
    simp [inside]

/-- A read that is admitted gives the bytes that the events tell, if all of them were written. -/
theorem read_of_admitted (reflects : Reflects events heap)
    (admitted : Admitted events address length) :
    heap.read address length =
      match ((List.range length).map fun index => byteAt events (address + index)).mapM id with
      | some bytes => .ok bytes
      | none => .error (.uninitializedRead address) := by
  obtain ⟨base, offset, block, mem, rfl, inside, accessed⟩ := reflects.access_of_admitted admitted
  rw [Heap.read_eq_access, accessed, Block.range, if_pos inside,
    ← reflects.extract_cells mem inside]
  rfl

/-- A read succeeds if and only if it is admitted and every one of its bytes was written, and then
it gives the bytes that were written last. -/
theorem read_eq_ok_iff {bytes : List UInt8} (reflects : Reflects events heap) :
    heap.read address length = .ok bytes ↔
      Admitted events address length ∧ bytes.length = length ∧
        ∀ index, index < length → byteAt events (address + index) = bytes[index]? := by
  rw [← contents_eq_map_some_iff, ← mapM_id_eq_some_iff]
  constructor
  · intro ran
    rcases refused_or_admitted events address length with ⟨fault, refused⟩ | admitted
    · rw [reflects.read_of_refused refused] at ran
      cases ran
    · rw [reflects.read_of_admitted admitted] at ran
      split at ran
      · next mapped =>
        cases ran
        exact ⟨admitted, mapped⟩
      · cases ran
  · rintro ⟨admitted, mapped⟩
    rw [reflects.read_of_admitted admitted, mapped]

/-- A read fails if and only if it is refused, or if it is admitted and one of its bytes was never
written. -/
theorem read_eq_error_iff (reflects : Reflects events heap) :
    heap.read address length = .error fault ↔
      Refused events address length fault ∨
        (Admitted events address length ∧
          (∃ index, index < length ∧ byteAt events (address + index) = none) ∧
          fault = .uninitializedRead address) := by
  have unwritten : (∃ index, index < length ∧ byteAt events (address + index) = none) ↔
      ((List.range length).map fun index => byteAt events (address + index)).mapM id = none := by
    rw [mapM_id_eq_none_iff]
    simp
  rw [unwritten]
  constructor
  · intro ran
    rcases refused_or_admitted events address length with ⟨cause, refused⟩ | admitted
    · rw [reflects.read_of_refused refused] at ran
      cases ran
      exact .inl refused
    · rw [reflects.read_of_admitted admitted] at ran
      split at ran
      · cases ran
      · next missing =>
        cases ran
        exact .inr ⟨admitted, missing, rfl⟩
  · rintro (refused | ⟨admitted, missing, rfl⟩)
    · exact reflects.read_of_refused refused
    · rw [reflects.read_of_admitted admitted, missing]

theorem write_eq_error_iff {bytes : List UInt8} (reflects : Reflects events heap) :
    heap.write address bytes = .error fault ↔ Refused events address bytes.length fault := by
  constructor
  · intro ran
    rcases refused_or_admitted events address bytes.length with ⟨cause, refused⟩ | admitted
    · rw [reflects.write_of_refused refused] at ran
      cases ran
      exact refused
    · obtain ⟨after, wrote⟩ := reflects.write_of_admitted admitted
      rw [wrote] at ran
      cases ran
  · exact reflects.write_of_refused

theorem exists_write_eq_ok_iff {bytes : List UInt8} (reflects : Reflects events heap) :
    (∃ after, heap.write address bytes = .ok after) ↔ Admitted events address bytes.length := by
  constructor
  · rintro ⟨after, wrote⟩
    rcases refused_or_admitted events address bytes.length with ⟨cause, refused⟩ | admitted
    · rw [reflects.write_of_refused refused] at wrote
      cases wrote
    · exact admitted
  · exact reflects.write_of_admitted

end Reflects

/-- **The heap refines a byte store.** Whatever was asked of a heap before, a read gives the bytes
written last since the block was handed out, if the range lies in one block that is not released and
was written throughout. Otherwise it is refused for the first reason that applies: no such block, a
released block, a range that leaves the block, a byte that was not written. A write is refused for
the first three of these reasons and for no other. -/
theorem heap_refines_byte_store (limit : Nat) (actions : List Action) (address : Nat) :
    let events := (Course.of limit actions).events
    let heap := (Course.of limit actions).heap
    (∀ length bytes, heap.read address length = .ok bytes ↔
        Admitted events address length ∧ bytes.length = length ∧
          ∀ index, index < length → byteAt events (address + index) = bytes[index]?) ∧
      (∀ length fault, heap.read address length = .error fault ↔
        Refused events address length fault ∨
          (Admitted events address length ∧
            (∃ index, index < length ∧ byteAt events (address + index) = none) ∧
            fault = .uninitializedRead address)) ∧
      (∀ bytes fault, heap.write address bytes = .error fault ↔
        Refused events address bytes.length fault) ∧
      (∀ bytes, (∃ after, heap.write address bytes = .ok after) ↔
        Admitted events address bytes.length) := by
  have reflects := Course.reflects limit actions
  exact ⟨fun _ _ => reflects.read_eq_ok_iff, fun _ _ => reflects.read_eq_error_iff,
    fun _ _ => reflects.write_eq_error_iff, fun _ => reflects.exists_write_eq_ok_iff⟩

end Primer.Memory
