import Primer.Proofs.Memory.ByteStore
import Primer.Proofs.Memory.StackLayout

/-!
# Integers in a memory

An integer can be stored where a local or a global has its slot, and at four bytes of a block in use.
What is stored is read back, and all else is read as before: slots of locals and of globals are
found by their addresses, which a store does not change (`find?_map_update`), and bytes of the heap
that a store does not reach keep what they hold (`Reflects.read_wrote_of_apart`). Nothing but the one
cell changes (`OnlyCell`, `integers_are_stored_alone`).
-/

namespace Primer.Memory

/-! ## Slots of globals -/

namespace Globals

/-- The globals lie in consecutive slots from `globalStart` on and leave the heap alone. -/
structure Laid (globals : Globals) : Prop where
  slots : globals.vars.map Global.address =
    (List.range globals.size).map fun index => globalStart + wordSize * index
  below : globals.next ≤ heapStart

variable {globals after : Globals}

theorem Laid.empty : Laid .empty := ⟨rfl, by decide⟩

theorem addresses_assign (globals : Globals) (which : Global → Bool) (value : Value) :
    (globals.assign which value).vars.map Global.address = globals.vars.map Global.address := by
  unfold assign
  rw [List.map_map]
  apply List.map_congr_left
  intro var _
  simp only [Function.comp_apply]
  split <;> rfl

/-- Whatever is done to the globals, they stay laid out one after another. -/
theorem Laid.change (laid : globals.Laid) (changed : globals.Change after) : after.Laid := by
  cases changed with
  | define fresh room =>
    constructor
    · have hslots := laid.slots
      simp only [size, List.map_append, List.length_append, List.length_singleton,
        List.range_succ] at hslots ⊢
      rw [hslots]
      rfl
    · simpa [next, size, Nat.mul_succ, Nat.add_assoc] using room
  | @assign which value =>
    have hsize : (globals.assign which value).size = globals.size := List.length_map _
    constructor
    · rw [addresses_assign, hsize]
      exact laid.slots
    · have hbelow := laid.below
      unfold next at hbelow ⊢
      rwa [hsize]

theorem Laid.bounds {var : Global} (laid : globals.Laid) (mem : var ∈ globals.vars) :
    globalStart ≤ var.address ∧ var.address < heapStart := by
  have hmem : var.address ∈ globals.vars.map Global.address := List.mem_map_of_mem mem
  rw [laid.slots] at hmem
  obtain ⟨index, hindex, hsame⟩ := List.mem_map.1 hmem
  have hinside := List.mem_range.1 hindex
  have hbelow := laid.below
  rw [← hsame]
  unfold Address next wordSize at *
  omega

theorem Laid.apart (laid : globals.Laid) : (globals.vars.map Global.address).Nodup := by
  rw [laid.slots]
  refine List.nodup_range.map ?_
  intro index index' same
  exact Nat.eq_of_mul_eq_mul_left (by decide : 0 < wordSize) (Nat.add_left_cancel same)

end Globals

theorem globals_laid_after (limit : Nat) (commands : List Command) :
    ((Memory.empty limit).after commands).globals.Laid := by
  refine after_induction (motive := fun memory => memory.globals.Laid) .empty ?_ commands
  intro memory command after laid changed
  cases changed with
  | globals changed => exact laid.change changed
  | _ => exact laid

/-! ## Stores to slots -/

/-- A search by key after an update of the items with one key, which keeps their key. -/
theorem find?_map_update {α : Type} (key : α → Nat) (update : α → α)
    (keeps : ∀ item, key (update item) = key item) (here there : Nat) (items : List α) :
    (items.map fun item => if key item = here then update item else item).find?
        (fun item => key item = there) =
      if here = there then (items.find? fun item => key item = there).map update
      else items.find? fun item => key item = there := by
  induction items with
  | nil => simp
  | cons item rest ih =>
    rw [List.map_cons, List.find?_cons, List.find?_cons, ih]
    by_cases updated : key item = here
    · by_cases same : here = there <;> simp [updated, keeps, same]
    · by_cases found : key item = there
      · have hother : here ≠ there := fun same => updated (found.trans same.symm)
        simp [found, Ne.symm hother, hother]
      · simp [updated, found]

namespace Stack

variable {stack after : Stack} {address : Address} {value : Value}

theorem Laid.lt_globalStart {var : Local} (laid : stack.Laid) (mem : var ∈ stack.locals) :
    var.address < globalStart :=
  Nat.lt_of_lt_of_le (laid.lt_next mem) laid.below

theorem locals_setAt (stack : Stack) (address : Address) (value : Value) :
    locals { stack with frames := stack.frames.map fun frame => frame.setAt address value } =
      stack.locals.map fun var => if var.address = address then { var with value } else var := by
  unfold locals
  rw [List.flatMap_map, List.map_flatMap]
  simp only [Frame.setAt, Table.map, Table.values, List.map_map]
  rfl

theorem isSome_at?_iff :
    (stack.at? address).isSome ↔ ∃ var ∈ stack.locals, var.address = address := by
  rw [at?_eq_find?, List.find?_isSome]
  simp

theorem setAt_eq_ok_iff :
    stack.setAt address value = .ok after ↔
      (∃ var ∈ stack.locals, var.address = address) ∧
        { stack with frames := stack.frames.map fun frame => frame.setAt address value } =
          after := by
  unfold setAt
  rw [← isSome_at?_iff]
  split <;> simp_all

/-- A store by address is seen at that address and nowhere else on the stack. -/
theorem at?_setAt (stack : Stack) (address other : Address) (value : Value) :
    at? { stack with frames := stack.frames.map fun frame => frame.setAt address value } other =
      if address = other then (stack.at? other).map fun var => { var with value }
      else stack.at? other := by
  rw [at?_eq_find?, at?_eq_find?, locals_setAt]
  exact find?_map_update Local.address (fun var => { var with value }) (fun _ => rfl) address other
    stack.locals

end Stack

/-- The second global is the first one, but perhaps for its value if its slot was written. -/
structure Global.AlikeBut (written : Address → Prop) (var other : Global) : Prop where
  name : other.name = var.name
  address : other.address = var.address
  value : written var.address ∨ other.value = var.value

namespace Globals

variable {globals after : Globals} {address : Address} {value : Value}

theorem isSome_at?_iff :
    (globals.at? address).isSome ↔ ∃ var ∈ globals.vars, var.address = address := by
  unfold at?
  rw [List.find?_isSome]
  simp

theorem setAt_eq_ok_iff :
    globals.setAt address value = .ok after ↔
      (∃ var ∈ globals.vars, var.address = address) ∧
        globals.assign (fun var => var.address = address) value = after := by
  unfold setAt
  rw [← isSome_at?_iff]
  split <;> simp_all

/-- A store by address is seen at that address and nowhere else among the globals. -/
theorem at?_assign (globals : Globals) (address other : Address) (value : Value) :
    (globals.assign (fun var => var.address = address) value).at? other =
      if address = other then (globals.at? other).map fun var => { var with value }
      else globals.at? other := by
  have hupdate := find?_map_update Global.address (fun var => { var with value }) (fun _ => rfl)
    address other globals.vars
  simpa [at?, assign] using hupdate

end Globals

/-! ## Stores to the heap -/

/-- The second block begins where the first one does and is that block, but for cells at addresses
that were written. -/
structure Block.AlikeBut (written : Address → Prop) (entry other : Address × Block) : Prop where
  base : other.1 = entry.1
  released : other.2.released = entry.2.released
  size : other.2.size = entry.2.size
  cells : ∀ index, written (entry.1 + index) ∨ other.2.cells[index]? = entry.2.cells[index]?

section Heap

variable {events : List Event} {heap : Heap} {start address length : Nat} {bytes : List UInt8}
  {fault : Fault}

theorem owns_wrote_iff {base size : Nat} :
    Owns (.wrote start bytes :: events) base size address ↔ Owns events base size address := by
  simp [Owns]

theorem Admitted.wrote (admitted : Admitted events address length) :
    Admitted (.wrote start bytes :: events) address length := by
  obtain ⟨base, size, owns, live, fits⟩ := admitted
  exact ⟨base, size, owns_wrote_iff.2 owns, by simpa using live, fits⟩

theorem Refused.wrote (refused : Refused events address length fault) :
    Refused (.wrote start bytes :: events) address length fault := by
  cases refused with
  | nowhere unowned => exact .nowhere fun base size owns => unowned base size (owns_wrote_iff.1 owns)
  | released owns freed => exact .released (owns_wrote_iff.2 owns) (List.mem_cons_of_mem _ freed)
  | overrun owns live leaves => exact .overrun (owns_wrote_iff.2 owns) (by simpa using live) leaves

/-- An access to some bytes is admitted if and only if one block in use contains all of them. -/
theorem Reflects.admitted_iff (reflects : Reflects events heap) (positive : 0 < length) :
    Admitted events address length ↔
      ∃ base block, (base, block) ∈ heap.blocks ∧ block.released = false ∧
        base ≤ address ∧ address + length ≤ base + block.size := by
  constructor
  · rintro ⟨base, size, ⟨handedOut, low, _⟩, live, fits⟩
    obtain ⟨block, mem, rfl⟩ := reflects.known.1 handedOut
    refine ⟨base, block, mem, ?_, low, fits⟩
    exact Bool.eq_false_iff.2 fun gone => live ((reflects.released mem).1 gone)
  · rintro ⟨base, block, mem, live, low, fits⟩
    have hlive : .freed base ∉ events := fun freed => by
      rw [(reflects.released mem).2 freed] at live
      cases live
    refine ⟨base, block.size, ⟨reflects.known.2 ⟨block, mem, rfl⟩, low, ?_⟩, hlive, fits⟩
    exact Nat.lt_of_lt_of_le (Nat.lt_add_of_pos_right positive) fits

variable {after : Heap}

theorem Reflects.wrote (reflects : Reflects events heap)
    (wrote : heap.write start bytes = .ok after) : Reflects (.wrote start bytes :: events) after :=
  reflects.change (Heap.change_of_act (Heap.act_of_write wrote))

theorem Reflects.read_wrote (reflects : Reflects events heap)
    (wrote : heap.write start bytes = .ok after) : after.read start bytes.length = .ok bytes := by
  apply (reflects.wrote wrote).read_eq_ok_iff.2
  refine ⟨(reflects.exists_write_eq_ok_iff.1 ⟨after, wrote⟩).wrote, rfl, ?_⟩
  intro index inside
  rw [byteAt_wrote_of_inside (by omega) (by omega), Nat.add_sub_cancel_left]

/-- A range that a write does not reach is read as before. -/
theorem Reflects.read_wrote_of_apart (reflects : Reflects events heap)
    (wrote : heap.write start bytes = .ok after)
    (apart : address + length ≤ start ∨ start + bytes.length ≤ address) :
    after.read address length = heap.read address length := by
  have hafter := reflects.wrote wrote
  rcases refused_or_admitted events address length with ⟨fault, refused⟩ | admitted
  · rw [reflects.read_of_refused refused, hafter.read_of_refused refused.wrote]
  · have hbytes : (List.range length).map (fun index =>
        byteAt (.wrote start bytes :: events) (address + index)) =
          (List.range length).map fun index => byteAt events (address + index) := by
      apply List.map_congr_left
      intro index hmem
      have hinside := List.mem_range.1 hmem
      exact byteAt_wrote_of_outside (by omega)
    rw [reflects.read_of_admitted admitted, hafter.read_of_admitted admitted.wrote, hbytes]

/-- A write changes the cells that it reaches and nothing else of the heap. -/
theorem Reflects.blocks_wrote (reflects : Reflects events heap)
    (wrote : heap.write start bytes = .ok after) :
    after = { heap with blocks := after.blocks } ∧
      List.Forall₂ (Block.AlikeBut fun address => start ≤ address ∧ address < start + bytes.length)
        heap.blocks after.blocks := by
  cases Heap.change_of_act (Heap.act_of_write wrote) with
  | @write base offset block _ found live fits =>
    refine ⟨rfl, ?_⟩
    apply List.forall₂_map_right_iff.2
    apply List.forall₂_same.2
    rintro ⟨other, old⟩ hmem
    -- A write replaces every block with its base, of which there is only one.
    by_cases here : other = base
    · subst here
      obtain rfl : old = block := Tiles.eq_of_base reflects.tiled hmem (Heap.mem_of_blockAt found)
      simp only [if_true]
      refine ⟨rfl, rfl, size_writeCells _ _ _, ?_⟩
      intro index
      by_cases reached : offset ≤ index ∧ index < offset + bytes.length
      · left
        unfold Address at *
        omega
      · right
        rw [getElem?_writeCells, if_neg fun inside => reached ⟨inside.1, inside.2.1⟩]
    · simp only [here, if_false]
      exact ⟨rfl, rfl, rfl, fun _ => .inr rfl⟩

end Heap

/-! ## Stores to a memory -/

/-- The second memory is the first one but for the integer at an address. -/
inductive OnlyCell (memory : Memory) (address : Address) : Memory → Prop
  | stack {stack : Stack} (region : address < globalStart)
      (rest : stack = { memory.stack with frames := stack.frames })
      (frames : List.Forall₂ (Frame.AlikeBut (· = address)) memory.stack.frames stack.frames) :
      OnlyCell memory address { memory with stack }
  | globals {globals : Globals} (region : globalStart ≤ address ∧ address < heapStart)
      (vars : List.Forall₂ (Global.AlikeBut (· = address)) memory.globals.vars globals.vars) :
      OnlyCell memory address { memory with globals }
  | heap {heap : Heap} (region : heapStart ≤ address)
      (rest : heap = { memory.heap with blocks := heap.blocks })
      (blocks : List.Forall₂
        (Block.AlikeBut fun other => address ≤ other ∧ other < address + wordSize)
        memory.heap.blocks heap.blocks) :
      OnlyCell memory address { memory with heap }

section Store

variable {memory after : Memory} {address other : Address} {value : Int32} {events : List Event}

/-- An integer is read from the stack, the globals or the heap, and from nothing else. -/
theorem readInt_congr {memory after : Memory} {address : Address}
    (stack : after.stack.at? address = memory.stack.at? address)
    (globals : after.globals.at? address = memory.globals.at? address)
    (heap : after.heap.read address wordSize = memory.heap.read address wordSize) :
    after.readInt address = memory.readInt address := by
  unfold readInt
  rw [stack, globals, heap]

/-- An integer that was stored is read back. -/
theorem readInt_writeInt (reflects : Reflects events memory.heap)
    (wrote : memory.writeInt address value = .ok after) : after.readInt address = .ok value := by
  rcases writeInt_eq_ok_iff.1 wrote with
    ⟨region, stack, written, rfl⟩ | ⟨region, globals, written, rfl⟩ | ⟨region, heap, written, rfl⟩
  · obtain ⟨found, rfl⟩ := Stack.setAt_eq_ok_iff.1 written
    obtain ⟨var, hvar⟩ := Option.isSome_iff_exists.1 (Stack.isSome_at?_iff.2 found)
    simp only [readInt, Region.of_eq_stack_iff.2 region, Stack.at?_setAt, if_true, hvar,
      Option.map_some]
    rfl
  · obtain ⟨found, rfl⟩ := Globals.setAt_eq_ok_iff.1 written
    obtain ⟨var, hvar⟩ := Option.isSome_iff_exists.1 (Globals.isSome_at?_iff.2 found)
    simp only [readInt, Region.of_eq_global_iff.2 region, Globals.at?_assign, if_true, hvar,
      Option.map_some]
    rfl
  · have hread := reflects.read_wrote written
    rw [length_intToBytes] at hread
    simp only [readInt, Region.of_eq_heap_iff.2 region, hread]
    exact congrArg Except.ok (intOfBytes_intToBytes value)

/-- Storing an integer changes no integer that is read elsewhere. On the stack and among the globals
any other address is elsewhere; in the heap the four bytes of both must not overlap. -/
theorem readInt_writeInt_of_apart (reflects : Reflects events memory.heap)
    (wrote : memory.writeInt address value = .ok after)
    (apart : address < heapStart ∧ other ≠ address ∨
      heapStart ≤ address ∧ (other + wordSize ≤ address ∨ address + wordSize ≤ other)) :
    after.readInt other = memory.readInt other := by
  have hother : address ≠ other := by
    rintro rfl
    unfold Address wordSize at *
    omega
  rcases writeInt_eq_ok_iff.1 wrote with
    ⟨region, stack, written, rfl⟩ | ⟨region, globals, written, rfl⟩ | ⟨region, heap, written, rfl⟩
  · obtain ⟨_, rfl⟩ := Stack.setAt_eq_ok_iff.1 written
    refine readInt_congr ?_ rfl rfl
    rw [Stack.at?_setAt, if_neg hother]
  · obtain ⟨_, rfl⟩ := Globals.setAt_eq_ok_iff.1 written
    refine readInt_congr rfl ?_ rfl
    rw [Globals.at?_assign, if_neg hother]
  · refine readInt_congr rfl rfl ?_
    apply reflects.read_wrote_of_apart written
    rw [length_intToBytes]
    unfold Address at *
    omega

/-- Storing an integer changes the one cell at its address and leaves everything else in all three
regions as it was. -/
theorem onlyCell_of_writeInt (reflects : Reflects events memory.heap)
    (wrote : memory.writeInt address value = .ok after) : OnlyCell memory address after := by
  rcases writeInt_eq_ok_iff.1 wrote with
    ⟨region, stack, written, rfl⟩ | ⟨region, globals, written, rfl⟩ | ⟨region, heap, written, rfl⟩
  · obtain ⟨_, rfl⟩ := Stack.setAt_eq_ok_iff.1 written
    refine .stack region rfl ?_
    apply List.forall₂_map_right_iff.2
    apply List.forall₂_same.2
    intro frame _
    apply Frame.AlikeBut.setAt (.refl _ frame)
    rfl
  · obtain ⟨_, rfl⟩ := Globals.setAt_eq_ok_iff.1 written
    refine .globals region ?_
    apply List.forall₂_map_right_iff.2
    apply List.forall₂_same.2
    intro var _
    by_cases here : var.address = address
    · simp only [here, decide_true, if_true]
      exact ⟨rfl, here.symm, .inl here⟩
    · simp only [here, decide_false, Bool.false_eq_true, if_false]
      exact ⟨rfl, rfl, .inr rfl⟩
  · obtain ⟨hrest, hblocks⟩ := reflects.blocks_wrote written
    rw [length_intToBytes] at hblocks
    exact .heap region hrest hblocks

/-- An integer can be stored at an address if and only if a local or a global has its slot there, or
one block in use contains the four bytes from there on. -/
theorem exists_writeInt_eq_ok_iff (laid : memory.stack.Laid) (globals : memory.globals.Laid)
    (reflects : Reflects events memory.heap) :
    (∃ after, memory.writeInt address value = .ok after) ↔
      (∃ var ∈ memory.stack.locals, var.address = address) ∨
        (∃ var ∈ memory.globals.vars, var.address = address) ∨
        ∃ base block, (base, block) ∈ memory.heap.blocks ∧ block.released = false ∧
          base ≤ address ∧ address + wordSize ≤ base + block.size := by
  have hblocks : Admitted events address wordSize ↔ _ := reflects.admitted_iff (by decide)
  have hheap : (∃ heap, memory.heap.write address (intToBytes value) = .ok heap) ↔
      Admitted events address wordSize := by
    rw [reflects.exists_write_eq_ok_iff, length_intToBytes]
  rw [← hblocks]
  constructor
  · rintro ⟨after, wrote⟩
    rcases writeInt_eq_ok_iff.1 wrote with
      ⟨_, stack, written, _⟩ | ⟨_, globals, written, _⟩ | ⟨_, heap, written, _⟩
    · exact .inl (Stack.setAt_eq_ok_iff.1 written).1
    · exact .inr (.inl (Globals.setAt_eq_ok_iff.1 written).1)
    · exact .inr (.inr (hheap.1 ⟨heap, written⟩))
  · rintro (⟨var, hvar, rfl⟩ | ⟨var, hvar, rfl⟩ | hadmitted)
    · have hregion := laid.lt_globalStart hvar
      obtain ⟨stack, written⟩ : ∃ stack, memory.stack.setAt var.address (.int value) = .ok stack :=
        ⟨_, Stack.setAt_eq_ok_iff.2 ⟨⟨var, hvar, rfl⟩, rfl⟩⟩
      exact ⟨_, writeInt_eq_ok_iff.2 (.inl ⟨hregion, stack, written, rfl⟩)⟩
    · have hregion := globals.bounds hvar
      obtain ⟨after, written⟩ : ∃ after, memory.globals.setAt var.address (.int value) = .ok after :=
        ⟨_, Globals.setAt_eq_ok_iff.2 ⟨⟨var, hvar, rfl⟩, rfl⟩⟩
      exact ⟨_, writeInt_eq_ok_iff.2 (.inr (.inl ⟨hregion, after, written, rfl⟩))⟩
    · obtain ⟨base, block, hmem, _, hlow, _⟩ := hblocks.1 hadmitted
      have hregion : heapStart ≤ address :=
        Nat.le_trans (Tiles.bounds reflects.tiled hmem).1 hlow
      obtain ⟨heap, written⟩ := hheap.2 hadmitted
      exact ⟨_, writeInt_eq_ok_iff.2 (.inr (.inr ⟨hregion, heap, written, rfl⟩))⟩

end Store

/-- **Integers are stored alone.** In every memory that can be reached, locals lie below the globals
and globals below the heap, each at an address of its own. An integer can be stored at an address if
and only if a local or a global has its slot there, or four bytes from there on lie in one block that
is in use. Then it is read back; every other slot is read as before, and after a store to the heap
every four bytes that do not overlap the stored ones, faults included. Nothing else changes: not the
other two regions, nor any name, address, frame, block or count of bytes. -/
theorem integers_are_stored_alone (limit : Nat) (commands : List Command) (address : Address)
    (value : Int32) :
    let memory := (Memory.empty limit).after commands
    ((∀ var ∈ memory.stack.locals, var.address < globalStart) ∧
        (memory.stack.locals.map Local.address).Nodup) ∧
      ((∀ var ∈ memory.globals.vars, globalStart ≤ var.address ∧ var.address < heapStart) ∧
        (memory.globals.vars.map Global.address).Nodup) ∧
      ((∃ after, memory.writeInt address value = .ok after) ↔
        (∃ var ∈ memory.stack.locals, var.address = address) ∨
          (∃ var ∈ memory.globals.vars, var.address = address) ∨
          ∃ base block, (base, block) ∈ memory.heap.blocks ∧ block.released = false ∧
            base ≤ address ∧ address + wordSize ≤ base + block.size) ∧
      ∀ after, memory.writeInt address value = .ok after →
        after.readInt address = .ok value ∧
          (∀ other,
            (address < heapStart ∧ other ≠ address ∨
              heapStart ≤ address ∧ (other + wordSize ≤ address ∨ address + wordSize ≤ other)) →
            after.readInt other = memory.readInt other) ∧
          OnlyCell memory address after := by
  intro memory
  have hstack : memory.stack.Laid := laid_after limit commands
  have hglobals : memory.globals.Laid := globals_laid_after limit commands
  obtain ⟨events, reflects⟩ : ∃ events, Reflects events memory.heap := by
    obtain ⟨actions, hcourse⟩ := exists_course limit commands
    exact ⟨_, hcourse ▸ Course.reflects limit actions⟩
  refine ⟨⟨fun _ => hstack.lt_globalStart, hstack.apart⟩,
    ⟨fun _ => hglobals.bounds, hglobals.apart⟩, ?_, ?_⟩
  · exact exists_writeInt_eq_ok_iff hstack hglobals reflects
  · intro after wrote
    refine ⟨readInt_writeInt reflects wrote, ?_, onlyCell_of_writeInt reflects wrote⟩
    intro other apart
    exact readInt_writeInt_of_apart reflects wrote apart

/-- An integer at an odd address of a block of six bytes. A read four bytes further on leaves the
block, before and after the store, though the block behind it is in use. -/
theorem odd_address_of_a_small_block :
    let memory := (Memory.empty 16).after [.allocate 6, .allocate 4]
    let after := memory.step (.writeInt (heapStart + 1) (-7))
    memory.writeInt (heapStart + 1) (-7) = .ok after ∧
      after.readInt (heapStart + 1) = .ok (-7) ∧
      heapStart + 1 + wordSize ≤ heapStart + 5 ∧
      memory.readInt (heapStart + 5) = .error (.bufferOverrun 5 4 6) ∧
      after.readInt (heapStart + 5) = .error (.bufferOverrun 5 4 6) := by
  intro memory after
  have hwrote : memory.writeInt (heapStart + 1) (-7) = .ok after := rfl
  have hapart : heapStart + 1 + wordSize ≤ heapStart + 5 := by decide
  have hbefore : memory.readInt (heapStart + 5) = .error (.bufferOverrun 5 4 6) := rfl
  obtain ⟨_, _, _, hlaws⟩ :=
    integers_are_stored_alone 16 [.allocate 6, .allocate 4] (heapStart + 1) (-7)
  obtain ⟨hread, hothers, _⟩ := hlaws after hwrote
  have hother := hothers (heapStart + 5) (.inr ⟨by decide, .inr hapart⟩)
  exact ⟨hwrote, hread, hapart, hbefore, hother.trans hbefore⟩

end Primer.Memory
