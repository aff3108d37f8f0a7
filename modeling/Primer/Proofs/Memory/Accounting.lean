import Primer.Proofs.Memory.InPlace

/-!
# Bytes in use and bytes handed out

A heap counts its bytes as it goes: `liveBytes` grows when a block is handed out and shrinks when
one is released, `totalBytes` only grows. Replacing a block changes a sum over all blocks by what
the two blocks differ in (`total_replace`), so after every event both counters are still the sums
that they stand for (`Heap.Balanced.change`). What a heap refuses and what it admits is then decided
by the sizes of the blocks in use, and what it hands out also by the capacity of a block
(`heap_bytes_are_accounted`).
-/

namespace Primer.Memory

/-- The number of bytes that an entry of the heap has room for. -/
def entrySize (entry : Address × Block) : Nat := entry.2.size

/-- The number of bytes that an entry of the heap keeps in use. -/
def entryUse (entry : Address × Block) : Nat := if entry.2.released then 0 else entry.2.size

theorem total_filter_live (blocks : List (Address × Block)) :
    total entrySize (blocks.filter fun entry => !entry.2.released) = total entryUse blocks := by
  induction blocks with
  | nil => rfl
  | cons entry rest ih =>
    cases hreleased : entry.2.released with
    | true => simp [hreleased, entryUse, ih]
    | false => simp [hreleased, entryUse, entrySize, ih]

/-- Replacing the block at a base changes a sum over all blocks by what old and new differ in. -/
theorem total_replace (charge : Address × Block → Nat) {blocks : List (Address × Block)}
    {base : Address} {old : Block} (block : Block) (apart : (blocks.map Prod.fst).Nodup)
    (mem : (base, old) ∈ blocks) :
    total charge (blocks.map fun entry => if entry.1 = base then (entry.1, block) else entry) +
        charge (base, old) =
      total charge blocks + charge (base, block) := by
  induction blocks with
  | nil => cases mem
  | cons entry rest ih =>
    rw [List.map_cons, List.nodup_cons] at apart
    obtain ⟨hfirst, hrest⟩ := apart
    rw [List.map_cons, total_cons, total_cons]
    rcases List.mem_cons.1 mem with rfl | there
    · -- No other block begins here, so the rest stays as it is.
      have hsame : (rest.map fun entry => if entry.1 = base then (entry.1, block) else entry) =
          rest := by
        refine (List.map_congr_left fun entry hmem => ?_).trans (List.map_id rest)
        have hother : entry.1 ≠ base := fun here => hfirst (List.mem_map.2 ⟨entry, hmem, here⟩)
        exact if_neg hother
      rw [hsame, if_pos rfl]
      show charge (base, block) + total charge rest + charge (base, old) = _
      omega
    · have hother : entry.1 ≠ base := by
        rintro rfl
        exact hfirst (List.mem_map.2 ⟨_, there, rfl⟩)
      have hstep := ih hrest there
      rw [if_neg hother]
      omega

namespace Heap

/-- The blocks tile the heap, and its counters are sums over them. -/
structure Balanced (heap : Heap) : Prop where
  tiled : heap.Tiled
  live : heap.liveBytes = total entryUse heap.blocks
  total : heap.totalBytes = total entrySize heap.blocks
  within : heap.liveBytes ≤ heap.limit

variable {heap after : Heap} {event : Event} {base : Address} {block : Block} {size : Nat}

/-- Putting a block in the place of another changes a sum over the heap by what the two differ
in. -/
theorem Tiled.total_setBlock (tiled : heap.Tiled) (charge : Address × Block → Nat) (other : Block)
    (found : heap.block? base = some block) :
    Primer.total charge (heap.setBlock base other).blocks + charge (base, block) =
      Primer.total charge heap.blocks + charge (base, other) :=
  total_replace charge other ((Tiles.increasing tiled).imp Nat.ne_of_lt) (mem_of_blockAt found)

/-- The blocks leave no gap, so together they reach up to where the next one will begin. -/
theorem Tiled.next_eq (tiled : heap.Tiled) :
    heap.next = heapStart + total entrySize heap.blocks := by
  have hrow : ∀ {start stop : Nat} {blocks : List (Address × Block)},
      Tiles start blocks stop → stop = start + Primer.total entrySize blocks := by
    intro start stop blocks tiles
    induction blocks generalizing start with
    | nil => exact tiles.symm
    | cons entry rest ih =>
      obtain ⟨_, _, tail⟩ := tiles
      rw [ih tail, total_cons, Nat.add_assoc]
      rfl
  exact hrow tiled

namespace Balanced

theorem empty (limit : Nat) : Balanced (.empty limit) := ⟨rfl, rfl, rfl, Nat.zero_le limit⟩

/-- A block in use is counted, so releasing it takes no more than what is there. -/
theorem size_le_liveBytes (balanced : heap.Balanced) (found : heap.block? base = some block)
    (live : block.released = false) : block.size ≤ heap.liveBytes := by
  have hsum := balanced.tiled.total_setBlock entryUse { block with released := true } found
  have hused : entryUse (base, block) = block.size := by simp [entryUse, live]
  have hgone : entryUse (base, { block with released := true }) = 0 := rfl
  rw [balanced.live]
  omega

/-- Both counters stay the sums that they stand for, whatever happens to the heap. -/
theorem change (balanced : heap.Balanced) (changed : heap.Change event after) :
    after.Balanced := by
  have htiled := balanced.tiled.change changed
  have hlive := balanced.live
  have htotal := balanced.total
  have hwithin := balanced.within
  cases changed with
  | @allocate size positive fits =>
    have huse : entryUse (heap.next, Block.fresh size) = size := Block.size_fresh size
    have hsize : entrySize (heap.next, Block.fresh size) = size := Block.size_fresh size
    refine ⟨htiled, ?_, ?_, fits⟩
    · simp only [total_append, total_cons, total_nil, huse, hlive, Nat.add_zero]
    · simp only [total_append, total_cons, total_nil, hsize, htotal, Nat.add_zero]
  | @free base block found live =>
    have hused : entryUse (base, block) = block.size := by simp [entryUse, live]
    have hgone : entryUse (base, { block with released := true }) = 0 := rfl
    have hsame : entrySize (base, { block with released := true }) = entrySize (base, block) := rfl
    have huses := balanced.tiled.total_setBlock entryUse { block with released := true } found
    have hsizes := balanced.tiled.total_setBlock entrySize { block with released := true } found
    refine ⟨htiled, ?_, ?_, Nat.le_trans (Nat.sub_le _ _) hwithin⟩
    · show heap.liveBytes - block.size =
        Primer.total entryUse (heap.setBlock base { block with released := true }).blocks
      omega
    · show heap.totalBytes =
        Primer.total entrySize (heap.setBlock base { block with released := true }).blocks
      omega
  | @write base offset block bytes found live fits =>
    have hsize : (writeCells block.cells offset bytes).size = block.cells.size :=
      size_writeCells block.cells offset bytes
    have hsame : entrySize (base, { block with cells := writeCells block.cells offset bytes }) =
        entrySize (base, block) := hsize
    have hused : entryUse (base, { block with cells := writeCells block.cells offset bytes }) =
        entryUse (base, block) := by simp [entryUse, Block.size, hsize]
    have huses := balanced.tiled.total_setBlock entryUse
      { block with cells := writeCells block.cells offset bytes } found
    have hsizes := balanced.tiled.total_setBlock entrySize
      { block with cells := writeCells block.cells offset bytes } found
    refine ⟨htiled, ?_, ?_, hwithin⟩
    · show heap.liveBytes = _
      omega
    · show heap.totalBytes = _
      omega

end Balanced

theorem limit_of_change (changed : heap.Change event after) : after.limit = heap.limit := by
  cases changed <;> rfl

/-! ## Admission -/

theorem allocate_eq_invalidSize_iff {reported : Nat} :
    heap.allocate size = .error (.invalidSize reported) ↔ size = 0 ∧ reported = size := by
  obtain ⟨rfl, came⟩ | ⟨hpositive, _, came⟩ | ⟨hpositive, _, _, came⟩ | ⟨hpositive, _, _, came⟩ :=
    heap.allocate_cases size
  · simp [came, eq_comm]
  all_goals simp [came, Nat.ne_of_gt hpositive]

theorem allocate_eq_outOfMemory_iff {requested allocated limit : Nat} :
    heap.allocate size = .error (.outOfMemory requested allocated limit) ↔
      0 < size ∧ heap.limit < heap.liveBytes + size ∧
        requested = size ∧ allocated = heap.liveBytes ∧ limit = heap.limit := by
  obtain ⟨rfl, came⟩ | ⟨hpositive, hfull, came⟩ | ⟨_, hfits, _, came⟩ | ⟨_, hfits, _, came⟩ :=
    heap.allocate_cases size
  · simp [came]
  · simp [came, hpositive, hfull, eq_comm]
  all_goals simp [came, Nat.not_lt_of_le hfits]

/-- A request that the heap would admit stops the program if no block can be so large. -/
theorem allocate_eq_capacityOverflow_iff :
    heap.allocate size = .error .capacityOverflow ↔
      0 < size ∧ heap.liveBytes + size ≤ heap.limit ∧ blockCapacity < size := by
  obtain ⟨rfl, came⟩ | ⟨_, hfull, came⟩ | ⟨hpositive, hfits, hlarge, came⟩ |
    ⟨_, _, hsmall, came⟩ := heap.allocate_cases size
  · simp [came]
  · simp [came, Nat.not_le_of_lt hfull]
  · simp [came, hpositive, hfits, hlarge]
  · simp [came, Nat.not_lt_of_le hsmall]

/-- A request is granted if and only if it is for something, fits beside the bytes in use and is
within the capacity of a block. -/
theorem exists_allocate_eq_ok_iff :
    (∃ result, heap.allocate size = .ok result) ↔
      0 < size ∧ heap.liveBytes + size ≤ heap.limit ∧ size ≤ blockCapacity := by
  obtain ⟨rfl, came⟩ | ⟨_, hfull, came⟩ | ⟨_, _, hlarge, came⟩ | ⟨hpositive, hfits, hsmall, came⟩ :=
    heap.allocate_cases size
  · simp [came]
  · simp [came, Nat.not_le_of_lt hfull]
  · simp [came, Nat.not_le_of_lt hlarge]
  · simp [came, hpositive, hfits, hsmall]

theorem free_of_live (found : heap.block? base = some block) (live : block.released = false) :
    heap.free base = .ok { heap.setBlock base { block with released := true } with
      liveBytes := heap.liveBytes - block.size } := by
  unfold free
  rw [found]
  simp [live]

end Heap

/-- In place a request comes out as in the view, and one that is not granted leaves the heap
alone. -/
theorem InPlace.allocate_eq {heap : Heap} (tiled : heap.Tiled) (size : Nat) :
    allocate size heap =
      match heap.allocate size with
      | .ok (address, after) => .ok address after
      | .error fault => .error fault heap := by
  have hfollows := allocate_follows tiled size
  generalize allocate size heap = result at hfollows ⊢
  generalize heap.allocate size = seen at hfollows ⊢
  cases hfollows <;> rfl

theorem Course.balanced (limit : Nat) (actions : List Action) :
    (Course.of limit actions).heap.Balanced ∧ (Course.of limit actions).heap.limit = limit := by
  refine Course.induction (motive := fun _ heap => heap.Balanced ∧ heap.limit = limit)
    ⟨.empty limit, rfl⟩ ?_ actions
  rintro events heap event after ⟨balanced, hlimit⟩ changed
  exact ⟨balanced.change changed, (Heap.limit_of_change changed).trans hlimit⟩

/-- **The bytes of a heap are accounted for.** Whatever was asked of a heap before, granted or
refused, its bytes in use are the sizes of the blocks in use and never exceed the limit it was made
with; its bytes ever handed out are the sizes of all blocks, released ones included, and reach from
`heapStart` to where the next block will begin, so a snapshot is charged for exactly the blocks that
are kept. A request is of invalid size if and only if it is for nothing, and it runs out of memory
if and only if it is for something that does not fit beside the bytes in use. In all other cases it
is granted if it is for less than `2 ^ 63` bytes; no block can have as many, so a larger request
stops the program. In place, where a request is compared with what is left of the limit, it comes out the
same. A block in use is no larger than the bytes in use, and releasing it makes room for precisely
its size. -/
theorem heap_bytes_are_accounted (limit : Nat) (actions : List Action) :
    let heap := (Course.of limit actions).heap
    (heap.liveBytes = total entrySize heap.live ∧ heap.liveBytes ≤ limit) ∧
      (heap.totalBytes = total entrySize heap.blocks ∧ heap.next = heapStart + heap.totalBytes) ∧
      (∀ (memory : Memory) (label : String),
        Snapshot.size ⟨label, { memory with heap }⟩ =
          total Frame.charge memory.stack.frames + total entrySize heap.blocks +
            memory.globals.size * 32 + label.utf8ByteSize) ∧
      (∀ size,
        (∀ reported, heap.allocate size = .error (.invalidSize reported) ↔
            size = 0 ∧ reported = size) ∧
          (∀ requested allocated bound,
            heap.allocate size = .error (.outOfMemory requested allocated bound) ↔
              0 < size ∧ limit < heap.liveBytes + size ∧
                requested = size ∧ allocated = heap.liveBytes ∧ bound = limit) ∧
          ((∃ result, heap.allocate size = .ok result) ↔
            0 < size ∧ heap.liveBytes + size ≤ limit ∧ size ≤ 0x7fffffffffffffff) ∧
          (heap.allocate size = .error .capacityOverflow ↔
            0 < size ∧ heap.liveBytes + size ≤ limit ∧ 0x7fffffffffffffff < size) ∧
          InPlace.allocate size heap =
            match heap.allocate size with
            | .ok (address, after) => .ok address after
            | .error fault => .error fault heap) ∧
      ∀ base block, heap.block? base = some block → block.released = false →
        block.size ≤ heap.liveBytes ∧
          ∃ after, heap.free base = .ok after ∧ after.liveBytes + block.size = heap.liveBytes ∧
            after.totalBytes = heap.totalBytes ∧
            ∀ size, (∃ result, after.allocate size = .ok result) ↔
              0 < size ∧ heap.liveBytes + size ≤ limit + block.size ∧
                size ≤ 0x7fffffffffffffff := by
  intro heap
  have hboth := Course.balanced limit actions
  obtain ⟨balanced, hlimit⟩ : heap.Balanced ∧ heap.limit = limit := hboth
  have htotal := balanced.total
  refine ⟨⟨?_, hlimit ▸ balanced.within⟩, ⟨htotal, ?_⟩, ?_, ?_, ?_⟩
  · rw [balanced.live]
    exact (total_filter_live heap.blocks).symm
  · rw [htotal]
    exact balanced.tiled.next_eq
  · intro memory label
    rw [← htotal]
    rfl
  · intro size
    rw [← hlimit]
    exact ⟨fun _ => Heap.allocate_eq_invalidSize_iff,
      fun _ _ _ => Heap.allocate_eq_outOfMemory_iff, Heap.exists_allocate_eq_ok_iff,
      Heap.allocate_eq_capacityOverflow_iff, InPlace.allocate_eq balanced.tiled size⟩
  · intro base block found live
    have hsize := balanced.size_le_liveBytes found live
    refine ⟨hsize, _, Heap.free_of_live found live, Nat.sub_add_cancel hsize, rfl, ?_⟩
    intro size
    rw [Heap.exists_allocate_eq_ok_iff]
    show 0 < size ∧ heap.liveBytes - block.size + size ≤ heap.limit ∧ size ≤ 0x7fffffffffffffff ↔ _
    omega

/-- A heap of ten bytes with a released block of four and one of six in use: four bytes are free
again, ten after a release. -/
theorem released_bytes_can_be_used_again :
    let heap := (Course.of 10 [.allocate 4, .allocate 6, .allocate 1, .free heapStart]).heap
    heap.block? (heapStart + 4) = some (.fresh 6) ∧ (Block.fresh 6).released = false ∧
      6 ≤ heap.liveBytes ∧
      (∃ result, heap.allocate 4 = .ok result) ∧
      heap.allocate 5 = .error (.outOfMemory 5 6 10) ∧
      ∃ after, heap.free (heapStart + 4) = .ok after ∧
        ∃ result, after.allocate 10 = .ok result := by
  intro heap
  have hfound : heap.block? (heapStart + 4) = some (.fresh 6) := rfl
  obtain ⟨_, _, _, hadmit, hrelease⟩ := heap_bytes_are_accounted 10
    [.allocate 4, .allocate 6, .allocate 1, .free heapStart]
  obtain ⟨hsize, after, hfree, _, _, hroom⟩ := hrelease (heapStart + 4) (.fresh 6) hfound rfl
  obtain ⟨_, _, hfits, _⟩ := hadmit 4
  obtain ⟨_, hfull, _, _⟩ := hadmit 5
  refine ⟨hfound, rfl, hsize, hfits.2 ⟨by decide, by decide, by decide⟩, ?_, after, hfree, ?_⟩
  · exact (hfull 5 6 10).2 ⟨by decide, by decide, rfl, rfl, rfl⟩
  · exact (hroom 10).2 ⟨by decide, by decide, by decide⟩

/-- The largest limit there is admits a request for `2 ^ 63` bytes, and no sum leaves 64 bits. Still
it is not granted, since no block can be so large. -/
theorem admitted_request_without_a_block :
    let heap := (Course.of 0xffffffffffffffff []).heap
    let size := 0x8000000000000000
    (0 < size ∧ heap.liveBytes + size ≤ 0xffffffffffffffff) ∧
      (heap.next + size ≤ 0xffffffffffffffff ∧ heap.totalBytes + size ≤ 0xffffffffffffffff) ∧
      heap.allocate size = .error .capacityOverflow ∧
      ¬ ∃ result, heap.allocate size = .ok result := by
  intro heap size
  have hstops : heap.allocate size = .error .capacityOverflow :=
    Heap.allocate_eq_capacityOverflow_iff.2 ⟨by decide, by decide, by decide⟩
  refine ⟨⟨by decide, by decide⟩, ⟨by decide, by decide⟩, hstops, ?_⟩
  rintro ⟨result, granted⟩
  rw [hstops] at granted
  cases granted

end Primer.Memory
