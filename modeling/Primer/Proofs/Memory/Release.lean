import Primer.Proofs.Memory.ByteStore
import Primer.Proofs.Memory.Placement
import Primer.Storage.Replay

/-!
# Release of blocks and leaks

What `free` answers follows from what has happened to a heap: a block can be released if it was
handed out and not released since, an address that was released before is a double release, and all
others are invalid (`Accounted.free_cases`). The blocks in use are those handed out less those
released (`Accounted.liveBlocks_eq`). Nothing that has happened is ever undone
(`Course.events_suffix`), so a released block stays released.
-/

namespace Primer.Memory

/-! ## Events stay -/

namespace Course

theorem events_suffix_step (course : Course) (action : Action) :
    course.events <:+ (course.step action).events := by
  unfold step
  split
  · exact List.suffix_cons _ _
  · exact List.suffix_refl _

/-- What has happened to a heap is still among the events when more was asked of it. -/
theorem events_suffix (limit : Nat) (actions later : List Action) :
    (Course.of limit actions).events <:+ (Course.of limit (actions ++ later)).events := by
  have hmore : ∀ (later : List Action) (course : Course),
      course.events <:+ (later.foldl step course).events := by
    intro later
    induction later with
    | nil => exact fun course => List.suffix_refl course.events
    | cons action rest ih =>
      intro course
      exact (events_suffix_step course action).trans (ih (course.step action))
  unfold Course.of
  rw [List.foldl_append]
  exact hmore later _

end Course

/-! ## Releasing -/

/-- The blocks are what the events have made of them, they are listed as they were handed out, and
what was released had been handed out. -/
structure Accounted (events : List Event) (heap : Heap) : Prop extends Reflects events heap where
  outline : heap.outline = handedOut events
  handed : ∀ {base : Nat}, .freed base ∈ events → ∃ size, .allocated base size ∈ events

namespace Accounted

variable {events : List Event} {heap : Heap} {base : Nat}

theorem change {event : Event} {after : Heap} (accounted : Accounted events heap)
    (changed : heap.Change event after) : Accounted (event :: events) after := by
  refine ⟨accounted.toReflects.change changed,
    accounted.tiled.outline_change accounted.outline changed, ?_⟩
  intro base hmem
  rcases List.mem_cons.1 hmem with rfl | hold
  · cases changed with
    | @free _ block found live =>
      have hblock := accounted.known.2 ⟨block, Heap.mem_of_blockAt found, rfl⟩
      exact ⟨block.size, List.mem_cons_of_mem _ hblock⟩
  · obtain ⟨size, hsize⟩ := accounted.handed hold
    exact ⟨size, List.mem_cons_of_mem _ hsize⟩

theorem block?_eq_none (accounted : Accounted events heap)
    (unknown : ∀ size, .allocated base size ∉ events) : heap.block? base = none := by
  cases hfound : heap.block? base with
  | none => rfl
  | some block =>
    have hmem := Heap.mem_of_blockAt hfound
    exact absurd (accounted.known.2 ⟨block, hmem, rfl⟩) (unknown block.size)

/-- A block in use is released, a released one is not released again, and where no block was handed
out there is nothing to release. -/
theorem free_cases (accounted : Accounted events heap) (base : Nat) :
    ((∃ size, .allocated base size ∈ events) ∧ .freed base ∉ events ∧
        ∃ after, heap.free base = .ok after) ∨
      ((∃ size, .allocated base size ∈ events) ∧ .freed base ∈ events ∧
        heap.free base = .error (.doubleFree base)) ∨
      ((∀ size, .allocated base size ∉ events) ∧ .freed base ∉ events ∧
        heap.free base = .error (.invalidFree base)) := by
  by_cases hknown : ∃ size, .allocated base size ∈ events
  · obtain ⟨size, hsize⟩ := hknown
    obtain ⟨block, hmem, _⟩ := accounted.known.1 hsize
    have hfound := accounted.tiled.block?_eq_some_iff.2 hmem
    by_cases hfreed : .freed base ∈ events
    · have hgone := (accounted.released hmem).2 hfreed
      refine .inr (.inl ⟨⟨size, hsize⟩, hfreed, ?_⟩)
      simp [Heap.free, hfound, hgone]
    · have hlive : block.released = false :=
        Bool.eq_false_iff.2 fun hgone => hfreed ((accounted.released hmem).1 hgone)
      refine .inl ⟨⟨size, hsize⟩, hfreed, ?_⟩
      simp [Heap.free, hfound, hlive]
  · have hunknown : ∀ size, .allocated base size ∉ events :=
      fun size hsize => hknown ⟨size, hsize⟩
    have hunfreed : .freed base ∉ events := fun hfreed => hknown (accounted.handed hfreed)
    refine .inr (.inr ⟨hunknown, hunfreed, ?_⟩)
    simp [Heap.free, accounted.block?_eq_none hunknown]

/-- A block can be released if and only if it was handed out and not released since. -/
theorem exists_free_eq_ok_iff (accounted : Accounted events heap) (base : Nat) :
    (∃ after, heap.free base = .ok after) ↔
      (∃ size, .allocated base size ∈ events) ∧ .freed base ∉ events := by
  rcases accounted.free_cases base with
    ⟨hknown, hunfreed, hfree⟩ | ⟨hknown, hfreed, hfree⟩ | ⟨hunknown, hunfreed, hfree⟩
  · exact ⟨fun _ => ⟨hknown, hunfreed⟩, fun _ => hfree⟩
  · simp [hfree, hfreed]
  · simp [hfree, hunknown]

/-- A second release is reported as such if and only if there was a first one. -/
theorem free_eq_doubleFree_iff (accounted : Accounted events heap) (base : Nat) :
    heap.free base = .error (.doubleFree base) ↔ .freed base ∈ events := by
  rcases accounted.free_cases base with
    ⟨hknown, hunfreed, after, hfree⟩ | ⟨hknown, hfreed, hfree⟩ | ⟨hunknown, hunfreed, hfree⟩
  · simp [hfree, hunfreed]
  · simp [hfree, hfreed]
  · simp [hfree, hunfreed]

/-- A release is invalid if and only if no block was ever handed out at the address. -/
theorem free_eq_invalidFree_iff (accounted : Accounted events heap) (base : Nat) :
    heap.free base = .error (.invalidFree base) ↔ ∀ size, .allocated base size ∉ events := by
  rcases accounted.free_cases base with
    ⟨⟨size, hsize⟩, hunfreed, after, hfree⟩ | ⟨⟨size, hsize⟩, hfreed, hfree⟩ |
      ⟨hunknown, hunfreed, hfree⟩
  · rw [hfree]
    exact ⟨nofun, fun hunknown => absurd hsize (hunknown size)⟩
  · rw [hfree]
    exact ⟨nofun, fun hunknown => absurd hsize (hunknown size)⟩
  · exact ⟨fun _ => hunknown, fun _ => hfree⟩

/-- No block begins inside another one or where none was handed out yet. -/
theorem not_allocated_of_inside (accounted : Accounted events heap)
    (inside : heap.next ≤ base ∨
      ∃ lower size, .allocated lower size ∈ events ∧ lower < base ∧ base < lower + size)
    (size : Nat) : .allocated base size ∉ events := by
  intro hsize
  obtain ⟨block, hmem, _⟩ := accounted.known.1 hsize
  obtain ⟨_, hpos, hhigh⟩ := Tiles.bounds accounted.tiled hmem
  rcases inside with hbeyond | ⟨lower, length, hlower, habove, hbelow⟩
  · have hle : heap.next ≤ base := hbeyond
    exact absurd (Nat.le_trans hhigh hle) (by omega)
  · obtain ⟨other, hmem', rfl⟩ := accounted.known.1 hlower
    have hsame := Tiles.eq_of_inside accounted.tiled hmem hmem' (Nat.le_refl base) (by omega)
      (Nat.le_of_lt habove) hbelow
    omega

/-! ## The blocks in use -/

/-- The blocks in use are those handed out, less those released. -/
theorem liveBlocks_eq (accounted : Accounted events heap) :
    heap.liveBlocks = (handedOut events).filter fun entry => .freed entry.1 ∉ events := by
  rw [← accounted.outline]
  unfold Heap.liveBlocks Heap.live Heap.outline
  rw [List.filter_map]
  have hkept : heap.blocks.filter (fun entry => !entry.2.released) =
      heap.blocks.filter ((fun entry : Nat × Nat => decide (.freed entry.1 ∉ events)) ∘
        fun entry : Address × Block => (entry.1, entry.2.cells.size)) := by
    apply List.filter_congr
    rintro ⟨base, block⟩ hmem
    have hreleased := accounted.released hmem
    cases hgone : block.released with
    | true => simp [hreleased.1 hgone]
    | false =>
      have hunfreed : .freed base ∉ events := fun hfreed => by
        rw [hreleased.2 hfreed] at hgone
        cases hgone
      simp [hunfreed]
  rw [hkept]
  rfl

theorem increasing_liveBlocks (accounted : Accounted events heap) :
    (heap.liveBlocks.map Prod.fst).Pairwise (· < ·) := by
  have hsub : (heap.liveBlocks.map Prod.fst).Sublist (heap.blocks.map Prod.fst) := by
    unfold Heap.liveBlocks Heap.live
    rw [List.map_map]
    exact List.filter_sublist.map Prod.fst
  exact (Tiles.increasing accounted.tiled).sublist hsub

theorem not_mem_liveBlocks (accounted : Accounted events heap) (freed : .freed base ∈ events) :
    base ∉ heap.liveBlocks.map Prod.fst := by
  intro hmem
  simp only [Heap.liveBlocks, Heap.live, List.map_map, List.mem_map, List.mem_filter] at hmem
  obtain ⟨⟨other, block⟩, ⟨hblock, hlive⟩, rfl⟩ := hmem
  rw [(accounted.released hblock).2 freed] at hlive
  cases hlive

theorem liveBlock_eq_error (accounted : Accounted events heap) (freed : .freed base ∈ events) :
    heap.liveBlock base = .error (.useAfterFree base) := by
  obtain ⟨size, hsize⟩ := accounted.handed freed
  obtain ⟨block, hmem, _⟩ := accounted.known.1 hsize
  exact accounted.toReflects.liveBlock_of_freed hmem freed

end Accounted

/-- Every course accounts for its blocks. -/
theorem Course.accounted (limit : Nat) (actions : List Action) :
    Accounted (Course.of limit actions).events (Course.of limit actions).heap :=
  Course.induction ⟨.empty limit, rfl, nofun⟩ (fun accounted changed => accounted.change changed)
    actions

/-- **Blocks are released once, and leaks are exact.** Whatever was asked of a heap before, releasing
an address succeeds if and only if a block was handed out there and not released since; it is a
double release if and only if it succeeded before, and invalid if and only if no block was handed
out there, as inside a block and at all addresses still to be handed out. The blocks in use, and so
the leaks of a trace with this heap, are exactly those handed out and not released, with the sizes
asked for, in increasing order of address, also when they are collected in another order and
sorted. A released block is never in use again, whatever is asked later. -/
theorem blocks_are_released_once (limit : Nat) (actions : List Action)
    (listed : List (Address × Block))
    (perm : listed.Perm (Course.of limit actions).heap.blocks) :
    let events := (Course.of limit actions).events
    let heap := (Course.of limit actions).heap
    let unreleased := (handedOut events).filter fun entry => .freed entry.1 ∉ events
    (∀ base,
      ((∃ after, heap.free base = .ok after) ↔
          (∃ size, .allocated base size ∈ events) ∧ .freed base ∉ events) ∧
        (heap.free base = .error (.doubleFree base) ↔ .freed base ∈ events) ∧
        (heap.free base = .error (.invalidFree base) ↔ ∀ size, .allocated base size ∉ events) ∧
        (heap.next ≤ base ∨
            (∃ lower size, .allocated lower size ∈ events ∧ lower < base ∧ base < lower + size) →
          heap.free base = .error (.invalidFree base)) ∧
        (.freed base ∈ events → ∀ later,
          base ∉ (Course.of limit (actions ++ later)).heap.liveBlocks.map Prod.fst ∧
            (Course.of limit (actions ++ later)).heap.liveBlock base =
              .error (.useAfterFree base))) ∧
      heap.liveBlocks = unreleased ∧
      (unreleased.map Prod.fst).Pairwise (· < ·) ∧
      { heap with blocks := listed }.liveBlocks.mergeSort (fun lower upper => lower.1 ≤ upper.1) =
        unreleased ∧
      ∀ trace : Storage.Trace, { trace with memory.heap := heap }.leaks = unreleased := by
  intro events heap unreleased
  have accounted : Accounted events heap := Course.accounted limit actions
  have hlive : heap.liveBlocks = unreleased := accounted.liveBlocks_eq
  have hsorted : (unreleased.map Prod.fst).Pairwise (· < ·) :=
    hlive ▸ accounted.increasing_liveBlocks
  refine ⟨?_, hlive, hsorted, ?_, fun trace => hlive⟩
  · intro base
    have hinvalid := accounted.free_eq_invalidFree_iff base
    refine ⟨accounted.exists_free_eq_ok_iff base, accounted.free_eq_doubleFree_iff base, hinvalid,
      ?_, ?_⟩
    · intro hinside
      exact hinvalid.2 (accounted.not_allocated_of_inside hinside)
    · intro hfreed later
      have hstill := (Course.events_suffix limit actions later).subset hfreed
      have hafter := Course.accounted limit (actions ++ later)
      exact ⟨hafter.not_mem_liveBlocks hstill, hafter.liveBlock_eq_error hstill⟩
  · have hcollected : { heap with blocks := listed }.liveBlocks.Perm unreleased := by
      rw [← hlive]
      exact (perm.filter _).map _
    exact mergeSort_eq_of_perm Prod.fst hcollected hsorted

/-- Two blocks, one of them released, with the blocks collected newest first: the released one is
not released again, an address inside the other one is not released at all, and the other one is
the only leak. -/
theorem second_block_is_the_only_leak :
    let course := Course.of 16 [.allocate 8, .allocate 4, .free heapStart]
    course.heap.blocks.reverse.Perm course.heap.blocks ∧
      .freed heapStart ∈ course.events ∧
      course.heap.free heapStart = .error (.doubleFree heapStart) ∧
      course.heap.free (heapStart + 9) = .error (.invalidFree (heapStart + 9)) ∧
      course.heap.liveBlocks = [(heapStart + 8, 4)] := by
  intro course
  have hperm : course.heap.blocks.reverse.Perm course.heap.blocks :=
    List.reverse_perm course.heap.blocks
  obtain ⟨hfree, hlive, _⟩ := blocks_are_released_once 16
    [.allocate 8, .allocate 4, .free heapStart] course.heap.blocks.reverse hperm
  have hfreed : .freed heapStart ∈ course.events := by decide
  refine ⟨hperm, hfreed, (hfree heapStart).2.1.2 hfreed, ?_, hlive.trans (by decide)⟩
  exact (hfree (heapStart + 9)).2.2.2.1 (.inr ⟨heapStart + 8, 4, by decide, by decide, by decide⟩)

end Primer.Memory
