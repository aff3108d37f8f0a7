import Mathlib.Data.List.Nodup
import Primer.Proofs.Memory.HeapLayout

/-!
# Where the blocks of a heap lie

The blocks of a heap are those that were handed out, each with as many cells as were asked for, in
the order in which they were asked for (`Course.outline_eq`). They tile the heap, so every address
below the next one to be handed out lies in exactly one of them, and none beyond it in any
(`Tiles.countP_contains`). A search through the blocks therefore finds the same block in whatever
order it meets them, and sorting them by address always gives the same list
(`blocks_tile_the_heap`).
-/

namespace Primer.Memory

/-- The blocks handed out, oldest first: where each begins, and the size that was asked for. -/
def handedOut : List Event → List (Nat × Nat)
  | [] => []
  | .allocated base size :: older => handedOut older ++ [(base, size)]
  | .freed _ :: older => handedOut older
  | .wrote _ _ :: older => handedOut older

/-! ## Lists met in another order -/

section Order

variable {α : Type}

/-- A search that can hit only one item comes to the same in any order. -/
theorem find?_eq_of_perm {p : α → Bool} {listed items : List α} (perm : listed.Perm items)
    (unique : ∀ {x y}, x ∈ items → y ∈ items → p x = true → p y = true → x = y) :
    listed.find? p = items.find? p := by
  cases hfind : listed.find? p with
  | none =>
    have hnone := List.find?_eq_none.1 hfind
    symm
    apply List.find?_eq_none.2
    intro x hx
    exact hnone x (perm.mem_iff.2 hx)
  | some x =>
    have hx : x ∈ items := perm.mem_iff.1 (List.mem_of_find?_eq_some hfind)
    have hpx : p x = true := List.find?_some hfind
    cases hother : items.find? p with
    | none => exact absurd hpx (List.find?_eq_none.1 hother x hx)
    | some y =>
      have hy : y ∈ items := List.mem_of_find?_eq_some hother
      rw [unique hx hy hpx (List.find?_some hother)]

/-- A list with strictly increasing keys is what sorting makes of any listing of its members. -/
theorem mergeSort_eq_of_perm (key : α → Nat) {listed items : List α} (perm : listed.Perm items)
    (increasing : (items.map key).Pairwise (· < ·)) :
    listed.mergeSort (fun x y => key x ≤ key y) = items := by
  have hnodup : (items.map key).Nodup := increasing.imp Nat.ne_of_lt
  have hsorted : items.Pairwise fun x y => decide (key x ≤ key y) = true := by
    rw [List.pairwise_map] at increasing
    refine increasing.imp fun hlt => ?_
    simpa using Nat.le_of_lt hlt
  have hperm : (listed.mergeSort fun x y => key x ≤ key y).Perm items :=
    (List.mergeSort_perm listed _).trans perm
  refine List.Perm.eq_of_pairwise ?_ (List.pairwise_mergeSort ?_ ?_ listed) hsorted hperm
  · intro x y hx hy hxy hyx
    have hkey : key x = key y := by
      simp only [decide_eq_true_eq] at hxy hyx
      omega
    exact List.inj_on_of_nodup_map hnodup (hperm.mem_iff.1 hx) hy hkey
  · intro x y z hxy hyz
    simp only [decide_eq_true_eq] at hxy hyz ⊢
    omega
  · intro x y
    simp only [Bool.or_eq_true, decide_eq_true_eq]
    omega

end Order

/-! ## Addresses of tiled blocks -/

namespace Tiles

variable {start stop : Nat} {blocks : List (Address × Block)}

theorem increasing (tiles : Tiles start blocks stop) :
    (blocks.map Prod.fst).Pairwise (· < ·) := by
  induction blocks generalizing start with
  | nil => exact .nil
  | cons entry rest ih =>
    obtain ⟨begins, positive, tail⟩ := tiles
    refine List.Pairwise.cons ?_ (ih tail)
    intro base hbase
    obtain ⟨⟨_, block⟩, hmem, rfl⟩ := List.mem_map.1 hbase
    have hlow := (tail.bounds hmem).1
    subst begins
    show entry.1 < _
    unfold Address at *
    omega

/-- Every address of the range lies in one of the blocks and no other address in any. -/
theorem countP_contains (tiles : Tiles start blocks stop) (address : Nat) :
    blocks.countP (fun entry => entry.1 ≤ address ∧ address < entry.1 + entry.2.size) =
      if start ≤ address ∧ address < stop then 1 else 0 := by
  induction blocks generalizing start with
  | nil =>
    cases tiles
    rw [if_neg (by omega)]
    rfl
  | cons entry rest ih =>
    obtain ⟨begins, positive, tail⟩ := tiles
    have hle := tail.le
    rw [List.countP_cons, ih tail]
    subst begins
    simp only [decide_eq_true_eq]
    unfold Address at *
    -- The address lies in the first block, in what follows it, or outside of both.
    by_cases hfirst : entry.1 ≤ address ∧ address < entry.1 + entry.2.size
    · rw [if_pos hfirst, if_neg (by omega), if_pos (by omega)]
    · rw [if_neg hfirst, Nat.add_zero]
      congr 1
      simp only [eq_iff_iff]
      omega

end Tiles

namespace Heap

/-- Where each block begins and how many cells it has. -/
def outline (heap : Heap) : List (Nat × Nat) :=
  heap.blocks.map fun entry => (entry.1, entry.2.cells.size)

variable {heap : Heap}

theorem outline_setBlock {base : Nat} (block : Block)
    (size : ∀ {old}, (base, old) ∈ heap.blocks → block.size = old.size) :
    (heap.setBlock base block).outline = heap.outline := by
  unfold outline setBlock
  rw [List.map_map]
  apply List.map_congr_left
  rintro ⟨other, old⟩ hmem
  by_cases here : other = base
  · subst here
    have hsize : block.cells.size = old.cells.size := size hmem
    simp [hsize]
  · simp [here]

/-- The outline of a heap grows by what is handed out and changes by nothing else. -/
theorem Tiled.outline_change {event : Event} {after : Heap} {events : List Event}
    (tiled : heap.Tiled) (same : heap.outline = handedOut events)
    (changed : heap.Change event after) : after.outline = handedOut (event :: events) := by
  cases changed with
  | allocate positive fits => simp [outline, handedOut, ← same, Block.fresh]
  | @free base block found live =>
    have hout := outline_setBlock { block with released := true } fun hmem => by
      rw [Tiles.eq_of_base tiled hmem (mem_of_blockAt found)]
      rfl
    exact hout.trans same
  | @write base offset block bytes found live fits =>
    have hout := outline_setBlock { block with cells := writeCells block.cells offset bytes }
      fun hmem => by
        rw [Tiles.eq_of_base tiled hmem (mem_of_blockAt found)]
        exact size_writeCells block.cells offset bytes
    exact hout.trans same

end Heap

/-- The blocks of a heap lie where they were handed out and have the sizes that were asked for. -/
theorem Course.outline_eq (limit : Nat) (actions : List Action) :
    (Course.of limit actions).heap.outline = handedOut (Course.of limit actions).events := by
  have hboth : (Course.of limit actions).heap.Tiled ∧
      (Course.of limit actions).heap.outline = handedOut (Course.of limit actions).events :=
    Course.induction (motive := fun events heap => heap.Tiled ∧ heap.outline = handedOut events)
      ⟨rfl, rfl⟩
      (fun ⟨tiled, same⟩ changed => ⟨tiled.change changed, tiled.outline_change same changed⟩)
      actions
  exact hboth.2

/-! ## Searching the blocks in any order -/

namespace Heap.Tiled

variable {heap : Heap} {listed : List (Address × Block)} {address : Nat}

theorem increasing_outline (tiled : heap.Tiled) : (heap.outline.map Prod.fst).Pairwise (· < ·) := by
  have hbases : heap.outline.map Prod.fst = heap.blocks.map Prod.fst := by simp [outline]
  rw [hbases]
  exact Tiles.increasing tiled

/-- An address is found in a block if and only if the block contains it. -/
theorem locate_eq_ok_iff {base offset : Nat} (tiled : heap.Tiled) :
    heap.locate address = .ok (base, offset) ↔
      ∃ block, (base, block) ∈ heap.blocks ∧ base + offset = address ∧ offset < block.size := by
  constructor
  · exact mem_of_locate
  · rintro ⟨block, hmem, rfl, hinside⟩
    rw [tiled.locate_of_inside hmem (Nat.le_add_right base offset) (by omega),
      Nat.add_sub_cancel_left]

/-- The block that contains an address is found in whatever order the blocks are met. -/
theorem locate_of_perm (tiled : heap.Tiled) (perm : listed.Perm heap.blocks) :
    { heap with blocks := listed }.locate address = heap.locate address := by
  unfold locate
  have hsame := find?_eq_of_perm
    (p := fun entry => decide (entry.1 ≤ address ∧ address < entry.1 + entry.2.size)) perm
    fun {x y} hx hy hinx hiny => by
      simp only [decide_eq_true_eq] at hinx hiny
      have hboth := Tiles.eq_of_inside tiled hx hy hinx.1 hinx.2 hiny.1 hiny.2
      exact Prod.ext hboth.1 hboth.2
  rw [hsame]

/-- An address is found if and only if it lies between the beginning of the heap and the next
block. -/
theorem exists_locate_eq_ok_iff (tiled : heap.Tiled) :
    (∃ place, heap.locate address = .ok place) ↔ heapStart ≤ address ∧ address < heap.next := by
  constructor
  · rintro ⟨⟨base, offset⟩, located⟩
    obtain ⟨block, hmem, rfl, hinside⟩ := mem_of_locate located
    obtain ⟨hlow, hpos, hhigh⟩ := Tiles.bounds tiled hmem
    exact ⟨Nat.le_add_right_of_le hlow,
      Nat.lt_of_lt_of_le (Nat.add_lt_add_left hinside base) hhigh⟩
  · intro hrange
    have hcount := Tiles.countP_contains tiled address
    rw [if_pos hrange] at hcount
    obtain ⟨⟨base, block⟩, hmem, hinside⟩ := List.countP_pos_iff.1 (hcount ▸ Nat.one_pos)
    simp only [decide_eq_true_eq] at hinside
    exact ⟨_, tiled.locate_of_inside hmem hinside.1 hinside.2⟩

end Heap.Tiled

/-- **The blocks tile the heap.** Whatever was asked of a heap before, its blocks are those that were
handed out, released ones included, with as many cells as were asked for, and each was handed out at
a higher address than all before it. However the blocks are listed, sorted by address they lie one
directly after another from `heapStart` to where the next will begin, none of them empty; an
address is located if and only if it lies in between, in the one block that contains it, and the
search gives the same answer in the order of that list. -/
theorem blocks_tile_the_heap (limit : Nat) (actions : List Action) (listed : List (Address × Block))
    (perm : listed.Perm (Course.of limit actions).heap.blocks) :
    let events := (Course.of limit actions).events
    let heap := (Course.of limit actions).heap
    heap.outline = handedOut events ∧
      ((handedOut events).map Prod.fst).Pairwise (· < ·) ∧
      Tiles heapStart (listed.mergeSort fun lower upper => lower.1 ≤ upper.1) heap.next ∧
      ∀ address,
        ((∃ place, heap.locate address = .ok place) ↔
            heapStart ≤ address ∧ address < heap.next) ∧
          (∀ base offset, heap.locate address = .ok (base, offset) ↔
            ∃ block, (base, block) ∈ listed ∧ base + offset = address ∧ offset < block.size) ∧
          listed.countP (fun entry => entry.1 ≤ address ∧ address < entry.1 + entry.2.size) =
            (if heapStart ≤ address ∧ address < heap.next then 1 else 0) ∧
          { heap with blocks := listed }.locate address = heap.locate address := by
  intro events heap
  have tiled : heap.Tiled := Course.tiled limit actions
  have hout : heap.outline = handedOut events := Course.outline_eq limit actions
  have hsorted := mergeSort_eq_of_perm Prod.fst perm (Tiles.increasing tiled)
  refine ⟨hout, hout ▸ tiled.increasing_outline, ?_, ?_⟩
  · rw [hsorted]
    exact tiled
  · intro address
    refine ⟨tiled.exists_locate_eq_ok_iff, ?_, ?_, tiled.locate_of_perm perm⟩
    · intro base offset
      simp only [perm.mem_iff]
      exact tiled.locate_eq_ok_iff
    · rw [perm.countP_eq]
      exact Tiles.countP_contains tiled address

/-- A released block, a live one and a refused request, with the blocks met newest first. -/
theorem reversed_blocks_tile_the_heap :
    let heap := (Course.of 16 [.allocate 8, .free heapStart, .allocate 3, .allocate 100]).heap
    heap.blocks.reverse.Perm heap.blocks ∧
      Tiles heapStart (heap.blocks.reverse.mergeSort fun lower upper => lower.1 ≤ upper.1)
        heap.next ∧
      { heap with blocks := heap.blocks.reverse }.locate (heapStart + 9) = .ok (heapStart + 8, 1) := by
  intro heap
  have hperm : heap.blocks.reverse.Perm heap.blocks := List.reverse_perm heap.blocks
  obtain ⟨_, _, htiles, hlocate⟩ := blocks_tile_the_heap 16
    [.allocate 8, .free heapStart, .allocate 3, .allocate 100] heap.blocks.reverse hperm
  exact ⟨hperm, htiles, (hlocate (heapStart + 9)).2.2.2.trans (by decide)⟩

end Primer.Memory
