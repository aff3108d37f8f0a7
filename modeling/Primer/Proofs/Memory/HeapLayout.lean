import Primer.Proofs.Memory.HeapCourse

/-!
# The layout of the heap

The blocks of a heap tile the addresses from `heapStart` to `next`: none is empty, the first begins
at `heapStart`, each other one where the one before it ends, and the last ends at `next`. Every
course keeps this (`Course.tiled`). Two blocks that share an address are therefore one
(`Tiles.eq_of_inside`), and `block?` and `locate` find a block exactly if it is there.
-/

namespace Primer.Memory

/-- The blocks lie one directly after another from `start` to `stop`, none of them empty. -/
def Tiles : (start : Nat) → List (Address × Block) → (stop : Nat) → Prop
  | start, [], stop => start = stop
  | start, (base, block) :: rest, stop =>
    base = start ∧ 0 < block.size ∧ Tiles (start + block.size) rest stop

namespace Tiles

variable {start middle stop base other address : Nat} {block block' : Block}
  {blocks front back : List (Address × Block)}

theorem append (hfront : Tiles start front middle) (hback : Tiles middle back stop) :
    Tiles start (front ++ back) stop := by
  induction front generalizing start with
  | nil =>
    cases hfront
    exact hback
  | cons entry rest ih =>
    obtain ⟨begins, positive, rest⟩ := hfront
    exact ⟨begins, positive, ih rest⟩

theorem le (tiles : Tiles start blocks stop) : start ≤ stop := by
  induction blocks generalizing start with
  | nil => exact Nat.le_of_eq tiles
  | cons entry rest ih =>
    have := ih tiles.2.2
    omega

theorem bounds (tiles : Tiles start blocks stop) (mem : (base, block) ∈ blocks) :
    start ≤ base ∧ 0 < block.size ∧ base + block.size ≤ stop := by
  induction blocks generalizing start with
  | nil => cases mem
  | cons entry rest ih =>
    obtain ⟨begins, positive, tail⟩ := tiles
    rcases List.mem_cons.1 mem with here | there
    · cases here
      subst begins
      exact ⟨Nat.le_refl base, positive, tail.le⟩
    · obtain ⟨low, positive', high⟩ := ih tail there
      exact ⟨by omega, positive', high⟩

/-- Two blocks that contain the same address are the same block. -/
theorem eq_of_inside (tiles : Tiles start blocks stop) (mem : (base, block) ∈ blocks)
    (mem' : (other, block') ∈ blocks) (low : base ≤ address) (high : address < base + block.size)
    (low' : other ≤ address) (high' : address < other + block'.size) :
    base = other ∧ block = block' := by
  induction blocks generalizing start with
  | nil => cases mem
  | cons entry rest ih =>
    obtain ⟨begins, positive, tail⟩ := tiles
    rcases List.mem_cons.1 mem with here | there <;>
      rcases List.mem_cons.1 mem' with here' | there'
    · cases here
      cases here'
      exact ⟨rfl, rfl⟩
    · cases here
      subst begins
      have above : base + block.size ≤ other := (tail.bounds there').1
      omega
    · cases here'
      subst begins
      have above : other + block'.size ≤ base := (tail.bounds there).1
      omega
    · exact ih tail there there'

theorem eq_of_base (tiles : Tiles start blocks stop) (mem : (base, block) ∈ blocks)
    (mem' : (base, block') ∈ blocks) : block = block' := by
  have positive := (tiles.bounds mem).2.1
  have positive' := (tiles.bounds mem').2.1
  exact (tiles.eq_of_inside mem mem' (Nat.le_refl base) (by omega) (Nat.le_refl base)
    (by omega)).2

/-- Replacing a block by one of the same size keeps the tiling. -/
theorem replace (tiles : Tiles start blocks stop)
    (size : ∀ {old}, (base, old) ∈ blocks → block.size = old.size) :
    Tiles start (blocks.map fun entry => if entry.1 = base then (entry.1, block) else entry)
      stop := by
  induction blocks generalizing start with
  | nil => exact tiles
  | cons entry rest ih =>
    obtain ⟨begins, positive, tail⟩ := tiles
    have rest' := ih tail fun mem => size (List.mem_cons_of_mem entry mem)
    simp only [List.map_cons]
    by_cases here : entry.1 = base
    · have same : block.size = entry.2.size := by
        refine size (List.mem_cons.2 (.inl ?_))
        rw [← here]
      simp only [here, if_true]
      refine ⟨here ▸ begins, same ▸ positive, ?_⟩
      rw [same]
      exact rest'
    · simp only [here, if_false]
      exact ⟨begins, positive, rest'⟩

end Tiles

namespace Heap

/-- The blocks tile the heap up to where the next one will begin. -/
def Tiled (heap : Heap) : Prop := Tiles heapStart heap.blocks heap.next

variable {heap : Heap} {base other address : Nat} {block found : Block}

/-- After a block was put in the place of another, it is found there, and everything else as
before. -/
theorem mem_setBlock :
    (other, found) ∈ (heap.setBlock base block).blocks ↔
      (other = base ∧ found = block ∧ ∃ old, (base, old) ∈ heap.blocks) ∨
        (other ≠ base ∧ (other, found) ∈ heap.blocks) := by
  unfold setBlock
  simp only [List.mem_map]
  constructor
  · rintro ⟨⟨start, old⟩, mem, same⟩
    by_cases here : start = base
    · simp only [here, if_true, Prod.mk.injEq] at same
      exact .inl ⟨same.1.symm, same.2.symm, old, here ▸ mem⟩
    · simp only [here, if_false, Prod.mk.injEq] at same
      obtain ⟨rfl, rfl⟩ := same
      exact .inr ⟨here, mem⟩
  · rintro (⟨rfl, rfl, old, mem⟩ | ⟨away, mem⟩)
    · exact ⟨(other, old), mem, by simp⟩
    · exact ⟨(other, found), mem, by simp [away]⟩

/-- Putting a block in the place of one of the same size keeps bases and sizes. -/
theorem exists_mem_setBlock_iff {old : Block} {size : Nat} (mem : (base, old) ∈ heap.blocks)
    (unique : ∀ {other}, (base, other) ∈ heap.blocks → other = old)
    (same : block.size = old.size) :
    (∃ found, (other, found) ∈ (heap.setBlock base block).blocks ∧ found.size = size) ↔
      ∃ found, (other, found) ∈ heap.blocks ∧ found.size = size := by
  constructor
  · rintro ⟨found, mem', sized⟩
    rcases mem_setBlock.1 mem' with ⟨rfl, rfl, _⟩ | ⟨away, kept⟩
    · exact ⟨old, mem, same ▸ sized⟩
    · exact ⟨found, kept, sized⟩
  · rintro ⟨found, mem', sized⟩
    by_cases here : other = base
    · subst here
      rw [unique mem'] at sized
      exact ⟨block, mem_setBlock.2 (.inl ⟨rfl, rfl, old, mem⟩), same.trans sized⟩
    · exact ⟨found, mem_setBlock.2 (.inr ⟨here, mem'⟩), sized⟩

theorem mem_of_blockAt {blocks : List (Address × Block)} (hit : blockAt base blocks = some block) :
    (base, block) ∈ blocks := by
  induction blocks with
  | nil => cases hit
  | cons entry rest ih =>
    unfold blockAt at hit
    by_cases here : entry.1 = base
    · simp only [here, if_true, Option.some.injEq] at hit
      rw [← here, ← hit]
      exact List.mem_cons_self
    · simp only [here, if_false] at hit
      exact List.mem_cons_of_mem entry (ih hit)

theorem blockAt_of_mem {blocks : List (Address × Block)} (mem : (base, block) ∈ blocks) :
    ∃ hit, blockAt base blocks = some hit := by
  induction blocks with
  | nil => cases mem
  | cons entry rest ih =>
    unfold blockAt
    by_cases here : entry.1 = base
    · exact ⟨entry.2, by simp [here]⟩
    · rcases List.mem_cons.1 mem with rfl | there
      · exact absurd rfl here
      · simpa only [here, if_false] using ih there

/-- The block that begins at an address is found exactly if it is there. -/
theorem Tiled.block?_eq_some_iff (tiled : heap.Tiled) :
    heap.block? base = some block ↔ (base, block) ∈ heap.blocks := by
  constructor
  · exact mem_of_blockAt
  · intro mem
    obtain ⟨hit, found⟩ := blockAt_of_mem mem
    rw [Tiles.eq_of_base tiled mem (mem_of_blockAt found)]
    exact found

theorem locate_of_outside
    (outside : ∀ {base block}, (base, block) ∈ heap.blocks →
      ¬ (base ≤ address ∧ address < base + block.size)) :
    heap.locate address = .error (.invalidAddress address) := by
  unfold locate
  split
  · next base block found =>
    have inside := List.find?_some found
    simp only [decide_eq_true_eq] at inside
    exact absurd inside (outside (List.mem_of_find?_eq_some found))
  · rfl

/-- An address inside a block is located in that block. -/
theorem Tiled.locate_of_inside (tiled : heap.Tiled) (mem : (base, block) ∈ heap.blocks)
    (low : base ≤ address) (high : address < base + block.size) :
    heap.locate address = .ok (base, address - base) := by
  cases located : heap.locate address with
  | error fault =>
    unfold locate at located
    split at located
    · cases located
    · next missed =>
      have := List.find?_eq_none.1 missed (base, block) mem
      simp [low, high] at this
  | ok place =>
    obtain ⟨other, offset⟩ := place
    obtain ⟨block', mem', sum, inside⟩ := mem_of_locate located
    have := (Tiles.eq_of_inside tiled mem mem' low high (by omega) (by omega)).1
    subst this
    rw [← sum, Nat.add_sub_cancel_left]

/-- Whatever happens to a heap, its blocks still lie one directly after another. -/
theorem Tiled.change {after : Heap} {event : Event} (tiled : heap.Tiled)
    (changed : heap.Change event after) : after.Tiled := by
  cases changed with
  | allocate positive fits =>
    exact Tiles.append tiled ⟨rfl, by rwa [Block.size_fresh], by rw [Block.size_fresh]; rfl⟩
  | free found live =>
    refine Tiles.replace tiled fun mem => ?_
    rw [Tiles.eq_of_base tiled mem (mem_of_blockAt found)]
    rfl
  | write found live fits =>
    refine Tiles.replace tiled fun mem => ?_
    rw [Tiles.eq_of_base tiled mem (mem_of_blockAt found)]
    simp [Block.size]

end Heap

/-- The blocks of every course tile its heap. -/
theorem Course.tiled (limit : Nat) (actions : List Action) : (Course.of limit actions).heap.Tiled :=
  Course.induction (motive := fun _ heap => heap.Tiled) rfl
    (fun tiled changed => tiled.change changed) actions

end Primer.Memory
