import Primer.Memory.Slab
import Primer.Proofs.Memory.InPlace

/-!
# The written bytes of a slab

A `Patch` is a piece of bytes with the offset it is to be written at. Whether it is written depends
on its extent and the size of the slab alone (`Patch.Fits`), where the end of the extent is a natural
number: the check in 64 bits misses nothing (`Slab.write_of_fits`, `Slab.write_of_overrun`). Bytes
and marks of a slab stay as long as the slab is and follow the patches that were written
(`Slab.Tracks`), one patch after another (`Slab.Tracks.step`, `Slab.Tracks.after`). So a place is
marked if one of these patches covers it, and holds the byte of the last one that does
(`slab_tracks_written_bytes`). A slab shows the block to which the same was written
(`Slab.Whole.block_after`).
-/

namespace Primer.Memory

/-- A piece and where it is to be written. -/
structure Patch where
  offset : UInt64
  piece : Piece
deriving Repr, DecidableEq

namespace Patch

/-- The patch lies in a slab of this size. -/
def Fits (patch : Patch) (size : UInt64) : Prop :=
  patch.offset.toNat + patch.piece.bytes.length ≤ size.toNat

/-- The patch has a byte for this place. -/
def Covers (patch : Patch) (index : Nat) : Prop :=
  patch.offset.toNat ≤ index ∧ index < patch.offset.toNat + patch.piece.bytes.length

/-- The patch lies in a slab of this size and has a byte for this place. -/
def Reaches (patch : Patch) (size : UInt64) (index : Nat) : Prop :=
  patch.Fits size ∧ patch.Covers index

instance (patch : Patch) (size : UInt64) : Decidable (patch.Fits size) :=
  inferInstanceAs (Decidable (_ ≤ _))

instance (patch : Patch) (index : Nat) : Decidable (patch.Covers index) :=
  inferInstanceAs (Decidable (_ ∧ _))

instance (patch : Patch) (size : UInt64) (index : Nat) : Decidable (patch.Reaches size index) :=
  inferInstanceAs (Decidable (_ ∧ _))

/-- The byte that the patch has for a place. -/
def byte? (patch : Patch) (index : Nat) : Option UInt8 :=
  patch.piece.bytes[index - patch.offset.toNat]?

theorem Covers.exists_byte {patch : Patch} {index : Nat} (covers : patch.Covers index) :
    ∃ byte, patch.byte? index = some byte := by
  obtain ⟨hlow, hhigh⟩ := covers
  exact ⟨_, List.getElem?_eq_getElem (by omega)⟩

end Patch

/-! ## The last byte written to a place -/

/-- The byte that the last of the patches to reach a place has for it. -/
def lastByte (size : UInt64) (patches : List Patch) (index : Nat) : Option UInt8 :=
  patches.reverse.findSome? fun patch => if patch.Reaches size index then patch.byte? index else none

section LastByte

variable {size : UInt64} {patches earlier later : List Patch} {patch : Patch} {index : Nat}

theorem lastByte_append :
    lastByte size (earlier ++ later) index =
      (lastByte size later index).or (lastByte size earlier index) := by
  unfold lastByte
  rw [List.reverse_append, List.findSome?_append]

theorem lastByte_singleton :
    lastByte size [patch] index =
      if patch.Reaches size index then patch.byte? index else none := by
  simp [lastByte, List.findSome?_singleton]

theorem lastByte_concat_of_reaches (reaches : patch.Reaches size index) :
    lastByte size (patches ++ [patch]) index = patch.byte? index := by
  obtain ⟨byte, hbyte⟩ := reaches.2.exists_byte
  rw [lastByte_append, lastByte_singleton, if_pos reaches, hbyte, Option.some_or]

theorem lastByte_concat_of_not_reaches (misses : ¬ patch.Reaches size index) :
    lastByte size (patches ++ [patch]) index = lastByte size patches index := by
  rw [lastByte_append, lastByte_singleton, if_neg misses, Option.none_or]

theorem isSome_lastByte_iff :
    (lastByte size patches index).isSome ↔ ∃ patch ∈ patches, patch.Reaches size index := by
  unfold lastByte
  rw [List.findSome?_isSome_iff]
  constructor
  · rintro ⟨patch, hmem, hsome⟩
    by_cases hreaches : patch.Reaches size index
    · exact ⟨patch, List.mem_reverse.1 hmem, hreaches⟩
    · rw [if_neg hreaches] at hsome
      cases hsome
  · rintro ⟨patch, hmem, hreaches⟩
    refine ⟨patch, List.mem_reverse.2 hmem, ?_⟩
    rw [if_pos hreaches]
    exact Option.isSome_iff_exists.2 hreaches.2.exists_byte

theorem lastByte_eq_none (misses : ∀ patch ∈ patches, ¬ patch.Reaches size index) :
    lastByte size patches index = none := by
  rw [← Option.not_isSome_iff_eq_none, isSome_lastByte_iff]
  rintro ⟨patch, hmem, hreaches⟩
  exact misses patch hmem hreaches

/-- After the last patch that reaches a place, the byte is that of the patch. -/
theorem lastByte_of_last (reaches : patch.Reaches size index)
    (misses : ∀ other ∈ later, ¬ other.Reaches size index) :
    lastByte size (earlier ++ patch :: later) index = patch.byte? index := by
  rw [List.append_cons, lastByte_append, lastByte_eq_none misses, Option.none_or,
    lastByte_concat_of_reaches reaches]

end LastByte

/-! ## One patch -/

namespace Slab

variable {slab : Slab} {patch : Patch} {index : Nat}

/-- The slab with a patch that lies in it. -/
def patched (slab : Slab) (patch : Patch) : Slab :=
  { slab with
    data := overwrite slab.data patch.offset.toNat patch.piece.bytes
    marks := overwrite slab.marks patch.offset.toNat
      (List.replicate patch.piece.bytes.length true) }

/-- A patch that fits is written whole: its bytes and a mark for each. -/
theorem write_of_fits (fits : patch.Fits slab.size) :
    write patch.offset patch.piece slab = .ok () (slab.patched patch) := by
  cases hend : slab.rangeEnd? patch.offset patch.piece.length with
  | none =>
    have hbeyond := rangeEnd?_eq_none_iff.1 hend
    rw [Piece.toNat_length] at hbeyond
    exact absurd fits (Nat.not_le_of_lt hbeyond)
  | some stop =>
    have hstop := (rangeEnd?_eq_some_iff.1 hend).1
    rw [Piece.toNat_length] at hstop
    have hcount : (stop - patch.offset).toNat = patch.piece.bytes.length := by
      rw [UInt64.toNat_sub_of_le _ _ (by rw [UInt64.le_iff_toNat_le]; omega)]
      omega
    simp only [write, get_bind_apply, hend]
    show EStateM.Result.ok () { slab with
      data := _
      marks := overwrite slab.marks _ (List.replicate (stop - patch.offset).toNat true) } = _
    rw [hcount]
    rfl

/-- A patch that does not fit is refused and changes neither array. This holds also if its end takes
more than 64 bits. -/
theorem write_of_overrun (overrun : ¬ patch.Fits slab.size) :
    write patch.offset patch.piece slab = .error (.bufferOverrun patch.offset.toNat
      patch.piece.bytes.length slab.size.toNat) slab := by
  have hend : slab.rangeEnd? patch.offset patch.piece.length = none := by
    rw [rangeEnd?_eq_none_iff, Piece.toNat_length]
    exact Nat.lt_of_not_le overrun
  simp only [write, get_bind_apply, hend]
  rfl

/-- Bytes and marks are as many as the slab says. -/
structure Whole (slab : Slab) : Prop where
  data : slab.data.size = slab.size.toNat
  marks : slab.marks.size = slab.size.toNat

namespace Whole

theorem fresh (size : UInt64) : Whole (.fresh size) := ⟨Array.size_replicate, Array.size_replicate⟩

theorem patched (whole : slab.Whole) (patch : Patch) : (slab.patched patch).Whole :=
  ⟨(size_overwrite ..).trans whole.data, (size_overwrite ..).trans whole.marks⟩

theorem data_of_covers (whole : slab.Whole) (fits : patch.Fits slab.size)
    (covers : patch.Covers index) : (slab.patched patch).data[index]? = patch.byte? index := by
  have hinside : index < slab.data.size := whole.data ▸ Nat.lt_of_lt_of_le covers.2 fits
  exact (getElem?_overwrite ..).trans (if_pos ⟨covers.1, covers.2, hinside⟩)

theorem marks_of_covers (whole : slab.Whole) (fits : patch.Fits slab.size)
    (covers : patch.Covers index) : (slab.patched patch).marks[index]? = some true := by
  obtain ⟨hlow, hhigh⟩ := covers
  have hinside : index < slab.marks.size := whole.marks ▸ Nat.lt_of_lt_of_le hhigh fits
  have hmark : index - patch.offset.toNat < patch.piece.bytes.length := by omega
  rw [Slab.patched, getElem?_overwrite, List.length_replicate, if_pos ⟨hlow, hhigh, hinside⟩,
    List.getElem?_replicate, if_pos hmark]

end Whole

theorem data_of_not_covers (slab : Slab) (misses : ¬ patch.Covers index) :
    (slab.patched patch).data[index]? = slab.data[index]? :=
  (getElem?_overwrite ..).trans (if_neg fun covers => misses ⟨covers.1, covers.2.1⟩)

theorem marks_of_not_covers (slab : Slab) (misses : ¬ patch.Covers index) :
    (slab.patched patch).marks[index]? = slab.marks[index]? := by
  refine (getElem?_overwrite ..).trans (if_neg fun covers => misses ⟨covers.1, ?_⟩)
  simpa using covers.2.1

/-! ## Patches one after another -/

/-- The slab after a patch, whether it was written or refused. -/
def step (slab : Slab) (patch : Patch) : Slab :=
  match write patch.offset patch.piece slab with
  | .ok _ after => after
  | .error _ after => after

/-- The slab after patches that are written one after another. -/
def after (slab : Slab) (patches : List Patch) : Slab := patches.foldl step slab

theorem step_of_fits (fits : patch.Fits slab.size) : slab.step patch = slab.patched patch := by
  rw [step, write_of_fits fits]

theorem step_of_overrun (overrun : ¬ patch.Fits slab.size) : slab.step patch = slab := by
  rw [step, write_of_overrun overrun]

/-- The slab has this size and holds what the patches have left in it. -/
structure Tracks (slab : Slab) (size : UInt64) (patches : List Patch) : Prop where
  size_eq : slab.size = size
  whole : slab.Whole
  live : slab.released = false
  marks : ∀ {index}, index < size.toNat →
    slab.marks[index]? = some (lastByte size patches index).isSome
  data : ∀ {index}, index < size.toNat →
    slab.data[index]? = some ((lastByte size patches index).getD 0)

namespace Tracks

variable {size : UInt64} {patches : List Patch}

theorem fresh (size : UInt64) : (Slab.fresh size).Tracks size [] where
  size_eq := rfl
  whole := .fresh size
  live := rfl
  marks inside := by simp [Slab.fresh, lastByte, inside]
  data inside := by simp [Slab.fresh, lastByte, inside]

/-- A patch that fits is the last one for all places that it covers. -/
theorem patched (tracks : slab.Tracks size patches) (fits : patch.Fits size) :
    (slab.patched patch).Tracks size (patches ++ [patch]) := by
  obtain ⟨rfl, hwhole, hlive, hmarks, hdata⟩ := tracks
  refine ⟨rfl, hwhole.patched patch, hlive, ?_, ?_⟩
  · intro index hinside
    by_cases hcovers : patch.Covers index
    · obtain ⟨byte, hbyte⟩ := hcovers.exists_byte
      rw [hwhole.marks_of_covers fits hcovers, lastByte_concat_of_reaches ⟨fits, hcovers⟩, hbyte]
      rfl
    · rw [marks_of_not_covers slab hcovers,
        lastByte_concat_of_not_reaches fun reaches => hcovers reaches.2, hmarks hinside]
  · intro index hinside
    by_cases hcovers : patch.Covers index
    · obtain ⟨byte, hbyte⟩ := hcovers.exists_byte
      rw [hwhole.data_of_covers fits hcovers, lastByte_concat_of_reaches ⟨fits, hcovers⟩, hbyte]
      rfl
    · rw [data_of_not_covers slab hcovers,
        lastByte_concat_of_not_reaches fun reaches => hcovers reaches.2, hdata hinside]

theorem step (tracks : slab.Tracks size patches) (patch : Patch) :
    (slab.step patch).Tracks size (patches ++ [patch]) := by
  by_cases hfits : patch.Fits size
  · rw [step_of_fits (tracks.size_eq.symm ▸ hfits)]
    exact tracks.patched hfits
  · -- A refused patch leaves slab and last bytes as they were.
    have hlast : ∀ index, lastByte size (patches ++ [patch]) index = lastByte size patches index :=
      fun index => lastByte_concat_of_not_reaches fun reaches => hfits reaches.1
    rw [step_of_overrun (tracks.size_eq.symm ▸ hfits)]
    refine ⟨tracks.size_eq, tracks.whole, tracks.live, ?_, ?_⟩
    · intro index hinside
      rw [hlast, tracks.marks hinside]
    · intro index hinside
      rw [hlast, tracks.data hinside]

theorem after (tracks : slab.Tracks size patches) (more : List Patch) :
    (slab.after more).Tracks size (patches ++ more) := by
  induction more generalizing slab patches with
  | nil =>
    rw [List.append_nil]
    exact tracks
  | cons patch rest ih =>
    have hrest := ih (tracks.step patch)
    rwa [List.append_assoc] at hrest

theorem exists_write_eq_ok_iff (tracks : slab.Tracks size patches) :
    (∃ after, write patch.offset patch.piece slab = .ok () after) ↔ patch.Fits size := by
  rw [← tracks.size_eq]
  constructor
  · rintro ⟨after, hwrote⟩
    apply Decidable.byContradiction
    intro hoverrun
    rw [write_of_overrun hoverrun] at hwrote
    cases hwrote
  · intro hfits
    exact ⟨_, write_of_fits hfits⟩

theorem marks_eq_true_iff (tracks : slab.Tracks size patches) (inside : index < size.toNat) :
    slab.marks[index]? = some true ↔ ∃ patch ∈ patches, patch.Reaches size index := by
  rw [tracks.marks inside, Option.some.injEq, isSome_lastByte_iff]

/-- A place holds the byte of the last patch that reached it. -/
theorem data_of_last {earlier later : List Patch}
    (tracks : slab.Tracks size (earlier ++ patch :: later)) (inside : index < size.toNat)
    (reaches : patch.Reaches size index) (misses : ∀ other ∈ later, ¬ other.Reaches size index) :
    slab.data[index]? = patch.byte? index := by
  obtain ⟨byte, hbyte⟩ := reaches.2.exists_byte
  rw [tracks.data inside, lastByte_of_last reaches misses, hbyte]
  rfl

theorem data_of_none (tracks : slab.Tracks size patches) (inside : index < size.toNat)
    (misses : ∀ patch ∈ patches, ¬ patch.Reaches size index) : slab.data[index]? = some 0 := by
  rw [tracks.data inside, lastByte_eq_none misses]
  rfl

end Tracks

/-! ## Ranges that were written -/

/-- What holds of all items of a range holds at each of its places. -/
theorem all_extract_iff {α : Type} {items : Array α} {holds : α → Bool} {start stop : Nat}
    (inside : stop ≤ items.size) :
    (items.extract start stop).all holds = true ↔
      ∀ index, start ≤ index → index < stop → items[index]?.any holds = true := by
  rw [Array.all_eq_true]
  simp only [Array.size_extract, Array.getElem_extract, Nat.min_eq_left inside]
  constructor
  · intro hall index hlow hhigh
    have hitem := hall (index - start) (by omega)
    rw [Array.getElem?_eq_getElem (by omega), Option.any_some, ← hitem]
    simp only [Nat.add_sub_cancel' hlow]
  · intro hall index hindex
    have hitem := hall (start + index) (by omega) (by omega)
    rwa [Array.getElem?_eq_getElem (by omega), Option.any_some] at hitem

/-- A range is initialized if and only if it lies in the slab and each of its places is marked. -/
theorem Whole.isInitialized_iff (whole : slab.Whole) {offset length : UInt64} :
    slab.isInitialized offset length = true ↔
      offset.toNat + length.toNat ≤ slab.size.toNat ∧
        ∀ index, offset.toNat ≤ index → index < offset.toNat + length.toNat →
          slab.marks[index]? = some true := by
  unfold isInitialized
  cases hend : slab.rangeEnd? offset length with
  | none =>
    have hbeyond := Nat.not_le_of_lt (rangeEnd?_eq_none_iff.1 hend)
    simp [hbeyond]
  | some stop =>
    obtain ⟨hstop, hinside⟩ := rangeEnd?_eq_some_iff.1 hend
    rw [all_extract_iff (by rw [hstop, whole.marks]; exact hinside), hstop]
    simp [hinside, Option.any_eq_true]

/-- A range is initialized if and only if it lies in the slab and each of its places was reached by
some patch. -/
theorem Tracks.isInitialized_iff {size : UInt64} {patches : List Patch}
    (tracks : slab.Tracks size patches) {offset length : UInt64} :
    slab.isInitialized offset length = true ↔
      offset.toNat + length.toNat ≤ size.toNat ∧
        ∀ index, offset.toNat ≤ index → index < offset.toNat + length.toNat →
          ∃ patch ∈ patches, patch.Reaches size index := by
  rw [tracks.whole.isInitialized_iff, tracks.size_eq]
  refine and_congr_right fun hinside => forall_congr' fun index => ?_
  constructor
  · intro hmarks hlow hhigh
    exact (tracks.marks_eq_true_iff (by omega)).1 (hmarks hlow hhigh)
  · intro hreached hlow hhigh
    exact (tracks.marks_eq_true_iff (by omega)).2 (hreached hlow hhigh)

end Slab

/-! ## The block that a slab shows -/

/-- The block after patches that are written one after another, those that do not fit left out. -/
def Block.after (block : Block) (patches : List Patch) : Block :=
  patches.foldl (fun block patch =>
    match block.write patch.offset.toNat patch.piece.bytes with
    | .ok after => after
    | .error _ => block) block

namespace Slab

variable {slab : Slab} {patch : Patch} {index : Nat}

theorem block_fresh (size : UInt64) : (fresh size).block = Block.fresh size.toNat := by
  unfold block Block.fresh
  congr 1
  apply Array.ext_getElem?
  intro index
  by_cases hinside : index < size.toNat <;> simp [fresh, hinside]

/-- A cell of the block shows the byte if its place is marked. -/
theorem cell_eq {byte : UInt8} {mark : Bool} (data : slab.data[index]? = some byte)
    (marks : slab.marks[index]? = some mark) :
    slab.block.cells[index]? = some (if mark then some byte else none) := by
  simp only [block, Array.getElem?_zipWith, data, marks]

namespace Whole

theorem size_block (whole : slab.Whole) : slab.block.size = slab.size.toNat := by
  simp [Block.size, block, whole.data, whole.marks]

theorem exists_getElem? (whole : slab.Whole) (inside : index < slab.size.toNat) :
    ∃ byte mark, slab.data[index]? = some byte ∧ slab.marks[index]? = some mark :=
  ⟨_, _, Array.getElem?_eq_getElem (whole.data ▸ inside),
    Array.getElem?_eq_getElem (whole.marks ▸ inside)⟩

/-- A patch changes the cells of the block that is seen as it changes data and marks. -/
theorem block_patched (whole : slab.Whole) (fits : patch.Fits slab.size) :
    (slab.patched patch).block = { slab.block with
      cells := writeCells slab.block.cells patch.offset.toNat patch.piece.bytes } := by
  have hsize : slab.block.cells.size = slab.size.toNat := whole.size_block
  have hsize' : (slab.patched patch).block.cells.size = slab.size.toNat :=
    (whole.patched patch).size_block
  have hcells : (slab.patched patch).block.cells =
      writeCells slab.block.cells patch.offset.toNat patch.piece.bytes := by
    apply Array.ext_getElem?
    intro index
    by_cases hinside : index < slab.size.toNat
    · by_cases hcovers : patch.Covers index
      · obtain ⟨byte, hbyte⟩ := hcovers.exists_byte
        have hwritten := (getElem?_writeCells slab.block.cells patch.offset.toNat index
          patch.piece.bytes).trans (if_pos ⟨hcovers.1, hcovers.2, hsize ▸ hinside⟩)
        rw [hwritten, cell_eq ((whole.data_of_covers fits hcovers).trans hbyte)
          (whole.marks_of_covers fits hcovers)]
        exact congrArg some hbyte.symm
      · obtain ⟨byte, mark, hbyte, hmark⟩ := whole.exists_getElem? hinside
        have hkept := (getElem?_writeCells slab.block.cells patch.offset.toNat index
          patch.piece.bytes).trans (if_neg fun covers => hcovers ⟨covers.1, covers.2.1⟩)
        rw [hkept, cell_eq hbyte hmark, cell_eq ((data_of_not_covers slab hcovers).trans hbyte)
          ((marks_of_not_covers slab hcovers).trans hmark)]
    · rw [Array.getElem?_eq_none (by omega),
        Array.getElem?_eq_none (by rw [size_writeCells]; omega)]
  rw [← hcells]
  rfl

/-- A write to a slab is the write to the block that it shows. -/
theorem write_follows (whole : slab.Whole) (patch : Patch) :
    Follows Whole (fun _ slab => slab.block) slab (write patch.offset patch.piece slab)
      (slab.block.write patch.offset.toNat patch.piece.bytes) := by
  unfold Block.write
  rw [whole.size_block]
  by_cases hfits : patch.offset.toNat + patch.piece.bytes.length ≤ slab.size.toNat
  · rw [write_of_fits hfits, if_pos hfits, ← whole.block_patched hfits]
    exact .done (whole.patched patch)
  · rw [write_of_overrun hfits, if_neg hfits]
    exact .refused

/-- A range is initialized in a slab as it is in the block that the slab shows. -/
theorem isInitialized_block (whole : slab.Whole) (offset length : UInt64) :
    slab.block.isInitialized offset.toNat length.toNat = slab.isInitialized offset length := by
  rw [Bool.eq_iff_iff, whole.isInitialized_iff]
  unfold Block.isInitialized Block.range
  rw [whole.size_block]
  by_cases hinside : offset.toNat + length.toNat ≤ slab.size.toNat
  · simp only [hinside, if_true, true_and, Array.all_toList]
    rw [all_extract_iff (by rw [← Block.size, whole.size_block]; exact hinside)]
    refine forall_congr' fun index => imp_congr_right fun hlow => imp_congr_right fun hhigh => ?_
    have hplace : index < slab.size.toNat := by omega
    obtain ⟨byte, mark, hbyte, hmark⟩ := whole.exists_getElem? hplace
    rw [cell_eq hbyte hmark, hmark]
    cases mark <;> simp
  · simp [hinside]

/-- After any patches a slab shows the block after the same patches. -/
theorem block_after (whole : slab.Whole) (patches : List Patch) :
    (slab.after patches).block = slab.block.after patches := by
  induction patches generalizing slab with
  | nil => rfl
  | cons patch rest ih =>
    have hfollows := whole.write_follows patch
    show ((slab.step patch).after rest).block = _
    unfold step Block.after
    rw [List.foldl_cons]
    generalize write patch.offset patch.piece slab = result at hfollows ⊢
    generalize slab.block.write patch.offset.toNat patch.piece.bytes = seen at hfollows ⊢
    cases hfollows with
    | done kept => exact ih kept
    | refused => exact ih whole

end Whole

end Slab

/-- **A slab tracks exactly the written bytes.** Take a slab of any size and write patches to it, with
any offsets and any bytes. A patch is written exactly if its offset and length, added as natural
numbers, do not exceed the size; otherwise it is refused with its offset and length and the size of
the slab, and changes nothing. There are always as many bytes and marks as the slab has places. A
place is marked exactly if one of the patches that were written covers it, and holds the byte of the
last one that does, or zero if none does. A range counts as initialized exactly if it lies in the
slab, with a natural number as its end, and each of its places was covered; it stays so whatever is
written afterwards. The block that the slab shows is the one to which the same patches were written,
with the same ranges initialized. -/
theorem slab_tracks_written_bytes (size : UInt64) (patches : List Patch) :
    let slab := (Slab.fresh size).after patches
    (∀ patch : Patch,
        ((∃ after, Slab.write patch.offset patch.piece slab = .ok () after) ↔
          patch.offset.toNat + patch.piece.bytes.length ≤ size.toNat) ∧
        (¬ patch.offset.toNat + patch.piece.bytes.length ≤ size.toNat →
          Slab.write patch.offset patch.piece slab = .error (.bufferOverrun patch.offset.toNat
            patch.piece.bytes.length size.toNat) slab)) ∧
      (slab.size = size ∧ slab.released = false ∧ slab.data.size = size.toNat ∧
        slab.marks.size = size.toNat) ∧
      (∀ index, index < size.toNat →
        (slab.marks[index]? = some true ↔ ∃ patch ∈ patches, patch.Reaches size index) ∧
        (∀ earlier patch later, patches = earlier ++ patch :: later → patch.Reaches size index →
          (∀ other ∈ later, ¬ other.Reaches size index) →
          slab.data[index]? = patch.piece.bytes[index - patch.offset.toNat]?) ∧
        ((∀ patch ∈ patches, ¬ patch.Reaches size index) → slab.data[index]? = some 0)) ∧
      (∀ offset length : UInt64,
        (slab.isInitialized offset length = true ↔
          offset.toNat + length.toNat ≤ size.toNat ∧
            ∀ index, offset.toNat ≤ index → index < offset.toNat + length.toNat →
              ∃ patch ∈ patches, patch.Reaches size index) ∧
        ∀ more, slab.isInitialized offset length = true →
          (slab.after more).isInitialized offset length = true) ∧
      slab.block = (Block.fresh size.toNat).after patches ∧
      ∀ offset length : UInt64, slab.block.isInitialized offset.toNat length.toNat =
        slab.isInitialized offset length := by
  intro slab
  have tracks : slab.Tracks size patches := (Slab.Tracks.fresh size).after patches
  refine ⟨?_, ?_, ?_, ?_, ?_, tracks.whole.isInitialized_block⟩
  · intro patch
    refine ⟨tracks.exists_write_eq_ok_iff, ?_⟩
    rw [← tracks.size_eq]
    exact Slab.write_of_overrun
  · refine ⟨tracks.size_eq, tracks.live, ?_, ?_⟩
    · rw [tracks.whole.data, tracks.size_eq]
    · rw [tracks.whole.marks, tracks.size_eq]
  · intro index hinside
    refine ⟨tracks.marks_eq_true_iff hinside, ?_, tracks.data_of_none hinside⟩
    intro earlier patch later hpatches
    exact (hpatches ▸ tracks).data_of_last hinside
  · intro offset length
    refine ⟨tracks.isInitialized_iff, ?_⟩
    intro more hinitialized
    obtain ⟨hfits, hreached⟩ := tracks.isInitialized_iff.1 hinitialized
    refine (tracks.after more).isInitialized_iff.2 ⟨hfits, ?_⟩
    intro index hlow hhigh
    obtain ⟨patch, hmem, hreaches⟩ := hreached index hlow hhigh
    exact ⟨patch, List.mem_append_left more hmem, hreaches⟩
  · rw [← Slab.block_fresh]
    exact (Slab.Whole.fresh size).block_after patches

/-- Two patches that overlap, and between them one whose end is 1 if it is counted in 64 bits. -/
theorem patch_that_goes_round_is_refused :
    let first : Patch := ⟨0, ⟨[1, 2], by decide⟩⟩
    let round : Patch := ⟨18446744073709551615, ⟨[9, 9], by decide⟩⟩
    let second : Patch := ⟨1, ⟨[7, 8], by decide⟩⟩
    let slab := (Slab.fresh 4).after [first, round, second]
    round.offset + round.piece.length = 1 ∧
      ¬ round.offset.toNat + round.piece.bytes.length ≤ (4 : UInt64).toNat ∧
      Slab.write round.offset round.piece slab =
        .error (.bufferOverrun 18446744073709551615 2 4) slab ∧
      second.Reaches 4 1 ∧ slab.data[1]? = some 7 ∧
      (∀ patch ∈ [first, round, second], ¬ patch.Reaches 4 3) ∧ slab.data[3]? = some 0 ∧
      slab.isInitialized 0 3 = true ∧ (slab.after [round, first]).isInitialized 0 3 = true := by
  intro first round second slab
  obtain ⟨hwrite, _, hcells, hranges, _⟩ := slab_tracks_written_bytes 4 [first, round, second]
  have hround : ¬ round.offset.toNat + round.piece.bytes.length ≤ (4 : UInt64).toNat := by decide
  have hsecond : second.Reaches 4 1 := by decide
  have hlast : ∀ patch ∈ [first, round, second], ¬ patch.Reaches 4 3 := by decide
  have hcovered : ∀ index < 3, ∃ patch ∈ [first, round, second], patch.Reaches 4 index := by decide
  have hinitialized : slab.isInitialized 0 3 = true :=
    (hranges 0 3).1.2 ⟨by decide, fun index _ hhigh => hcovered index hhigh⟩
  exact ⟨by decide, hround, (hwrite round).2 hround, hsecond,
    (hcells 1 (by decide)).2.1 [first, round] second [] rfl hsecond nofun, hlast,
    (hcells 3 (by decide)).2.2 hlast, hinitialized, (hranges 0 3).2 [round, first] hinitialized⟩

end Primer.Memory
