import Mathlib.Data.List.Forall2
import Primer.Proofs.Memory.Commands
import Primer.Proofs.Memory.Placement

/-!
# The layout of the stack

Slots are handed out in order, so the frames tile the stack: the outermost begins at `stackStart`,
each other one where the frame below it ends, and the innermost ends at the next slot. A frame has as
many slots as names in its order of declaration, those of removed locals included. Each local has a
slot of its own in its frame (`Frame.Laid`, `Stacked`). Every command keeps this
(`Stack.Laid.change`, `laid_after`), so no two locals of any frames share an address and a search by
address finds at most one (`frames_tile_the_stack`).
-/

namespace Primer.Memory

/-! ## The slots of a frame -/

theorem lt_of_add_wordSize_le {address stop : Address} (fits : address + wordSize ≤ stop) :
    address < stop :=
  Nat.lt_of_lt_of_le (Nat.lt_add_of_pos_right (by decide)) fits

namespace Frame

/-- The names of the locals with their slots. -/
def slots (frame : Frame) : List (String × Address) :=
  frame.locals.entries.map fun entry => (entry.1, entry.2.address)

variable {frame : Frame} {name : String} {var : Local}

theorem map_fst_slots (frame : Frame) : frame.slots.map Prod.fst = frame.locals.names := by
  simp [slots, Table.names]

/-- The slot of a new local comes last among the slots of its frame. -/
theorem slots_of_missing (var : Local) (order : List String)
    (missing : frame.locals.find? name = none) :
    { frame with locals := frame.locals.insert name var, order }.slots =
      frame.slots ++ [(name, var.address)] := by
  unfold slots Table.insert
  rw [Table.put_of_missing var missing, List.map_append]
  rfl

theorem slots_of_found (value : Value) (found : frame.locals.find? name = some var) :
    { frame with locals := frame.locals.insert name { var with value } }.slots = frame.slots :=
  Table.map_put_of_found _ found rfl

theorem slots_erase (frame : Frame) (name : String) :
    { frame with locals := frame.locals.erase name }.slots =
      frame.slots.filter fun slot => slot.1 ≠ name := by
  unfold slots Table.erase
  rw [List.filter_map]
  rfl

theorem slots_setAt (frame : Frame) (address : Address) (value : Value) :
    (frame.setAt address value).slots = frame.slots := by
  unfold slots setAt Table.map
  rw [List.map_map]
  apply List.map_congr_left
  intro entry _
  simp only [Function.comp_apply]
  split <;> rfl

theorem address_mem_slots (found : frame.locals.find? name = some var) :
    (name, var.address) ∈ frame.slots :=
  List.mem_map_of_mem (Table.mem_of_lookup found)

/-- The locals lie in the slots from the base of the frame to `stop`, each in one of its own. -/
structure Laid (frame : Frame) (stop : Address) : Prop where
  stop_eq : stop = frame.base + wordSize * frame.order.length
  low : ∀ {name address}, (name, address) ∈ frame.slots → frame.base ≤ address
  high : ∀ {name address}, (name, address) ∈ frame.slots → address + wordSize ≤ stop
  aligned : ∀ {name address}, (name, address) ∈ frame.slots → wordSize ∣ address
  names : (frame.slots.map Prod.fst).Nodup
  apart : (frame.slots.map Prod.snd).Nodup

namespace Laid

variable {stop : Address}

theorem entered (function : String) (base : Address) : Laid { function, base } base where
  stop_eq := rfl
  low := nofun
  high := nofun
  aligned := nofun
  names := .nil
  apart := .nil

theorem base_le (laid : frame.Laid stop) : frame.base ≤ stop := by
  rw [laid.stop_eq]
  exact Nat.le_add_right _ _

/-- Only base, number of slots and slots matter. -/
theorem congr {other : Frame} (laid : frame.Laid stop) (base : other.base = frame.base)
    (order : other.order = frame.order) (slots : other.slots = frame.slots) :
    other.Laid stop := by
  obtain ⟨hstop, hlow, hhigh, haligned, hnames, hapart⟩ := laid
  rw [← base, ← order] at hstop
  rw [← slots] at hlow hhigh haligned hnames hapart
  rw [← base] at hlow
  exact ⟨hstop, hlow, hhigh, haligned, hnames, hapart⟩

/-- A new local takes the slot at the end of its frame, and the frame ends behind it. -/
theorem declare (laid : frame.Laid stop) (value : Value) (aligned : wordSize ∣ stop)
    (missing : frame.locals.find? name = none) :
    { frame with
      locals := frame.locals.insert name ⟨value, stop⟩
      order := frame.order ++ [name] }.Laid (stop + wordSize) := by
  have hstop := laid.stop_eq
  have hslots := slots_of_missing ⟨value, stop⟩ (frame.order ++ [name]) missing
  have hcases : ∀ {slot}, slot ∈ { frame with
        locals := frame.locals.insert name ⟨value, stop⟩
        order := frame.order ++ [name] }.slots → slot ∈ frame.slots ∨ slot = (name, stop) := by
    intro slot hmem
    rwa [hslots, List.mem_append, List.mem_singleton] at hmem
  have hunknown : name ∉ frame.slots.map Prod.fst := by
    intro hmem
    rw [map_fst_slots, ← Table.find?_isSome_iff, missing] at hmem
    cases hmem
  have hunused : stop ∉ frame.slots.map Prod.snd := by
    intro hmem
    obtain ⟨⟨other, address⟩, hslot, hsame⟩ := List.mem_map.1 hmem
    exact Nat.ne_of_lt (lt_of_add_wordSize_le (laid.high hslot)) hsame
  refine ⟨?_, ?_, ?_, ?_, ?_, ?_⟩
  · rw [List.length_append, List.length_singleton, Nat.mul_succ, ← Nat.add_assoc, ← hstop]
  · intro other address hmem
    rcases hcases hmem with hold | hnew
    · exact laid.low hold
    · cases hnew
      exact laid.base_le
  · intro other address hmem
    rcases hcases hmem with hold | hnew
    · exact Nat.le_add_right_of_le (laid.high hold)
    · cases hnew
      exact Nat.le_refl _
  · intro other address hmem
    rcases hcases hmem with hold | hnew
    · exact laid.aligned hold
    · cases hnew
      exact aligned
  · rw [hslots, List.map_append]
    refine List.nodup_append.2 ⟨laid.names, by simp, ?_⟩
    rintro here hhere there hthere rfl
    obtain rfl : here = name := List.mem_singleton.1 hthere
    exact hunknown hhere
  · rw [hslots, List.map_append]
    refine List.nodup_append.2 ⟨laid.apart, by simp, ?_⟩
    rintro here hhere there hthere rfl
    obtain rfl : here = stop := List.mem_singleton.1 hthere
    exact hunused hhere

/-- Removing a local leaves a gap: the frame ends where it ended before. -/
theorem remove (laid : frame.Laid stop) (name : String) :
    { frame with locals := frame.locals.erase name }.Laid stop := by
  have hsub : { frame with locals := frame.locals.erase name }.slots.Sublist frame.slots := by
    rw [slots_erase]
    exact List.filter_sublist
  exact {
    stop_eq := laid.stop_eq
    low := fun hmem => laid.low (hsub.subset hmem)
    high := fun hmem => laid.high (hsub.subset hmem)
    aligned := fun hmem => laid.aligned (hsub.subset hmem)
    names := laid.names.sublist (hsub.map Prod.fst)
    apart := laid.apart.sublist (hsub.map Prod.snd) }

end Laid

end Frame

/-! ## Frames that differ in values -/

/-- Lists related item by item are equal if no item is related to another one. -/
theorem eq_of_forall₂ {α : Type} {related : α → α → Prop} {items others : List α}
    (all : List.Forall₂ related items others)
    (same : ∀ item ∈ items, ∀ other, related item other → other = item) : others = items := by
  induction all with
  | nil => rfl
  | cons first rest ih =>
    rw [same _ List.mem_cons_self _ first,
      ih fun item mem => same item (List.mem_cons_of_mem _ mem)]

/-- The second frame is the first one but for the values in slots that were written. -/
structure Frame.AlikeBut (written : Address → Prop) (frame other : Frame) : Prop where
  function : other.function = frame.function
  base : other.base = frame.base
  order : other.order = frame.order
  locals : List.Forall₂
    (fun entry entry' => entry'.1 = entry.1 ∧ entry'.2.address = entry.2.address ∧
      (written entry.2.address ∨ entry'.2.value = entry.2.value))
    frame.locals.entries other.locals.entries

namespace Frame.AlikeBut

variable {written : Address → Prop} {frame other : Frame}

theorem refl (written : Address → Prop) (frame : Frame) : frame.AlikeBut written frame where
  function := rfl
  base := rfl
  order := rfl
  locals := List.forall₂_same.2 fun _ _ => ⟨rfl, rfl, .inr rfl⟩

theorem setAt {address : Address} (alike : frame.AlikeBut written other) (hit : written address)
    (value : Value) : frame.AlikeBut written (other.setAt address value) := by
  refine ⟨alike.function, alike.base, alike.order, ?_⟩
  apply List.forall₂_map_right_iff.2
  apply alike.locals.imp
  rintro entry entry' ⟨hname, haddress, hvalue⟩
  by_cases here : entry'.2.address = address
  · simp only [here, if_true]
    refine ⟨hname, here ▸ haddress, .inl ?_⟩
    rwa [← haddress, here]
  · simp only [here, if_false]
    exact ⟨hname, haddress, hvalue⟩

/-- A frame none of whose addresses was written is still the same. -/
theorem eq_of_unwritten (alike : frame.AlikeBut written other)
    (unwritten : ∀ var ∈ frame.locals.values, ¬ written var.address) : other = frame := by
  have hentries : other.locals.entries = frame.locals.entries := by
    apply eq_of_forall₂ alike.locals
    rintro entry hmem entry' ⟨hname, haddress, hvalue⟩
    have hkept : entry'.2.value = entry.2.value :=
      hvalue.resolve_left (unwritten entry.2 (List.mem_map_of_mem hmem))
    obtain ⟨name, value, address⟩ := entry
    obtain ⟨name', value', address'⟩ := entry'
    simp only at hname haddress hkept
    rw [hname, haddress, hkept]
  obtain ⟨function, base, ⟨entries⟩, order⟩ := frame
  obtain ⟨function', base', ⟨entries'⟩, order'⟩ := other
  obtain ⟨rfl, rfl, rfl, _⟩ := alike
  simp only at hentries
  rw [hentries]

end Frame.AlikeBut

/-! ## Frames on top of each other -/

/-- The frames, innermost first, lie on top of each other up to the next slot. -/
def Stacked : List Frame → (next : Address) → Prop
  | [], next => next = stackStart
  | frame :: outer, next => frame.Laid next ∧ Stacked outer frame.base

/-- The number of slots that frames take up. -/
def slotCount (frames : List Frame) : Nat := total (fun frame => frame.order.length) frames

namespace Stacked

variable {frames : List Frame} {frame : Frame} {next : Address}

/-- The next free slot comes after all slots of all frames, each counted once. -/
theorem next_eq (stacked : Stacked frames next) :
    next = stackStart + wordSize * slotCount frames := by
  induction frames generalizing next with
  | nil => exact stacked
  | cons frame outer ih =>
    obtain ⟨laid, below⟩ := stacked
    have hcount : slotCount (frame :: outer) = slotCount outer + frame.order.length :=
      Nat.add_comm _ _
    rw [laid.stop_eq, ih below, hcount, Nat.mul_add, Nat.add_assoc]

theorem aligned (stacked : Stacked frames next) : wordSize ∣ next := by
  rw [stacked.next_eq]
  exact Nat.dvd_add (by decide) (Nat.dvd_mul_right _ _)

/-- All slots lie below the next one. -/
theorem high {name : String} {address : Address} (stacked : Stacked frames next)
    (mem : frame ∈ frames) (slot : (name, address) ∈ frame.slots) : address + wordSize ≤ next := by
  induction frames generalizing next with
  | nil => cases mem
  | cons first outer ih =>
    obtain ⟨laid, below⟩ := stacked
    rcases List.mem_cons.1 mem with rfl | there
    · exact laid.high slot
    · exact Nat.le_trans (ih below there) laid.base_le

/-- No two slots of the stack share an address: frames end where the next inner one begins, so slots
of different frames lie in different ranges, and within a frame each was taken once. -/
theorem apart (stacked : Stacked frames next) :
    (frames.flatMap fun frame => frame.slots.map Prod.snd).Nodup := by
  induction frames generalizing next with
  | nil => exact .nil
  | cons frame outer ih =>
    obtain ⟨laid, below⟩ := stacked
    rw [List.flatMap_cons]
    refine List.nodup_append.2 ⟨laid.apart, ih below, ?_⟩
    -- The slots of this frame begin where those of all outer frames have ended.
    intro here hhere there hthere
    obtain ⟨⟨name, address⟩, hslot, rfl⟩ := List.mem_map.1 hhere
    obtain ⟨other, hother, hmem⟩ := List.mem_flatMap.1 hthere
    obtain ⟨⟨name', address'⟩, hslot', rfl⟩ := List.mem_map.1 hmem
    have hbelow := lt_of_add_wordSize_le (below.high hother hslot')
    exact Nat.ne_of_gt (Nat.lt_of_lt_of_le hbelow (laid.low hslot))

/-- Changing frames without moving any slot keeps them stacked. -/
theorem map {change : Frame → Frame} (stacked : Stacked frames next)
    (base : ∀ frame, (change frame).base = frame.base)
    (order : ∀ frame, (change frame).order = frame.order)
    (slots : ∀ frame, (change frame).slots = frame.slots) :
    Stacked (frames.map change) next := by
  induction frames generalizing next with
  | nil => exact stacked
  | cons frame outer ih =>
    obtain ⟨laid, below⟩ := stacked
    refine ⟨laid.congr (base frame) (order frame) (slots frame), ?_⟩
    rw [base]
    exact ih below

/-- A frame, counted from the outermost, begins behind the slots of those before it and ends where
the one after it begins. -/
theorem laid_of_getElem? {index : Nat} (stacked : Stacked frames next)
    (here : frames.reverse[index]? = some frame) :
    frame.base = stackStart + wordSize * slotCount (frames.reverse.take index) ∧
      frame.Laid ((frames.reverse[index + 1]?.map Frame.base).getD next) := by
  induction frames generalizing next with
  | nil => cases here
  | cons innermost outer ih =>
    obtain ⟨laid, below⟩ := stacked
    rw [List.reverse_cons] at here ⊢
    rcases Nat.lt_trichotomy index outer.reverse.length with hlt | heq | hgt
    · rw [List.getElem?_append_left hlt] at here
      obtain ⟨hbase, hlaid⟩ := ih below here
      rw [List.take_append_of_le_length (Nat.le_of_lt hlt)]
      refine ⟨hbase, ?_⟩
      rcases Nat.lt_or_ge (index + 1) outer.reverse.length with hinner | houter
      · rw [List.getElem?_append_left hinner]
        rw [List.getElem?_eq_getElem hinner] at hlaid ⊢
        exact hlaid
      · -- The frame is the last of the outer ones, so the innermost one follows it.
        have hlast : index + 1 = outer.reverse.length := by omega
        rw [hlast, List.getElem?_concat_length]
        rw [List.getElem?_eq_none houter] at hlaid
        exact hlaid
    · subst heq
      rw [List.getElem?_concat_length] at here
      cases here
      have hcount : slotCount outer.reverse = slotCount outer := total_reverse _ outer
      rw [List.take_left, hcount, ← below.next_eq, List.getElem?_eq_none (by simp)]
      exact ⟨rfl, laid⟩
    · rw [List.getElem?_eq_none (by simp at hgt ⊢; omega)] at here
      cases here

end Stacked

namespace Stack

/-- The frames tile the stack up to the next slot, which leaves the globals alone. -/
structure Laid (stack : Stack) : Prop where
  stacked : Stacked stack.frames stack.next
  below : stack.next ≤ globalStart

variable {stack after : Stack} {event : Stack.Event}

theorem Laid.empty : Laid .empty := ⟨rfl, by decide⟩

/-- Whatever is done to a stack, its frames stay laid out one after another. -/
theorem Laid.change (laid : stack.Laid) (changed : stack.Change event after) : after.Laid := by
  obtain ⟨hstacked, hbelow⟩ := laid
  cases changed with
  | @push function => exact ⟨⟨.entered function stack.next, hstacked⟩, hbelow⟩
  | pop top =>
    rw [top] at hstacked
    exact ⟨hstacked.2, Nat.le_trans hstacked.1.base_le hbelow⟩
  | @declare _ _ _ value top fresh room =>
    have haligned := hstacked.aligned
    rw [top] at hstacked
    exact ⟨⟨hstacked.1.declare value haligned fresh, hstacked.2⟩, room⟩
  | @assign _ _ _ _ _ value _ top found =>
    -- A name that is declared again keeps its slot, so this is the same for both events.
    rw [top] at hstacked
    exact ⟨⟨hstacked.1.congr rfl rfl (Frame.slots_of_found value found), hstacked.2⟩, hbelow⟩
  | @remove _ _ name top =>
    rw [top] at hstacked
    exact ⟨⟨hstacked.1.remove name, hstacked.2⟩, hbelow⟩
  | @write address value found =>
    refine ⟨hstacked.map ?_ ?_ ?_, hbelow⟩
    · exact fun _ => rfl
    · exact fun _ => rfl
    · exact fun frame => frame.slots_setAt address value

end Stack

theorem laid_of_change {memory after : Memory} {command : Command} (laid : memory.stack.Laid)
    (changed : memory.Change command after) : after.stack.Laid := by
  cases changed with
  | stack _ changed => exact laid.change changed
  | row _ => exact Stack.declareFrom_induction Stack.Laid.change _ _ _ _ laid
  | _ => exact laid

theorem laid_after (limit : Nat) (commands : List Command) :
    ((Memory.empty limit).after commands).stack.Laid :=
  after_induction (motive := fun memory => memory.stack.Laid) .empty laid_of_change commands

/-! ## Searching by address -/

namespace Stack

/-- The locals of all frames, the innermost frame first. -/
def locals (stack : Stack) : List Local := stack.frames.flatMap fun frame => frame.locals.values

variable {stack : Stack} {address : Address} {var : Local}

theorem at?_eq_find? (stack : Stack) (address : Address) :
    stack.at? address = stack.locals.find? fun var => var.address = address := by
  unfold locals
  rw [List.find?_flatMap]
  rfl

theorem map_address_locals (stack : Stack) :
    stack.locals.map Local.address =
      stack.frames.flatMap fun frame => frame.slots.map Prod.snd := by
  unfold locals
  rw [List.map_flatMap]
  simp only [Table.values, Frame.slots, List.map_map]
  rfl

theorem Laid.apart (laid : stack.Laid) : (stack.locals.map Local.address).Nodup := by
  rw [map_address_locals]
  exact laid.stacked.apart

theorem Laid.lt_next (laid : stack.Laid) (mem : var ∈ stack.locals) : var.address < stack.next := by
  have hmem : var.address ∈ stack.locals.map Local.address := List.mem_map_of_mem mem
  rw [map_address_locals] at hmem
  obtain ⟨frame, hframe, hslots⟩ := List.mem_flatMap.1 hmem
  obtain ⟨⟨name, address⟩, hslot, hsame⟩ := List.mem_map.1 hslots
  rw [← hsame]
  exact lt_of_add_wordSize_le (laid.stacked.high hframe hslot)

theorem Laid.at?_eq_none (laid : stack.Laid) (beyond : stack.next ≤ address) :
    stack.at? address = none := by
  rw [at?_eq_find?, List.find?_eq_none]
  intro var hmem hhere
  have haddress : var.address = address := by simpa using hhere
  have hbelow := laid.lt_next hmem
  rw [haddress] at hbelow
  exact Nat.not_le_of_lt hbelow beyond

/-- The locals may be searched in any order. -/
theorem Laid.find?_of_perm {listed : List Local} (laid : stack.Laid)
    (perm : listed.Perm stack.locals) (address : Address) :
    listed.find? (fun var => var.address = address) = stack.at? address := by
  rw [at?_eq_find?]
  apply find?_eq_of_perm perm
  intro var other hvar hother hhere hthere
  simp only [decide_eq_true_eq] at hhere hthere
  exact List.inj_on_of_nodup_map laid.apart hvar hother (hhere.trans hthere.symm)

/-- At most one local is found at an address, in whatever order the frames are searched. -/
theorem Laid.countP_le_one (laid : stack.Laid) (address : Address) :
    stack.locals.countP (fun var => var.address = address) ≤ 1 := by
  have hcount := List.nodup_iff_count_le_one.1 laid.apart address
  rw [List.count_eq_countP, List.countP_map] at hcount
  refine Nat.le_trans (Nat.le_of_eq ?_) hcount
  apply List.countP_congr
  intro var _
  simp

/-- A declaration overflows the stack if it needs a new slot and all are taken. -/
theorem Laid.declare_eq_overflow_iff {name : String} {value : Value} {bound : Address}
    (laid : stack.Laid) :
    stack.declare name value = .error (.stackOverflow bound) ↔
      bound = globalStart ∧ ∃ frame, stack.current? = some frame ∧
        frame.locals.find? name = none ∧
        slotCount stack.frames = (globalStart - stackStart) / wordSize := by
  have hfull : slotCount stack.frames = (globalStart - stackStart) / wordSize ↔
      globalStart < stack.next + wordSize := by
    have hnext := laid.stacked.next_eq
    have hbelow := laid.below
    unfold Address globalStart stackStart wordSize at *
    omega
  rw [hfull]
  unfold declare current?
  cases stack.frames with
  | nil => simp
  | cons frame frames =>
    cases hfound : frame.locals.find? name with
    | some var => simp [hfound]
    | none =>
      by_cases hroom : globalStart < stack.next + wordSize
      · simp [hfound, hroom, eq_comm]
      · simp [hfound, hroom]

end Stack

/-- **The frames tile the stack.** Whatever a memory was commanded before, count its frames from the
outermost: each begins behind the slots that the frames before it have ever handed out, and the next
slot comes behind those of all frames. Every local lies in an aligned slot between the base of its
frame and that of the frame after it, or the next slot, and below the globals. No two locals of any
frames share an address, so a search by address has at most one candidate, in whatever order it
meets the locals. A declaration overflows the stack if and only if a function is running that has no
local of the name, and all slots are taken. -/
theorem frames_tile_the_stack (limit : Nat) (commands : List Command) :
    let stack := ((Memory.empty limit).after commands).stack
    let outermost := stack.frames.reverse
    stack.next = stackStart + wordSize * slotCount outermost ∧
      (∀ index frame, outermost[index]? = some frame →
        frame.base = stackStart + wordSize * slotCount (outermost.take index) ∧
          frame.locals.names.Nodup ∧
          ∀ name var, frame.locals.find? name = some var →
            wordSize ∣ var.address ∧ frame.base ≤ var.address ∧
              var.address < (outermost[index + 1]?.map Frame.base).getD stack.next ∧
              var.address + wordSize ≤ globalStart) ∧
      (stack.locals.map Local.address).Nodup ∧
      (∀ address, stack.locals.countP (fun var => var.address = address) ≤ 1 ∧
        ∀ listed : List Local, listed.Perm stack.locals →
          listed.find? (fun var => var.address = address) = stack.at? address) ∧
      ∀ name value bound, stack.declare name value = .error (.stackOverflow bound) ↔
        bound = globalStart ∧ ∃ frame, stack.current? = some frame ∧
          frame.locals.find? name = none ∧
          slotCount outermost = (globalStart - stackStart) / wordSize := by
  intro stack outermost
  have laid : stack.Laid := laid_after limit commands
  have hcount : slotCount outermost = slotCount stack.frames := total_reverse _ _
  refine ⟨?_, ?_, laid.apart, ?_, ?_⟩
  · rw [hcount]
    exact laid.stacked.next_eq
  · intro index frame here
    obtain ⟨hbase, hlaid⟩ := laid.stacked.laid_of_getElem? here
    have hmem : frame ∈ stack.frames := List.mem_reverse.1 (List.mem_of_getElem? here)
    refine ⟨hbase, frame.map_fst_slots ▸ hlaid.names, ?_⟩
    intro name var found
    have hslot := Frame.address_mem_slots found
    have hstack := laid.stacked.high hmem hslot
    exact ⟨hlaid.aligned hslot, hlaid.low hslot, lt_of_add_wordSize_le (hlaid.high hslot),
      Nat.le_trans hstack laid.below⟩
  · intro address
    exact ⟨laid.countP_le_one address, fun listed perm => laid.find?_of_perm perm address⟩
  · intro name value bound
    rw [hcount]
    exact laid.declare_eq_overflow_iff

/-- A slot whose local was removed is not handed out again, so the second frame begins behind two. -/
theorem second_frame_begins_behind_a_removed_slot :
    let stack := ((Memory.empty 0).after [.push "f", .declare "a" (.int 1), .removeLocal "a",
      .declare "a" (.int 2), .push "g", .declare "a" .uninitialized]).stack
    let frame : Frame := ⟨"g", 12, ⟨[("a", ⟨.uninitialized, 12⟩)]⟩, ["a"]⟩
    stack.frames.reverse[1]? = some frame ∧ frame.base = stackStart + wordSize * 2 ∧
      stack.locals.reverse.Perm stack.locals ∧
      stack.locals.reverse.find? (fun var => var.address = 8) = stack.at? 8 ∧
      stack.at? 8 = some ⟨.int 2, 8⟩ := by
  intro stack frame
  have hframe : stack.frames.reverse[1]? = some frame := rfl
  have hperm : stack.locals.reverse.Perm stack.locals := List.reverse_perm _
  obtain ⟨_, hframes, _, hsearch, _⟩ := frames_tile_the_stack 0 [.push "f",
    .declare "a" (.int 1), .removeLocal "a", .declare "a" (.int 2), .push "g",
    .declare "a" .uninitialized]
  exact ⟨hframe, (hframes 1 frame hframe).1, hperm, (hsearch 8).2 _ hperm, rfl⟩

end Primer.Memory
