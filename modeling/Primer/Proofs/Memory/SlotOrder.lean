import Primer.Proofs.Memory.Names

/-!
# Locals in the order of their slots

A slot is handed out when a name is first declared in its frame, and the name is put to the order of
declaration at the same time. As long as nothing is removed from a frame the two go side by side:
the names of the slots are the order, and the slots lie one behind the other from the base of the
frame on (`Frame.Listed`). Every other command keeps this (`Stack.Gapless.change`,
`gapless_after`). The locals in order of declaration are therefore all locals, each once
(`Frame.Listed.orderedLocals_eq`), and those of all frames take up every slot below the next one
(`locals_are_listed_in_slot_order`).
-/

namespace Primer.Memory

/-! ## One frame -/

namespace Frame

theorem Laid.names_apart {frame : Frame} {stop : Address} (laid : frame.Laid stop) :
    (frame.locals.entries.map Prod.fst).Nodup := by
  have hnames := laid.names
  rwa [map_fst_slots] at hnames

/-- The slots lie one behind the other from the base on, in the order of declaration. -/
structure Listed (frame : Frame) : Prop where
  names : frame.slots.map Prod.fst = frame.order
  addresses : frame.slots.map Prod.snd = List.range' frame.base frame.order.length wordSize

namespace Listed

variable {frame : Frame} {stop : Address} {name : String} {var : Local} {position : Nat}

theorem entered (function : String) (base : Address) : Listed { function, base } := ⟨rfl, rfl⟩

/-- Only base, order and slots matter. -/
theorem congr {other : Frame} (listed : frame.Listed) (base : other.base = frame.base)
    (order : other.order = frame.order) (slots : other.slots = frame.slots) : other.Listed := by
  obtain ⟨hnames, haddresses⟩ := listed
  rw [← slots, ← order] at hnames haddresses
  rw [← base] at haddresses
  exact ⟨hnames, haddresses⟩

/-- A new local is listed last and has the last slot. -/
theorem declare (listed : frame.Listed) (laid : frame.Laid stop) (value : Value)
    (missing : frame.locals.find? name = none) :
    Listed { frame with
      locals := frame.locals.insert name ⟨value, stop⟩
      order := frame.order ++ [name] } := by
  have hslots := slots_of_missing ⟨value, stop⟩ (frame.order ++ [name]) missing
  constructor
  · rw [hslots, List.map_append, listed.names]
    rfl
  · rw [hslots, List.map_append, listed.addresses, List.length_append, List.length_singleton,
      List.range'_concat, ← laid.stop_eq]
    rfl

theorem order_eq (listed : frame.Listed) : frame.order = frame.locals.names := by
  rw [← listed.names, map_fst_slots]

theorem mem_order_iff (listed : frame.Listed) :
    name ∈ frame.order ↔ (frame.locals.find? name).isSome := by
  rw [listed.order_eq, Table.find?_isSome_iff]

theorem apart (listed : frame.Listed) (laid : frame.Laid stop) : frame.order.Nodup := by
  rw [← listed.names]
  exact laid.names

/-- Looking up every name in order of declaration finds every local once. -/
theorem orderedLocals_eq (listed : frame.Listed) (laid : frame.Laid stop) :
    frame.orderedLocals = frame.locals.entries := by
  have hfound : ∀ entry ∈ frame.locals.entries,
      (frame.locals.find? entry.1).map (fun var => (entry.1, var)) = some entry := by
    intro entry hmem
    have hentry : frame.locals.find? entry.1 = some entry.2 := Table.lookup_of_mem laid.names_apart hmem
    rw [hentry]
    rfl
  unfold orderedLocals
  rw [listed.order_eq, Table.names, List.filterMap_map]
  exact (List.filterMap_congr hfound).trans List.filterMap_some

theorem map_fst_orderedLocals (listed : frame.Listed) (laid : frame.Laid stop) :
    frame.orderedLocals.map Prod.fst = frame.order := by
  rw [listed.orderedLocals_eq laid, listed.order_eq]
  rfl

/-- Listed in order, the locals have one slot after another from the base of the frame on. -/
theorem addresses_orderedLocals (listed : frame.Listed) (laid : frame.Laid stop) :
    (frame.orderedLocals.map fun entry => entry.2.address) =
      List.range' frame.base frame.order.length wordSize := by
  rw [listed.orderedLocals_eq laid, ← listed.addresses]
  unfold slots
  rw [List.map_map]
  rfl

/-- The local at a position is the one of its name, and lies in the slot of this position. -/
theorem of_getElem? (listed : frame.Listed) (laid : frame.Laid stop)
    (here : frame.orderedLocals[position]? = some (name, var)) :
    frame.locals.find? name = some var ∧ var.address = frame.base + wordSize * position := by
  have haddress := congrArg (·[position]?) (listed.addresses_orderedLocals laid)
  have hlt : position < frame.order.length := by
    rw [← listed.map_fst_orderedLocals laid, List.length_map]
    exact (List.getElem?_eq_some_iff.1 here).1
  simp only [List.getElem?_map, here, Option.map_some, List.getElem?_range' hlt,
    Option.some.injEq] at haddress
  rw [listed.orderedLocals_eq laid] at here
  exact ⟨Table.lookup_of_mem laid.names_apart (List.mem_of_getElem? here), haddress⟩

theorem exists_getElem? (listed : frame.Listed) (laid : frame.Laid stop)
    (here : frame.order[position]? = some name) :
    ∃ var, frame.orderedLocals[position]? = some (name, var) := by
  rw [← listed.map_fst_orderedLocals laid, List.getElem?_map] at here
  obtain ⟨⟨other, var⟩, hentry, rfl⟩ := Option.map_eq_some_iff.1 here
  exact ⟨var, hentry⟩

/-- A name with a new value keeps its position. -/
theorem orderedLocals_insert (listed : frame.Listed) (laid : frame.Laid stop)
    (here : frame.orderedLocals[position]? = some (name, var)) (value : Value) :
    { frame with locals := frame.locals.insert name { var with value } }.orderedLocals =
      frame.orderedLocals.set position (name, { var with value }) := by
  have hslots := slots_of_found value (listed.of_getElem? laid here).1
  have hlisted : Listed { frame with locals := frame.locals.insert name { var with value } } :=
    listed.congr rfl rfl hslots
  rw [hlisted.orderedLocals_eq (laid.congr rfl rfl hslots), listed.orderedLocals_eq laid]
  rw [listed.orderedLocals_eq laid] at here
  exact Table.put_eq_set laid.names_apart here _

end Listed

end Frame

/-! ## All frames -/

/-- The frames from the outermost on take up all slots below the next one, in order. -/
theorem Stacked.addresses_reverse {frames : List Frame} {next : Address}
    (stacked : Stacked frames next) (listed : ∀ frame ∈ frames, frame.Listed) :
    (frames.reverse.flatMap fun frame => frame.orderedLocals.map fun entry => entry.2.address) =
      List.range' stackStart (slotCount frames) wordSize := by
  induction frames generalizing next with
  | nil => rfl
  | cons frame outer ih =>
    obtain ⟨laid, below⟩ := stacked
    have houter := ih below fun other hmem => listed other (List.mem_cons_of_mem _ hmem)
    have hframe := (listed frame List.mem_cons_self).addresses_orderedLocals laid
    have hcount : slotCount (frame :: outer) = slotCount outer + frame.order.length :=
      Nat.add_comm _ _
    rw [List.reverse_cons, List.flatMap_append, houter, List.flatMap_singleton, hframe,
      below.next_eq, List.range'_append, hcount]

namespace Stack

/-- The frames tile the stack, and each lists its locals in the order of their slots. -/
structure Gapless (stack : Stack) : Prop where
  laid : stack.Laid
  listed : ∀ frame ∈ stack.frames, frame.Listed

namespace Gapless

variable {stack after : Stack} {event : Stack.Event} {frame : Frame} {outer : List Frame}

theorem empty : Gapless .empty := ⟨.empty, nofun⟩

/-- Whatever happens to a stack, removals apart, leaves no gap. -/
theorem change (gapless : stack.Gapless) (changed : stack.Change event after)
    (keeps : ∀ name, event ≠ .removed name) : after.Gapless := by
  refine ⟨gapless.laid.change changed, ?_⟩
  have hstacked := gapless.laid.stacked
  have hlisted := gapless.listed
  cases changed with
  | @push function => exact List.forall_mem_cons.2 ⟨.entered function stack.next, hlisted⟩
  | pop top =>
    rw [top] at hlisted
    exact (List.forall_mem_cons.1 hlisted).2
  | @declare _ _ _ value top fresh room =>
    rw [top] at hstacked hlisted
    obtain ⟨hframe, houter⟩ := List.forall_mem_cons.1 hlisted
    exact List.forall_mem_cons.2 ⟨hframe.declare hstacked.1 value fresh, houter⟩
  | @assign _ _ _ _ _ value _ top found =>
    rw [top] at hlisted
    obtain ⟨hframe, houter⟩ := List.forall_mem_cons.1 hlisted
    have hslots := Frame.slots_of_found value found
    exact List.forall_mem_cons.2 ⟨hframe.congr rfl rfl hslots, houter⟩
  | @remove _ _ name top => exact absurd rfl (keeps name)
  | @write address value found =>
    refine List.forall_mem_map.2 fun frame hmem => ?_
    exact (hlisted frame hmem).congr rfl rfl (frame.slots_setAt address value)

/-- Declaring a listed name again gives it the new value where it is. -/
theorem declare_again (gapless : stack.Gapless) (top : stack.frames = frame :: outer)
    {position : Nat} {name : String} (here : frame.order[position]? = some name) (value : Value) :
    ∃ locals,
      InPlace.declare name value stack = .ok (frame.base + wordSize * position)
          { stack with frames := { frame with locals } :: outer } ∧
        { frame with locals }.orderedLocals = frame.orderedLocals.set position
          (name, ⟨value, frame.base + wordSize * position⟩) := by
  obtain ⟨hlaid, hlisted⟩ := gapless
  have hstacked := hlaid.stacked
  rw [top] at hstacked hlisted
  have hframe := hlisted frame List.mem_cons_self
  obtain ⟨var, hentry⟩ := hframe.exists_getElem? hstacked.1 here
  obtain ⟨hfound, haddress⟩ := hframe.of_getElem? hstacked.1 hentry
  have hdeclared : stack.declare name value = .ok (var.address, { stack with
      frames := { frame with locals := frame.locals.insert name { var with value } } :: outer }) := by
    simp only [Stack.declare, top, hfound]
  have hfollows := InPlace.declare_follows hlaid name value
  rw [hdeclared] at hfollows
  obtain ⟨address, after, hresult, hshown⟩ := hfollows.eq_ok
  cases hshown
  rw [← haddress]
  exact ⟨_, hresult, hframe.orderedLocals_insert hstacked.1 hentry value⟩

end Gapless

end Stack

/-! ## Commands that remove nothing -/

theorem Command.eq_removeLocal_of_causes {command : Command} {name : String}
    (cause : command.Causes (.removed name)) : command = .removeLocal name := by
  cases command with
  | removeLocal other =>
    cases cause
    rfl
  | declareMany stem count =>
    obtain ⟨other, hother⟩ := cause
    cases hother
  | _ => cases cause

/-- A stack without gaps stays so under every command that removes no local. -/
theorem gapless_of_change {memory after : Memory} {command : Command}
    (gapless : memory.stack.Gapless) (changed : memory.Change command after)
    (keeps : ∀ name, command ≠ .removeLocal name) : after.stack.Gapless := by
  cases changed with
  | stack cause changed =>
    refine gapless.change changed ?_
    rintro name rfl
    exact keeps name (Command.eq_removeLocal_of_causes cause)
  | row _ =>
    exact Stack.declareFrom_induction (fun gapless changed => gapless.change changed nofun)
      _ _ _ _ gapless
  | _ => exact gapless

theorem gapless_after {memory : Memory} (gapless : memory.stack.Gapless) {commands : List Command}
    (keeps : ∀ name, .removeLocal name ∉ commands) : (memory.after commands).stack.Gapless := by
  induction commands generalizing memory with
  | nil => exact gapless
  | cons command rest ih =>
    have hcommand : ∀ name, command ≠ .removeLocal name := by
      rintro name rfl
      exact keeps name List.mem_cons_self
    have hrest : ∀ name, .removeLocal name ∉ rest := fun name hmem =>
      keeps name (List.mem_cons_of_mem command hmem)
    exact ih (gapless_of_change gapless (change_step memory command) hcommand) hrest

/-- **Locals are listed in slot order.** Whatever was commanded before, refused commands included, as
long as no local was removed: in each frame the order of declaration names every local of the frame
and nothing else, each once. The locals in that order are all locals of the frame, and the one at a
position lies that many slots above the base of the frame. Declaring a name of the innermost frame
again gives back the slot that it has, and changes nothing but the value at the position that it
has. The locals of all frames, the outermost frame first, have the addresses from `stackStart` on,
slot by slot, up to the next one. -/
theorem locals_are_listed_in_slot_order (limit : Nat) (commands : List Command)
    (keeps : ∀ name, .removeLocal name ∉ commands) :
    let stack := ((Arena.empty limit).after commands).stack
    (∀ frame ∈ stack.frames,
        frame.order.Nodup ∧
          (∀ name, name ∈ frame.order ↔ (frame.locals.find? name).isSome) ∧
          frame.orderedLocals.map Prod.fst = frame.order ∧
          frame.orderedLocals.Perm frame.locals.entries ∧
          ∀ position name var, frame.orderedLocals[position]? = some (name, var) →
            frame.locals.find? name = some var ∧
              var.address = frame.base + wordSize * position) ∧
      (∀ frame outer position name value, stack.frames = frame :: outer →
        frame.order[position]? = some name →
        ∃ locals,
          InPlace.declare name value stack = .ok (frame.base + wordSize * position)
              { stack with frames := { frame with locals } :: outer } ∧
            { frame with locals }.orderedLocals = frame.orderedLocals.set position
              (name, ⟨value, frame.base + wordSize * position⟩)) ∧
      ∃ count : Nat, stack.next = stackStart + wordSize * count ∧
        (stack.frames.reverse.flatMap fun frame =>
            frame.orderedLocals.map fun entry => entry.2.address) =
          List.range' stackStart count wordSize := by
  intro stack
  obtain ⟨_, hshown⟩ := (Arena.Sound.empty limit).after commands
  have hstack : stack = ((Memory.empty limit).after commands).stack := congrArg Memory.stack hshown
  have gapless : stack.Gapless := hstack ▸ gapless_after .empty keeps
  have hstacked := gapless.laid.stacked
  refine ⟨?_, ?_, ?_⟩
  · intro frame hmem
    have hlisted := gapless.listed frame hmem
    obtain ⟨stop, hlaid⟩ := hstacked.laid_of_mem hmem
    refine ⟨hlisted.apart hlaid, fun _ => hlisted.mem_order_iff, hlisted.map_fst_orderedLocals hlaid,
      ?_, fun _ _ _ => hlisted.of_getElem? hlaid⟩
    rw [hlisted.orderedLocals_eq hlaid]
  · intro frame outer position name value top here
    exact gapless.declare_again top here value
  · exact ⟨slotCount stack.frames, hstacked.next_eq, hstacked.addresses_reverse gapless.listed⟩

/-- Two functions with locals of the same names, the second in slots that another call has given
back. Declaring the first of its locals again leaves it in the first slot of its frame. -/
theorem reused_slots_are_listed_in_order :
    let commands : List Command := [.push "main", .declare "b" (.int 2), .declare "a" (.int 1),
      .push "f", .declare "c" .uninitialized, .pop, .push "g", .declare "a" (.int 5),
      .declare "b" (.pointer 4), .declare "a" .uninitialized, .writeInt 4 9, .setVar "c" (.int 0)]
    let stack := ((Arena.empty 0).after commands).stack
    let frame : Frame := ⟨"g", 12, ⟨[("a", ⟨.uninitialized, 12⟩), ("b", ⟨.pointer 4, 16⟩)]⟩,
      ["a", "b"]⟩
    let outer : List Frame := [⟨"main", 4, ⟨[("b", ⟨.int 9, 4⟩), ("a", ⟨.int 1, 8⟩)]⟩, ["b", "a"]⟩]
    (∀ name, .removeLocal name ∉ commands) ∧ stack.frames = frame :: outer ∧
      frame.order[0]? = some "a" ∧
      (∃ locals, InPlace.declare "a" (.int 6) stack =
          .ok 12 { stack with frames := { frame with locals } :: outer } ∧
        { frame with locals }.orderedLocals = [("a", ⟨.int 6, 12⟩), ("b", ⟨.pointer 4, 16⟩)]) ∧
      (stack.frames.reverse.flatMap fun frame =>
        frame.orderedLocals.map fun entry => entry.2.address) = [4, 8, 12, 16] := by
  intro commands stack frame outer
  have hkeeps : ∀ name, .removeLocal name ∉ commands := by simp [commands]
  have htop : stack.frames = frame :: outer := rfl
  obtain ⟨_, hagain, count, hnext, hall⟩ := locals_are_listed_in_slot_order 0 commands hkeeps
  have hcount : count = 4 := by
    have hlast : (20 : Nat) = 4 + 4 * count := hnext
    omega
  subst hcount
  exact ⟨hkeeps, htop, rfl, hagain frame outer 0 "a" (.int 6) htop rfl, hall⟩

end Primer.Memory
