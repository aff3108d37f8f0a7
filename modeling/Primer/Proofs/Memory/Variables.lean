import Primer.Proofs.Memory.Directory

/-!
# Variables by name and by address

A variable can be asked for by its name and by the address of its slot. In a memory that is in order
the two are one: what is found at an address is what is found by some name and has its slot there
(`Ordered.slotAt?_eq_some_iff`), and no two variables have the same address
(`Ordered.lookup_unique`). So to know that a store changed one variable only, in whichever way it is
asked for, it is enough to look at the variables by name (`StoredIn.of_names`).
-/

namespace Primer.Memory

/-! ## Asking for a variable -/

/-- A variable by name: a global, or a local of a running function. Functions are counted from the
innermost, which is number 0. -/
inductive Variable where
  | global (name : String)
  | inFrame (depth : Nat) (name : String)
deriving Repr, DecidableEq

/-- Value and slot of a global. -/
def Global.slot (var : Global) : Local := ⟨var.value, var.address⟩

/-- The local of a name in the function of a number. -/
def Stack.named (stack : Stack) (depth : Nat) (name : String) : Option Local := do
  (← stack.frames[depth]?).locals.find? name

/-- Value and slot of a variable that is asked for by name. -/
def lookup (memory : Memory) : Variable → Option Local
  | .global name => (memory.globals.find? name).map Global.slot
  | .inFrame depth name => memory.stack.named depth name

/-- Value and slot of the variable whose slot begins at an address. -/
def slotAt? (memory : Memory) (address : Address) : Option Local :=
  match Region.of address with
  | .stack => memory.stack.at? address
  | .global => (memory.globals.at? address).map Global.slot
  | .heap => none

namespace Stacked

variable {frames : List Frame} {frame : Frame} {next : Address}

theorem laid_of_mem (stacked : Stacked frames next) (mem : frame ∈ frames) :
    ∃ stop, frame.Laid stop := by
  induction frames generalizing next with
  | nil => cases mem
  | cons first outer ih =>
    obtain ⟨hlaid, hbelow⟩ := stacked
    rcases List.mem_cons.1 mem with rfl | hmem
    · exact ⟨next, hlaid⟩
    · exact ih hbelow hmem

/-- The slots of a frame begin where those of the outer frames end. -/
theorem lt_of_outer {innermost : Frame} {depth : Nat} {name name' : String} {var var' : Local}
    (stacked : Stacked (innermost :: frames) next)
    (inner : innermost.locals.find? name = some var) (here : frames[depth]? = some frame)
    (outer : frame.locals.find? name' = some var') : var'.address < var.address := by
  obtain ⟨hlaid, hbelow⟩ := stacked
  have hhigh := hbelow.high (List.mem_of_getElem? here) (Frame.address_mem_slots outer)
  have hlow := hlaid.low (Frame.address_mem_slots inner)
  exact Nat.lt_of_lt_of_le (lt_of_add_wordSize_le hhigh) hlow

/-- Two locals with one address are the same local of the same function. -/
theorem unique_of_address {depth depth' : Nat} {frame' : Frame} {name name' : String}
    {var var' : Local} (stacked : Stacked frames next) (here : frames[depth]? = some frame)
    (found : frame.locals.find? name = some var) (there : frames[depth']? = some frame')
    (found' : frame'.locals.find? name' = some var') (same : var.address = var'.address) :
    depth = depth' ∧ name = name' := by
  induction frames generalizing depth depth' next with
  | nil => cases here
  | cons innermost outer ih =>
    -- In one frame no two slots are the same, and in two frames one lies below the other.
    cases depth with
    | zero =>
      cases here
      cases depth' with
      | zero =>
        cases there
        have hslots : (name, var.address) = (name', var'.address) :=
          List.inj_on_of_nodup_map stacked.1.apart (Frame.address_mem_slots found)
            (Frame.address_mem_slots found') same
        exact ⟨rfl, congrArg Prod.fst hslots⟩
      | succ depth' =>
        exact absurd same.symm (Nat.ne_of_lt (stacked.lt_of_outer found there found'))
    | succ depth =>
      cases depth' with
      | zero =>
        cases there
        exact absurd same (Nat.ne_of_lt (stacked.lt_of_outer found' here found))
      | succ depth' =>
        obtain ⟨hdepth, hname⟩ := ih stacked.2 here there
        exact ⟨congrArg Nat.succ hdepth, hname⟩

end Stacked

namespace Stack

variable {stack : Stack} {depth depth' : Nat} {name name' : String} {var var' : Local}
  {address : Address}

theorem named_eq_some_iff :
    stack.named depth name = some var ↔
      ∃ frame, stack.frames[depth]? = some frame ∧ frame.locals.find? name = some var :=
  Option.bind_eq_some_iff

theorem mem_locals_of_named (found : stack.named depth name = some var) : var ∈ stack.locals := by
  obtain ⟨frame, hframe, hvar⟩ := named_eq_some_iff.1 found
  refine List.mem_flatMap.2 ⟨frame, List.mem_of_getElem? hframe, ?_⟩
  exact List.mem_map_of_mem (Table.mem_of_lookup hvar)

theorem Laid.find?_of_mem (laid : stack.Laid) {frame : Frame} (mem : frame ∈ stack.frames)
    (entry : (name, var) ∈ frame.locals.entries) : frame.locals.find? name = some var := by
  obtain ⟨_, hlaid⟩ := laid.stacked.laid_of_mem mem
  have hnames : frame.locals.names.Nodup := frame.map_fst_slots ▸ hlaid.names
  exact Table.lookup_of_mem hnames entry

theorem Laid.exists_named (laid : stack.Laid) (mem : var ∈ stack.locals) :
    ∃ depth name, stack.named depth name = some var := by
  obtain ⟨frame, hframe, hvalue⟩ := List.mem_flatMap.1 mem
  obtain ⟨⟨name, _⟩, hentry, rfl⟩ := List.mem_map.1 hvalue
  obtain ⟨depth, hdepth⟩ := List.mem_iff_getElem?.1 hframe
  exact ⟨depth, name, named_eq_some_iff.2 ⟨frame, hdepth, laid.find?_of_mem hframe hentry⟩⟩

/-- A local is found at an address if and only if it can be asked for by name and has its slot
there. -/
theorem Laid.at?_eq_some_iff (laid : stack.Laid) :
    stack.at? address = some var ↔
      var.address = address ∧ ∃ depth name, stack.named depth name = some var := by
  rw [at?_eq_find?, find?_key_eq_some_iff laid.apart, and_comm]
  refine and_congr_right fun _ => ⟨laid.exists_named, ?_⟩
  rintro ⟨depth, name, hfound⟩
  exact mem_locals_of_named hfound

/-- Two names for the same slot are one name in one function. -/
theorem Laid.named_unique (laid : stack.Laid) (found : stack.named depth name = some var)
    (found' : stack.named depth' name' = some var') (same : var.address = var'.address) :
    depth = depth' ∧ name = name' := by
  obtain ⟨_, hframe, hvar⟩ := named_eq_some_iff.1 found
  obtain ⟨_, hframe', hvar'⟩ := named_eq_some_iff.1 found'
  exact laid.stacked.unique_of_address hframe hvar hframe' hvar' same

/-- A store by address changes what is found by name exactly if the name has its slot there. -/
theorem named_setAt (stack : Stack) (address : Address) (value : Value) (depth : Nat)
    (name : String) :
    named { stack with frames := stack.frames.map fun frame => frame.setAt address value }
        depth name =
      (stack.named depth name).map fun var =>
        if var.address = address then { var with value } else var := by
  unfold named
  rw [List.getElem?_map]
  cases stack.frames[depth]? with
  | none => rfl
  | some frame => exact Table.find?_map _ frame.locals name

end Stack

/-! ## One variable for each name and each address -/

/-- The locals tile the stack, the globals lie one after another, and no two have the same name. -/
structure Ordered (memory : Memory) : Prop where
  stack : memory.stack.Laid
  globals : memory.globals.Laid
  names : (memory.globals.vars.map Global.name).Nodup

namespace Ordered

variable {memory : Memory} {target target' : Variable} {slot slot' : Local} {address : Address}

theorem mem_of_lookup {name : String} (found : memory.lookup (.global name) = some slot) :
    ∃ var ∈ memory.globals.vars, var.name = name ∧ var.slot = slot := by
  obtain ⟨var, hvar, hslot⟩ := Option.map_eq_some_iff.1 found
  exact ⟨var, List.mem_of_find?_eq_some hvar, Globals.name_of_find? hvar, hslot⟩

/-- What is found at an address is what is found by some name and has its slot there. -/
theorem slotAt?_eq_some_iff (ordered : memory.Ordered) :
    memory.slotAt? address = some slot ↔
      slot.address = address ∧ ∃ target, memory.lookup target = some slot := by
  constructor
  · intro hfound
    unfold slotAt? at hfound
    split at hfound
    · obtain ⟨haddress, depth, name, hnamed⟩ := ordered.stack.at?_eq_some_iff.1 hfound
      exact ⟨haddress, .inFrame depth name, hnamed⟩
    · obtain ⟨var, hvar, rfl⟩ := Option.map_eq_some_iff.1 hfound
      obtain ⟨hmem, haddress⟩ := (find?_key_eq_some_iff ordered.globals.apart).1 hvar
      have hnamed := (find?_key_eq_some_iff ordered.names).2 ⟨hmem, rfl⟩
      exact ⟨haddress, .global var.name, congrArg (Option.map Global.slot) hnamed⟩
    · cases hfound
  · rintro ⟨rfl, target, hfound⟩
    unfold slotAt?
    cases target with
    | global name =>
      obtain ⟨var, hmem, _, rfl⟩ := mem_of_lookup hfound
      have hat := (find?_key_eq_some_iff ordered.globals.apart).2 ⟨hmem, rfl⟩
      have hregion : Region.of var.slot.address = .global :=
        Region.of_eq_global_iff.2 (ordered.globals.bounds hmem)
      rw [hregion]
      exact congrArg (Option.map Global.slot) hat
    | inFrame depth name =>
      have hbelow := ordered.stack.lt_globalStart (Stack.mem_locals_of_named hfound)
      rw [Region.of_eq_stack_iff.2 hbelow]
      exact ordered.stack.at?_eq_some_iff.2 ⟨rfl, depth, name, hfound⟩

/-- Two variables with the same slot are one variable, be they global or local. -/
theorem lookup_unique (ordered : memory.Ordered) (found : memory.lookup target = some slot)
    (found' : memory.lookup target' = some slot') (same : slot.address = slot'.address) :
    target = target' := by
  have hapart : ∀ {name depth name' slot slot'}, memory.lookup (.global name) = some slot →
      memory.lookup (.inFrame depth name') = some slot' → slot'.address < slot.address := by
    intro _ _ _ _ _ hglobal hlocal
    obtain ⟨var, hmem, _, rfl⟩ := mem_of_lookup hglobal
    have hbelow := ordered.stack.lt_globalStart (Stack.mem_locals_of_named hlocal)
    exact Nat.lt_of_lt_of_le hbelow (ordered.globals.bounds hmem).1
  cases target with
  | global name =>
    cases target' with
    | global name' =>
      obtain ⟨var, hmem, rfl, rfl⟩ := mem_of_lookup found
      obtain ⟨var', hmem', rfl, rfl⟩ := mem_of_lookup found'
      rw [List.inj_on_of_nodup_map ordered.globals.apart hmem hmem' same]
    | inFrame depth' name' => exact absurd same.symm (Nat.ne_of_lt (hapart found found'))
  | inFrame depth name =>
    cases target' with
    | global name' => exact absurd same (Nat.ne_of_lt (hapart found' found))
    | inFrame depth' name' =>
      obtain ⟨rfl, rfl⟩ := ordered.stack.named_unique found found' same
      rfl

end Ordered

/-! ## Storing a value -/

/-- After a store a variable is found in its slot, by name and by address, and the slot is the one
it had if it was there before. All else that is found by a name or at an address is what was found
before. -/
structure StoredIn (memory : Memory) (target : Variable) (slot : Local) (after : Memory) :
    Prop where
  byName : after.lookup target = some slot
  byAddress : after.slotAt? slot.address = some slot
  stays : ∀ old, memory.lookup target = some old → old.address = slot.address
  otherNames : ∀ other, other ≠ target → after.lookup other = memory.lookup other
  otherAddresses : ∀ address, address ≠ slot.address →
    after.slotAt? address = memory.slotAt? address

/-- It is enough to look at the variables by name, if the slot is not moved. -/
theorem StoredIn.of_names {memory after : Memory} {target : Variable} {slot : Local}
    (ordered : memory.Ordered) (ordered' : after.Ordered)
    (byName : after.lookup target = some slot)
    (stays : ∀ old, memory.lookup target = some old → old.address = slot.address)
    (otherNames : ∀ other, other ≠ target → after.lookup other = memory.lookup other) :
    StoredIn memory target slot after where
  byName := byName
  byAddress := ordered'.slotAt?_eq_some_iff.2 ⟨rfl, target, byName⟩
  stays := stays
  otherNames := otherNames
  otherAddresses := by
    intro address helsewhere
    apply Option.ext
    intro found
    rw [ordered.slotAt?_eq_some_iff, ordered'.slotAt?_eq_some_iff]
    refine and_congr_right fun haddress => exists_congr fun other => ?_
    by_cases hother : other = target
    · -- Neither before nor after is the variable itself found here, for its slot is elsewhere.
      subst hother
      refine ⟨fun hafter => ?_, fun hbefore => ?_⟩
      · cases byName.symm.trans hafter
        exact absurd haddress.symm helsewhere
      · exact absurd (haddress.symm.trans (stays found hbefore)) helsewhere
    · rw [otherNames other hother]

end Primer.Memory
