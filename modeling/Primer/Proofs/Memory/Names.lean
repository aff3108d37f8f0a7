import Primer.Proofs.Memory.InPlace
import Primer.Proofs.Memory.Variables

/-!
# Names and addresses

A command that gives a variable a value changes what is found by one name only: a declaration or an
assignment puts a slot into the innermost frame (`Stack.Stored`), a definition puts a global behind
the others, and a store by address changes the one variable that has its slot there. The globals
come from definitions alone, in their order (`names_after`), and none ever moves
(`find?_global_after`). So names and addresses see the same variables in every memory that can be
reached (`names_and_addresses_see_the_same_variables`).
-/

namespace Primer.Memory

/-! ## Giving a variable a value -/

/-- The variable that a command names, and the value it gives it. -/
def Command.assignment? : Command → Option (Variable × Value)
  | .define name value => some (.global name, value)
  | .setGlobal name value => some (.global name, value)
  | .declare name value => some (.inFrame 0 name, value)
  | .setVar name value => some (.inFrame 0 name, value)
  | _ => none

namespace Globals

variable {globals after : Globals} {name : String} {value : Value} {address : Address}

theorem define_eq_ok (defined : globals.define name value = .ok (address, after)) :
    globals.find? name = none ∧ after = ⟨globals.vars ++ [⟨name, value, address⟩]⟩ := by
  unfold define at defined
  split at defined
  · cases defined
  · next unknown =>
    split at defined
    · cases defined
    · cases defined
      exact ⟨by simpa using unknown, rfl⟩

theorem set_eq_ok (assigned : globals.set name value = .ok after) :
    (∃ var, globals.find? name = some var) ∧
      after = globals.assign (fun var => var.name = name) value := by
  unfold set at assigned
  split at assigned
  · next known =>
    cases assigned
    exact ⟨Option.isSome_iff_exists.1 known, rfl⟩
  · cases assigned

/-- Giving globals new values changes what is found by name in its value only. -/
theorem find?_assign (globals : Globals) (which : Global → Bool) (value : Value) (name : String) :
    (globals.assign which value).find? name =
      (globals.find? name).map fun var => if which var then { var with value } else var := by
  unfold assign find?
  rw [List.find?_map]
  congr 2
  funext var
  by_cases hwhich : which var <;> simp [hwhich]

theorem find?_define (globals : Globals) (var : Global) (name : String) :
    find? ⟨globals.vars ++ [var]⟩ name =
      (globals.find? name).or (if var.name = name then some var else none) := by
  unfold find?
  rw [List.find?_append, List.find?_singleton]
  simp only [decide_eq_true_eq]

theorem names_assign (globals : Globals) (which : Global → Bool) (value : Value) :
    (globals.assign which value).vars.map Global.name = globals.vars.map Global.name := by
  unfold assign
  rw [List.map_map]
  apply List.map_congr_left
  intro var _
  simp only [Function.comp_apply]
  split <;> rfl

end Globals

/-- The innermost function has the slot under the name, and nothing else was changed by name. -/
def Stack.Stored (stack : Stack) (name : String) (slot : Local) (after : Stack) : Prop :=
  ∃ frame frame' outer, stack.frames = frame :: outer ∧ after.frames = frame' :: outer ∧
    frame'.locals = frame.locals.insert name slot ∧
    ∀ old, frame.locals.find? name = some old → old.address = slot.address

namespace Stack

variable {stack after : Stack} {name : String} {value : Value} {address : Address} {slot : Local}

theorem stored_of_declare (declared : stack.declare name value = .ok (address, after)) :
    stack.Stored name ⟨value, address⟩ after := by
  unfold declare at declared
  split at declared
  · cases declared
  · next frame outer top =>
    split at declared
    · next old found =>
      cases declared
      refine ⟨frame, _, outer, top, rfl, rfl, ?_⟩
      intro other hother
      cases found.symm.trans hother
      rfl
    · next fresh =>
      split at declared
      · cases declared
      · cases declared
        refine ⟨frame, _, outer, top, rfl, rfl, ?_⟩
        intro old hold
        cases fresh.symm.trans hold

theorem stored_of_set (assigned : stack.set name value = .ok after) :
    ∃ address, stack.Stored name ⟨value, address⟩ after := by
  unfold set at assigned
  split at assigned
  · cases assigned
  · next frame outer top =>
    split at assigned
    · next old found =>
      cases assigned
      refine ⟨old.address, frame, _, outer, top, rfl, rfl, ?_⟩
      intro other hother
      cases found.symm.trans hother
      rfl
    · cases assigned

namespace Stored

theorem named_innermost (stored : stack.Stored name slot after) :
    after.named 0 name = some slot := by
  obtain ⟨frame, frame', outer, _, hafter, hlocals, _⟩ := stored
  apply named_eq_some_iff.2
  refine ⟨frame', by rw [hafter]; rfl, ?_⟩
  rw [hlocals, Table.find?_insert, if_pos rfl]

theorem named_other (stored : stack.Stored name slot after) {depth : Nat} {other : String}
    (different : depth ≠ 0 ∨ other ≠ name) : after.named depth other = stack.named depth other := by
  obtain ⟨frame, frame', outer, hbefore, hafter, hlocals, _⟩ := stored
  unfold named
  rw [hbefore, hafter]
  cases depth with
  | zero =>
    have hname : name ≠ other := fun same => different.elim (· rfl) (· same.symm)
    show frame'.locals.find? other = frame.locals.find? other
    rw [hlocals, Table.find?_insert, if_neg hname]
  | succ depth => rfl

theorem stays (stored : stack.Stored name slot after) {old : Local}
    (found : stack.named 0 name = some old) : old.address = slot.address := by
  obtain ⟨frame, frame', outer, hbefore, _, _, hstays⟩ := stored
  obtain ⟨current, hcurrent, hold⟩ := named_eq_some_iff.1 found
  rw [hbefore] at hcurrent
  cases hcurrent
  exact hstays old hold

end Stored

end Stack

section Commands

variable {memory after : Memory}

namespace StoredIn

variable {name : String} {value : Value} {address : Address}

/-- What is stored on the stack is found in the memory by name and by address. -/
theorem of_stack {stack : Stack} {slot : Local} (ordered : memory.Ordered)
    (ordered' : Ordered { memory with stack }) (stored : memory.stack.Stored name slot stack) :
    StoredIn memory (.inFrame 0 name) slot { memory with stack } := by
  refine .of_names ordered ordered' stored.named_innermost (fun _ => stored.stays) ?_
  intro other hother
  cases other with
  | global name' => rfl
  | inFrame depth name' =>
    apply stored.named_other
    by_contra hsame
    obtain ⟨rfl, rfl⟩ := not_or.1 hsame |>.imp Decidable.not_not.1 Decidable.not_not.1
    exact hother rfl

/-- What is defined among the globals is found in the memory by name and by address. -/
theorem of_define {globals : Globals} (ordered : memory.Ordered)
    (ordered' : Ordered { memory with globals })
    (defined : memory.globals.define name value = .ok (address, globals)) :
    StoredIn memory (.global name) ⟨value, address⟩ { memory with globals } := by
  obtain ⟨hfresh, rfl⟩ := Globals.define_eq_ok defined
  refine .of_names ordered ordered' ?_ ?_ ?_
  · simp only [lookup, Globals.find?_define, hfresh, if_true]
    rfl
  · intro old hold
    simp only [lookup, hfresh] at hold
    cases hold
  · intro other hother
    cases other with
    | global name' =>
      have hname : name ≠ name' := fun same => hother (congrArg Variable.global same.symm)
      simp only [lookup, Globals.find?_define, hname, if_false, Option.or_none]
    | inFrame depth name' => rfl

/-- A value given to one global is seen by its name and by its address, and at no other one. -/
theorem of_assign {var : Global} {which : Global → Bool} (ordered : memory.Ordered)
    (ordered' : Ordered { memory with globals := memory.globals.assign which value })
    (found : memory.globals.find? name = some var)
    (exact : ∀ var' ∈ memory.globals.vars, which var' = true ↔ var'.name = name) :
    StoredIn memory (.global name) ⟨value, var.address⟩
      { memory with globals := memory.globals.assign which value } := by
  refine .of_names ordered ordered' ?_ ?_ ?_
  · have hwhich : which var = true :=
      (exact var (List.mem_of_find?_eq_some found)).2 (Globals.name_of_find? found)
    simp only [lookup, Globals.find?_assign, found, Option.map_some, hwhich, if_true]
    rfl
  · intro old hold
    simp only [lookup, found, Option.map_some, Option.some.injEq] at hold
    rw [← hold]
    rfl
  · intro other hother
    cases other with
    | global name' =>
      simp only [lookup, Globals.find?_assign]
      cases hfound : memory.globals.find? name' with
      | none => rfl
      | some var' =>
        have hspared : which var' ≠ true := by
          intro hwhich
          have hname := (exact var' (List.mem_of_find?_eq_some hfound)).1 hwhich
          exact hother (congrArg Variable.global ((Globals.name_of_find? hfound).symm.trans hname))
        rw [Option.map_some, if_neg hspared]
    | inFrame depth name' => rfl

/-- A value given to a global by name is seen at its address as well. -/
theorem of_setGlobal {globals : Globals} (ordered : memory.Ordered)
    (ordered' : Ordered { memory with globals })
    (assigned : memory.globals.set name value = .ok globals) :
    ∃ address, StoredIn memory (.global name) ⟨value, address⟩ { memory with globals } := by
  obtain ⟨⟨var, hvar⟩, rfl⟩ := Globals.set_eq_ok assigned
  exact ⟨var.address, .of_assign ordered ordered' hvar fun _ _ => decide_eq_true_iff⟩

/-- A value stored at the address of a local is seen by its name as well. -/
theorem of_setAt {depth : Nat} {slot : Local} (ordered : memory.Ordered)
    (ordered' : Ordered { memory with stack := { memory.stack with
      frames := memory.stack.frames.map fun frame => frame.setAt slot.address value } })
    (found : memory.lookup (.inFrame depth name) = some slot) :
    StoredIn memory (.inFrame depth name) ⟨value, slot.address⟩
      { memory with stack := { memory.stack with
        frames := memory.stack.frames.map fun frame => frame.setAt slot.address value } } := by
  refine .of_names ordered ordered' ?_ ?_ ?_
  · have hnamed : memory.stack.named depth name = some slot := found
    simp only [lookup, Stack.named_setAt, hnamed, Option.map_some, if_true]
  · intro old hold
    rw [Option.some.inj (found.symm.trans hold)]
  · intro other hother
    cases other with
    | global name' => rfl
    | inFrame depth' name' =>
      simp only [lookup, Stack.named_setAt]
      cases hnamed : memory.stack.named depth' name' with
      | none => rfl
      | some slot' =>
        have hfound : memory.lookup (.inFrame depth' name') = some slot' := hnamed
        have hspared : slot'.address ≠ slot.address := fun same =>
          hother (ordered.lookup_unique hfound found same)
        rw [Option.map_some, if_neg hspared]

/-- An integer can be stored at the address of any variable. -/
theorem of_writeInt {target : Variable} {slot : Local} (ordered : memory.Ordered)
    (found : memory.lookup target = some slot) (value : Int32)
    (keeps : ∀ after, memory.writeInt slot.address value = .ok after → after.Ordered) :
    ∃ after, memory.writeInt slot.address value = .ok after ∧
      StoredIn memory target ⟨.int value, slot.address⟩ after := by
  cases target with
  | global name =>
    obtain ⟨var, hvar, rfl⟩ := Option.map_eq_some_iff.1 found
    have hmem := List.mem_of_find?_eq_some hvar
    have hwrote : memory.writeInt var.address value = .ok { memory with
        globals := memory.globals.assign (fun var' => var'.address = var.address) (.int value) } :=
      writeInt_eq_ok_iff.2 (.inr (.inl ⟨ordered.globals.bounds hmem, _,
        Globals.setAt_eq_ok_iff.2 ⟨⟨var, hmem, rfl⟩, rfl⟩, rfl⟩))
    refine ⟨_, hwrote, .of_assign ordered (keeps _ hwrote) hvar ?_⟩
    -- Globals are told apart by their addresses and by their names alike.
    intro var' hmem'
    rw [decide_eq_true_iff, ← Globals.name_of_find? hvar]
    constructor
    · intro haddress
      rw [List.inj_on_of_nodup_map ordered.globals.apart hmem' hmem haddress]
    · intro hname
      rw [List.inj_on_of_nodup_map ordered.names hmem' hmem hname]
  | inFrame depth name =>
    have hmem := Stack.mem_locals_of_named found
    have hwrote : memory.writeInt slot.address value = .ok { memory with
        stack := { memory.stack with
          frames := memory.stack.frames.map fun frame =>
            frame.setAt slot.address (.int value) } } :=
      writeInt_eq_ok_iff.2 (.inl ⟨ordered.stack.lt_globalStart hmem, _,
        Stack.setAt_eq_ok_iff.2 ⟨⟨slot, hmem, rfl⟩, rfl⟩, rfl⟩)
    exact ⟨_, hwrote, .of_setAt ordered (keeps _ hwrote) found⟩

/-- A command that names a variable and gives it a value stores it in the slot of the variable. -/
theorem of_perform {command : Command} {answer : Answer} {target : Variable}
    (ordered : memory.Ordered) (ordered' : after.Ordered)
    (performed : memory.perform command = .ok (answer, after))
    (assigns : command.assignment? = some (target, value)) :
    ∃ address, StoredIn memory target ⟨value, address⟩ after ∧
      (answer = .done ∨ answer = .address address) := by
  cases command with
  | define name value =>
    cases assigns
    obtain ⟨⟨address, globals⟩, hdefined, hsame⟩ := except_bind_ok.1 performed
    cases hsame
    exact ⟨address, .of_define ordered ordered' hdefined, .inr rfl⟩
  | setGlobal name value =>
    cases assigns
    obtain ⟨globals, hassigned, hsame⟩ := except_bind_ok.1 performed
    cases hsame
    obtain ⟨address, hstored⟩ := of_setGlobal ordered ordered' hassigned
    exact ⟨address, hstored, .inl rfl⟩
  | declare name value =>
    cases assigns
    obtain ⟨⟨address, stack⟩, hdeclared, hsame⟩ := except_bind_ok.1 performed
    cases hsame
    exact ⟨address, .of_stack ordered ordered' (Stack.stored_of_declare hdeclared), .inr rfl⟩
  | setVar name value =>
    cases assigns
    obtain ⟨stack, hassigned, hsame⟩ := except_bind_ok.1 performed
    cases hsame
    obtain ⟨address, hstored⟩ := Stack.stored_of_set hassigned
    exact ⟨address, .of_stack ordered ordered' hstored, .inl rfl⟩
  | _ => cases assigns

end StoredIn

/-! ## Definitions -/

/-- The name that a command defines. -/
def Command.defined? : Command → Option String
  | .define name _ => some name
  | _ => none

/-- The names defined by commands one after another, without those that are refused. -/
def definitions (memory : Memory) : List Command → List String
  | [] => []
  | command :: rest =>
    match memory.perform command with
    | .ok (_, after) => command.defined?.toList ++ definitions after rest
    | .error _ => definitions memory rest

/-- A definition puts its name behind the others, and no other command changes the names. -/
theorem names_of_perform {command : Command} {answer : Answer}
    (performed : memory.perform command = .ok (answer, after)) :
    after.globals.vars.map Global.name =
      memory.globals.vars.map Global.name ++ command.defined?.toList := by
  cases command with
  | define name value =>
    obtain ⟨⟨address, globals⟩, hdefined, hsame⟩ := except_bind_ok.1 performed
    cases hsame
    obtain ⟨_, rfl⟩ := Globals.define_eq_ok hdefined
    exact List.map_append
  | setGlobal name value =>
    obtain ⟨globals, hassigned, hsame⟩ := except_bind_ok.1 performed
    cases hsame
    obtain ⟨_, rfl⟩ := Globals.set_eq_ok hassigned
    exact (Globals.names_assign _ _ _).trans (List.append_nil _).symm
  | writeInt address value =>
    obtain ⟨changed, hwrote, hsame⟩ := except_bind_ok.1 performed
    cases hsame
    rcases writeInt_eq_ok_iff.1 hwrote with
      ⟨_, stack, _, rfl⟩ | ⟨_, globals, hwritten, rfl⟩ | ⟨_, heap, _, rfl⟩
    · exact (List.append_nil _).symm
    · obtain ⟨_, rfl⟩ := Globals.setAt_eq_ok_iff.1 hwritten
      exact (Globals.names_assign _ _ _).trans (List.append_nil _).symm
    · exact (List.append_nil _).symm
  | pop =>
    simp only [perform] at performed
    split at performed <;> cases performed <;> exact (List.append_nil _).symm
  | getVar name | read address length | block address | readInt address
  | blockInitialized address offset length | declare name value | setVar name value
  | removeLocal name | allocate size | free base | write address bytes
  | blockWrite base offset bytes =>
    obtain ⟨_, _, hsame⟩ := except_bind_ok.1 performed
    cases hsame
    exact (List.append_nil _).symm
  | getGlobal name | globalAt address | stackAt address | currentFrame | liveBlocks
  | region address | dump | push function | declareMany stem count =>
    cases performed
    exact (List.append_nil _).symm

/-- The names of the globals, in order of definition, are those of the definitions that were
granted. -/
theorem names_after (memory : Memory) (commands : List Command) :
    (memory.after commands).globals.vars.map Global.name =
      memory.globals.vars.map Global.name ++ memory.definitions commands := by
  induction commands generalizing memory with
  | nil => exact (List.append_nil _).symm
  | cons command rest ih =>
    have hafter : memory.after (command :: rest) = (memory.step command).after rest := rfl
    rw [hafter, step, definitions]
    cases hperform : memory.perform command with
    | ok result =>
      dsimp only
      rw [ih, names_of_perform hperform, List.append_assoc]
    | error fault => exact ih memory

/-- A global stays where it is, whatever is commanded. -/
theorem find?_global_after {name : String} {var : Global}
    (found : memory.globals.find? name = some var) (commands : List Command) :
    ∃ var', (memory.after commands).globals.find? name = some var' ∧
      var'.address = var.address := by
  refine after_induction (motive := fun memory => ∃ var', memory.globals.find? name = some var' ∧
    var'.address = var.address) ⟨var, found, rfl⟩ ?_ commands
  rintro memory command after ⟨var', hfound, haddress⟩ changed
  cases changed with
  | globals changed =>
    cases changed with
    | define fresh room =>
      refine ⟨var', ?_, haddress⟩
      rw [Globals.find?_define, hfound]
      rfl
    | @assign which value =>
      rw [Globals.find?_assign, hfound]
      refine ⟨_, rfl, ?_⟩
      dsimp only
      split <;> exact haddress
  | _ => exact ⟨var', hfound, haddress⟩

end Commands

/-! ## Memories that can be reached -/

namespace Arena

/-- The arena that a command leaves, whether it is refused or not. -/
def step (arena : Arena) (command : Command) : Arena :=
  match InPlace.perform command arena with
  | .ok _ after => after
  | .error _ after => after

/-- The arena after commands carried out one after another. -/
def after (arena : Arena) (commands : List Command) : Arena := commands.foldl step arena

variable {arena : Arena}

theorem Sound.ordered (sound : arena.Sound) : arena.memory.Ordered :=
  ⟨sound.stack, sound.globals.laid, sound.globals.names_nodup⟩

/-- A command in place leaves an arena sound and does to its memory what it does in the view. -/
theorem Sound.step (sound : arena.Sound) (command : Command) :
    (arena.step command).Sound ∧ (arena.step command).memory = arena.memory.step command := by
  have hfollows := InPlace.perform_follows sound command
  unfold Arena.step Memory.step
  generalize InPlace.perform command arena = result at hfollows ⊢
  generalize arena.memory.perform command = seen at hfollows ⊢
  cases hfollows with
  | done kept => exact ⟨kept, rfl⟩
  | refused => exact ⟨sound, rfl⟩

theorem Sound.after (sound : arena.Sound) (commands : List Command) :
    (arena.after commands).Sound ∧
      (arena.after commands).memory = arena.memory.after commands := by
  induction commands generalizing arena with
  | nil => exact ⟨sound, rfl⟩
  | cons command rest ih =>
    obtain ⟨hsound, hmemory⟩ := sound.step command
    obtain ⟨hlast, hshown⟩ := ih hsound
    rw [hmemory] at hshown
    exact ⟨hlast, hshown⟩

end Arena

theorem ordered_after (limit : Nat) (commands : List Command) :
    ((Memory.empty limit).after commands).Ordered := by
  obtain ⟨hsound, hmemory⟩ := (Arena.Sound.empty limit).after commands
  have hordered := hsound.ordered
  rwa [hmemory] at hordered

/-- **Names and addresses see the same variables.** Whatever a memory was commanded before, each
local of each running function is what a search by its address finds. The directory of the globals
leads from exactly the names that were defined, in their order, to the variables with these names,
which lie in consecutive slots and are what a search by their addresses finds. A command that names
a variable and gives it a value stores it, unless it is refused, in the slot of that variable; an
integer stored at the address of any variable is found by its name; and in both cases no other
variable changes, by name or by address. A global that was defined stays at its address for ever. -/
theorem names_and_addresses_see_the_same_variables (limit : Nat) (commands : List Command) :
    let arena := (Arena.empty limit).after commands
    let memory := (Memory.empty limit).after commands
    arena.memory = memory ∧
      (∀ frame ∈ memory.stack.frames, ∀ name var, (name, var) ∈ frame.locals.entries →
        frame.locals.find? name = some var ∧ memory.stack.at? var.address = some var) ∧
      (arena.globals.Leads ((Memory.empty limit).definitions commands) ∧
        ∀ name, arena.globals.find? name = memory.globals.find? name) ∧
      (∀ command target value answer after, command.assignment? = some (target, value) →
        memory.perform command = .ok (answer, after) →
        ∃ address, StoredIn memory target ⟨value, address⟩ after ∧
          (answer = .done ∨ answer = .address address)) ∧
      (∀ target slot value, memory.lookup target = some slot →
        ∃ after, memory.perform (.writeInt slot.address value) = .ok (.done, after) ∧
          StoredIn memory target ⟨.int value, slot.address⟩ after) ∧
      ∀ name var more, memory.globals.find? name = some var →
        ∃ var', (memory.after more).globals.find? name = some var' ∧
          var'.address = var.address := by
  intro arena memory
  obtain ⟨hsound, hshown⟩ := (Arena.Sound.empty limit).after commands
  have hmemory : arena.memory = memory := hshown
  have hordered : memory.Ordered := ordered_after limit commands
  -- What a command leads to can be reached as well.
  have hkeeps : ∀ {command answer after}, memory.perform command = .ok (answer, after) →
      after.Ordered := by
    intro command answer after hperform
    have hnext := ordered_after limit (commands ++ [command])
    have hstep : (Memory.empty limit).after (commands ++ [command]) = memory.step command :=
      List.foldl_append
    rwa [hstep, step, hperform] at hnext
  refine ⟨hmemory, ?_, ⟨?_, ?_⟩, ?_, ?_, ?_⟩
  · intro frame hframe name var hentry
    have hmem : var ∈ memory.stack.locals :=
      List.mem_flatMap.2 ⟨frame, hframe, List.mem_map_of_mem hentry⟩
    exact ⟨hordered.stack.find?_of_mem hframe hentry,
      hordered.stack.at?_eq_some_iff.2 ⟨rfl, hordered.stack.exists_named hmem⟩⟩
  · have hnames : arena.globals.vars.map Global.name = (Memory.empty limit).definitions commands :=
      (congrArg (fun memory => memory.globals.vars.map Global.name) hmemory).trans
        (names_after (Memory.empty limit) commands)
    exact hnames ▸ hsound.globals.leads
  · intro name
    rw [← hmemory]
    exact hsound.globals.find?_eq name
  · intro command target value answer after hassigns hperform
    exact StoredIn.of_perform hordered (hkeeps hperform) hperform hassigns
  · intro target slot value hfound
    have hperform : ∀ {after}, memory.writeInt slot.address value = .ok after →
        memory.perform (.writeInt slot.address value) = .ok (.done, after) :=
      fun hwrote => except_bind_ok.2 ⟨_, hwrote, rfl⟩
    obtain ⟨after, hwrote, hstored⟩ := StoredIn.of_writeInt hordered hfound value fun _ hwrote =>
      hkeeps (hperform hwrote)
    exact ⟨after, hperform hwrote, hstored⟩
  · intro name var more hfound
    exact find?_global_after hfound more

/-- One name for a global and for locals of two functions. An integer stored at the address of the
caller's local is found there only, and the callee's is declared again in its slot. -/
theorem one_name_for_three_variables :
    let memory := (Memory.empty 0).after [.define "x" (.int 1), .push "main",
      .declare "x" (.int 2), .push "f", .declare "x" (.int 3)]
    (∃ after, memory.lookup (.inFrame 1 "x") = some ⟨.int 2, 4⟩ ∧
      memory.perform (.writeInt 4 9) = .ok (.done, after) ∧
      after.lookup (.inFrame 1 "x") = some ⟨.int 9, 4⟩ ∧
      after.lookup (.inFrame 0 "x") = some ⟨.int 3, 8⟩ ∧
      after.lookup (.global "x") = some ⟨.int 1, globalStart⟩) ∧
    ∃ after, memory.perform (.declare "x" (.int 5)) = .ok (.address 8, after) ∧
      after.slotAt? 8 = some ⟨.int 5, 8⟩ ∧ after.slotAt? 4 = some ⟨.int 2, 4⟩ ∧
      ∃ var', (after.after [.pop, .define "y" .uninitialized]).globals.find? "x" = some var' ∧
        var'.address = globalStart := by
  intro memory
  obtain ⟨_, _, _, hassigned, hwritten, _⟩ := names_and_addresses_see_the_same_variables 0
    [.define "x" (.int 1), .push "main", .declare "x" (.int 2), .push "f", .declare "x" (.int 3)]
  obtain ⟨_, _, _, _, _, hstays⟩ := names_and_addresses_see_the_same_variables 0
    [.define "x" (.int 1), .push "main", .declare "x" (.int 2), .push "f", .declare "x" (.int 3),
      .declare "x" (.int 5)]
  refine ⟨?_, ?_⟩
  · have hcaller : memory.lookup (.inFrame 1 "x") = some ⟨.int 2, 4⟩ := rfl
    obtain ⟨after, hperform, hstored⟩ := hwritten (.inFrame 1 "x") ⟨.int 2, 4⟩ 9 hcaller
    exact ⟨after, hcaller, hperform, hstored.byName,
      hstored.otherNames (.inFrame 0 "x") (by decide), hstored.otherNames (.global "x") (by decide)⟩
  · have hperform : memory.perform (.declare "x" (.int 5)) =
        .ok (.address 8, memory.step (.declare "x" (.int 5))) := rfl
    obtain ⟨address, hstored, _⟩ := hassigned (.declare "x" (.int 5)) (.inFrame 0 "x") (.int 5)
      _ _ rfl hperform
    have haddress : address = 8 := (hstored.stays ⟨.int 3, 8⟩ rfl).symm
    subst haddress
    exact ⟨_, hperform, hstored.byAddress, hstored.otherAddresses 4 (by decide),
      hstays "x" ⟨"x", .int 1, globalStart⟩ [.pop, .define "y" .uninitialized] rfl⟩

end Primer.Memory
