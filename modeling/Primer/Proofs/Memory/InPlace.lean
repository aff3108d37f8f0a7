import Primer.Proofs.Memory.Directory

/-!
# Operations in place do what the memory does

An operation in place `Follows` a function of the state if it finishes where the function gives a
result, in a good state that shows this result, and is otherwise refused for the same reason and
leaves the state as it was. Every operation follows the one on globals, stack or heap of which it is
the form in place, and so every command does (`perform_follows`). Good states are those in which the
directory leads to the variables (`Directory.Sound`), the frames tile the stack and the blocks tile
the heap: a search then has at most one hit, so that changing the first hit is changing all
(`modify_findIdx`), and putting back a block that was not changed changes nothing
(`Heap.Tiled.setBlock_self`).
-/

namespace Primer.Memory

/-- The first result is that of an operation in place on `state`, the second that of a function. -/
inductive Follows {ε σ α γ : Type} (good : σ → Prop) (report : α → σ → γ) (state : σ) :
    EStateM.Result ε σ α → Except ε γ → Prop
  | done {answer : α} {after : σ} (kept : good after) :
      Follows good report state (.ok answer after) (.ok (report answer after))
  | refused {fault : ε} : Follows good report state (.error fault state) (.error fault)

namespace Follows

variable {ε σ τ α β γ δ : Type} {good : σ → Prop} {report : α → σ → γ} {state after : σ}
  {result : EStateM.Result ε σ α} {seen : Except ε γ}

theorem ok {answer : α} {view : γ} (kept : good after) (shows : report answer after = view) :
    Follows (ε := ε) good report state (.ok answer after) (.ok view) := by
  subst shows
  exact .done kept

theorem view (follows : Follows good report state result seen) (rebuild : γ → δ) :
    Follows good (fun value after => rebuild (report value after)) state result
      (rebuild <$> seen) := by
  cases follows with
  | done kept => exact .done kept
  | refused => exact .refused

theorem map {operation : EStateM ε σ α} {tell : β → σ → γ} (answer : α → β)
    (follows : Follows good (fun value => tell (answer value)) state (operation state) seen) :
    Follows good tell state ((answer <$> operation) state) seen := by
  show Follows good tell state (EStateM.map answer operation state) seen
  unfold EStateM.map
  generalize operation state = result at follows
  cases follows with
  | done kept => exact .done kept
  | refused => exact .refused

/-- What was granted does not depend on the state that a refusal would have kept. -/
theorem from_anywhere {view : γ} (follows : Follows good report state result (.ok view))
    (other : σ) : Follows good report other result (.ok view) := by
  cases follows with
  | done kept => exact .done kept

theorem eq_ok {view : γ} (follows : Follows good report state result (.ok view)) :
    ∃ answer after, result = .ok answer after ∧ report answer after = view := by
  cases follows with
  | done _ => exact ⟨_, _, rfl, rfl⟩

/-- An operation on a part that follows a function is an operation on the whole that does. -/
theorem within {part : σ → τ} {put : τ → σ → σ} {operation : EStateM ε τ α} {fine : τ → Prop}
    {tell : α → τ → β} {seen : Except ε β}
    (follows : Follows fine tell (part state) (operation (part state)) seen) (rebuild : β → γ)
    (same : put (part state) state = state) (kept : ∀ after, fine after → good (put after state))
    (shows : ∀ value after, report value (put after state) = rebuild (tell value after)) :
    Follows good report state (Primer.within part put operation state) (rebuild <$> seen) := by
  unfold Primer.within
  generalize operation (part state) = result at follows
  cases follows with
  | done fine => exact .ok (kept _ fine) (shows _ _)
  | refused =>
    simp only [same]
    exact .refused

end Follows

section Opening

variable {ε σ α : Type} {state : σ}

@[simp] theorem get_bind_apply (next : σ → EStateM ε σ α) :
    (get >>= next) state = next state state := rfl

theorem bind_apply_of_ok {β : Type} {first : EStateM ε σ α} {next : α → EStateM ε σ β} {answer : α}
    {after : σ} (finished : first state = .ok answer after) :
    (first >>= next) state = next answer after := by
  simp only [bind, EStateM.bind, finished]

@[simp] theorem modify_apply (change : σ → σ) :
    (modify change : EStateM ε σ PUnit) state = .ok ⟨⟩ (change state) := rfl

end Opening

/-! ## Changing the first hit -/

/-- Where at most one item fits, changing the first that fits is changing all that fit. -/
theorem modify_findIdx {α : Type} {items : List α} {fits : α → Bool} (change : α → α)
    (unique : items.Pairwise fun item other => fits item = true → fits other = false) :
    items.modify (items.findIdx fits) change =
      items.map fun item => if fits item then change item else item := by
  induction items with
  | nil => rfl
  | cons item rest ih =>
    obtain ⟨hfirst, hrest⟩ := List.pairwise_cons.1 unique
    rw [List.findIdx_cons, List.map_cons]
    cases hfits : fits item with
    | true =>
      have hothers : (rest.map fun item => if fits item then change item else item) = rest := by
        refine (List.map_congr_left fun other hmem => ?_).trans (List.map_id rest)
        rw [hfirst other hmem hfits]
        rfl
      rw [hothers]
      rfl
    | false =>
      rw [← ih hrest]
      rfl

/-- Keys without duplicates: at most one item has a given key. -/
theorem unique_of_nodup {α κ : Type} [DecidableEq κ] {key : α → κ} {items : List α}
    (apart : (items.map key).Nodup) (here : κ) :
    items.Pairwise fun item other =>
      decide (key item = here) = true → decide (key other = here) = false := by
  refine (List.pairwise_map.1 apart).imp fun hne hitem => ?_
  simp only [decide_eq_true_eq, decide_eq_false_iff_not] at hitem ⊢
  exact fun hother => hne (hitem.trans hother.symm)

/-! ## Locals and blocks of which there is one -/

namespace Frame

variable {frame : Frame} {address : Address}

theorem isSome_at?_iff : (frame.at? address).isSome ↔ address ∈ frame.slots.map Prod.snd := by
  unfold at? slots Table.values
  rw [List.find?_isSome, List.map_map, List.mem_map]
  constructor
  · rintro ⟨var, hmem, hhere⟩
    obtain ⟨entry, hentry, rfl⟩ := List.mem_map.1 hmem
    exact ⟨entry, hentry, by simpa using hhere⟩
  · rintro ⟨entry, hentry, rfl⟩
    exact ⟨entry.2, List.mem_map_of_mem hentry, by simp⟩

theorem setAt_of_missing (missing : (frame.at? address).isSome = false) (value : Value) :
    frame.setAt address value = frame := by
  have hmiss : address ∉ frame.slots.map Prod.snd := by
    rw [← isSome_at?_iff, missing]
    exact Bool.false_ne_true
  unfold setAt Table.map
  have hsame : (frame.locals.entries.map fun entry =>
      (entry.1, if entry.2.address = address then { entry.2 with value } else entry.2)) =
        frame.locals.entries := by
    refine (List.map_congr_left fun entry hmem => ?_).trans (List.map_id _)
    have hother : entry.2.address ≠ address := by
      rintro rfl
      exact hmiss (List.mem_map_of_mem (List.mem_map_of_mem hmem))
    rw [if_neg hother]
    rfl
  rw [hsame]

/-- If no two locals share an address, changing the first one that is hit changes all that are. -/
theorem setFirst_eq_setAt (apart : (frame.slots.map Prod.snd).Nodup) (address : Address)
    (value : Value) : frame.setFirst address value = frame.setAt address value := by
  have hapart : (frame.locals.entries.map fun entry => entry.2.address).Nodup := by
    simpa [slots, Function.comp_def] using apart
  have hall := modify_findIdx (fun entry : String × Local => (entry.1, { entry.2 with value }))
    (unique_of_nodup hapart address)
  unfold setFirst setAt Table.map
  simp only [hall]
  congr 2
  apply List.map_congr_left
  intro entry _
  by_cases here : entry.2.address = address <;> simp [here]

end Frame

/-- On a stack that is laid out, changing the first frame that is hit changes all that are. -/
theorem Stack.Laid.modify_first {stack : Stack} (laid : stack.Laid) (address : Address)
    (value : Value) :
    stack.frames.modify (stack.frames.findIdx fun frame => (frame.at? address).isSome)
        (fun frame => frame.setFirst address value) =
      stack.frames.map fun frame => frame.setAt address value := by
  obtain ⟨hapart, hdisjoint⟩ := List.nodup_flatMap.1 laid.stacked.apart
  have hunique : stack.frames.Pairwise fun frame other =>
      (frame.at? address).isSome = true → (other.at? address).isSome = false := by
    refine hdisjoint.imp fun hdisjoint hhere => ?_
    rw [Bool.eq_false_iff]
    intro hthere
    exact hdisjoint (Frame.isSome_at?_iff.1 hhere) (Frame.isSome_at?_iff.1 hthere)
  rw [modify_findIdx _ hunique]
  apply List.map_congr_left
  intro frame hmem
  cases hhere : (frame.at? address).isSome with
  | true => exact Frame.setFirst_eq_setAt (hapart frame hmem) address value
  | false => exact (Frame.setAt_of_missing hhere value).symm

/-- Putting a block in its own place changes nothing, since no other block begins there. -/
theorem Heap.Tiled.setBlock_self {heap : Heap} {base : Address} {block : Block}
    (tiled : heap.Tiled) (found : heap.block? base = some block) :
    heap.setBlock base block = heap := by
  have hsame : (heap.blocks.map fun entry => if entry.1 = base then (entry.1, block) else entry) =
      heap.blocks := by
    refine (List.map_congr_left fun entry hmem => ?_).trans (List.map_id _)
    by_cases here : entry.1 = base
    · subst here
      rw [if_pos rfl, Tiles.eq_of_base tiled (mem_of_blockAt found) hmem]
      rfl
    · exact if_neg here
  unfold setBlock
  rw [hsame]

namespace InPlace

section Globals

variable {directory : Directory}

/-- Defining a global in place keeps the directory in step with the variables. -/
theorem define_follows (sound : directory.Sound) (name : String) (value : Value) :
    Follows Directory.Sound (fun address directory => (address, directory.globals)) directory
      (define name value directory) (directory.globals.define name value) := by
  unfold Globals.define
  rw [← sound.isSome_index name, ← sound.next]
  simp only [define, get_bind_apply]
  split
  · exact .refused
  · next unknown =>
    split
    · exact .refused
    · next room =>
      exact .done (sound.define (by simpa using unknown) (Nat.le_of_not_lt room))

/-- The directory leads to the variable that a search by name finds. -/
theorem setGlobal_follows (sound : directory.Sound) (name : String) (value : Value) :
    Follows Directory.Sound (fun _ directory => directory.globals) directory
      (setGlobal name value directory) (directory.globals.set name value) := by
  unfold Globals.set
  rw [← sound.isSome_index name]
  simp only [setGlobal, get_bind_apply]
  cases hindex : directory.index.find? name with
  | none => exact .refused
  | some position =>
    have hassign := modify_findIdx (fun var : Global => { var with value })
      (unique_of_nodup sound.names_nodup name)
    rw [sound.findIdx_eq hindex] at hassign
    simp only [modify_apply, hassign]
    exact .done (sound.assign _ value)

/-- The first global that is hit is the only one. -/
theorem setGlobalAt_follows (sound : directory.Sound) (address : Address) (value : Value) :
    Follows Directory.Sound (fun _ directory => directory.globals) directory
      (setGlobalAt address value directory) (directory.globals.setAt address value) := by
  have hsome : (directory.globals.at? address).isSome =
      (directory.vars.findIdx? fun var => var.address = address).isSome := by
    unfold Globals.at?
    rw [List.findIdx?_isSome, Bool.eq_iff_iff, List.find?_isSome, List.any_eq_true]
    rfl
  unfold Globals.setAt
  rw [hsome]
  simp only [setGlobalAt, get_bind_apply]
  cases hindex : directory.vars.findIdx? (fun var => var.address = address) with
  | none => exact .refused
  | some position =>
    have hassign := modify_findIdx (fun var : Global => { var with value })
      (unique_of_nodup sound.laid.apart address)
    rw [Directory.globals, (List.findIdx?_eq_some_iff_findIdx_eq.1 hindex).2] at hassign
    simp only [modify_apply, hassign]
    exact .done (sound.assign _ value)

end Globals

/-! ## Stack -/

section Stack

variable {stack : Stack}

theorem push_follows (laid : stack.Laid) (function : String) :
    Follows (ε := Fault) Stack.Laid (fun _ stack => stack) stack (push function stack)
      (.ok (stack.push function)) :=
  .done (laid.change .push)

theorem pop_follows (laid : stack.Laid) :
    Follows (ε := Fault) Stack.Laid Prod.mk stack (pop stack)
      (.ok (stack.pop?.map Prod.fst, (stack.pop?.map Prod.snd).getD stack)) := by
  simp only [pop, Stack.pop?, get_bind_apply]
  cases htop : stack.frames with
  | nil => exact .done laid
  | cons frame outer => exact .done (laid.change (.pop htop))

/-- The three parts of declaring a local, one after another, come to declaring it at once. -/
theorem declare_follows (laid : stack.Laid) (name : String) (value : Value) :
    Follows Stack.Laid Prod.mk stack (declare name value stack) (stack.declare name value) := by
  obtain ⟨frames, next⟩ := stack
  cases frames with
  | nil => exact .refused
  | cons frame outer =>
    have hlook : onCurrent (return (← get).locals.find? name) ⟨frame :: outer, next⟩ =
        .ok (frame.locals.find? name) ⟨frame :: outer, next⟩ := rfl
    rw [declare, bind_apply_of_ok hlook]
    cases hfound : frame.locals.find? name with
    | some existing =>
      simp only [Stack.declare, hfound]
      exact .done (laid.change (.assign (.inl rfl) rfl hfound))
    | none =>
      simp only [Stack.declare, hfound, get_bind_apply]
      split
      · exact .refused
      · next room => exact .done (laid.change (.declare rfl hfound (Nat.le_of_not_lt room)))

/-- A row of declarations stops in place where it stops in the view, and what was declared by then
stays declared. -/
theorem declareFrom_follows (laid : stack.Laid) (stem : String) (index count : Nat)
    (declared : Declared) :
    Follows (ε := Fault) Stack.Laid Prod.mk stack (declareFrom stem index count declared stack)
      (.ok (stack.declareFrom stem index count declared)) := by
  induction count generalizing stack index declared with
  | zero => exact .done laid
  | succ count ih =>
    have hfollows := declare_follows laid (stem ++ toString index) (.int (Int32.ofNat index))
    unfold declareFrom Stack.declareFrom
    generalize declare (stem ++ toString index) (.int (Int32.ofNat index)) stack = result
      at hfollows ⊢
    generalize stack.declare (stem ++ toString index) (.int (Int32.ofNat index)) = seen
      at hfollows ⊢
    cases hfollows with
    | done kept => exact (ih kept (index + 1) _).from_anywhere stack
    | refused => exact .done laid

theorem setVar_follows (laid : stack.Laid) (name : String) (value : Value) :
    Follows Stack.Laid (fun _ stack => stack) stack (setVar name value stack)
      (stack.set name value) := by
  obtain ⟨frames, next⟩ := stack
  cases frames with
  | nil => exact .refused
  | cons frame outer =>
    simp only [Stack.set, setVar, onCurrent, within, get_bind_apply]
    cases hfound : frame.locals.find? name with
    | none => exact .refused
    | some var => exact .done (laid.change (.assign (.inr rfl) rfl hfound))

theorem removeLocal_follows (laid : stack.Laid) (name : String) :
    Follows Stack.Laid Prod.mk stack (removeLocal name stack) (stack.remove name) := by
  obtain ⟨frames, next⟩ := stack
  cases frames with
  | nil => exact .refused
  | cons frame outer => exact .done (laid.change (.remove rfl))

/-- The innermost frame that is hit is the only one. -/
theorem setSlot_follows (laid : stack.Laid) (address : Address) (value : Value) :
    Follows Stack.Laid (fun _ stack => stack) stack (setSlot address value stack)
      (stack.setAt address value) := by
  have hsome : (stack.at? address).isSome =
      (stack.frames.findIdx? fun frame => (frame.at? address).isSome).isSome := by
    unfold Stack.at?
    rw [List.findIdx?_isSome, Bool.eq_iff_iff, List.findSome?_isSome_iff, List.any_eq_true]
  unfold Stack.setAt
  simp only [setSlot, get_bind_apply]
  cases hindex : stack.frames.findIdx? (fun frame => (frame.at? address).isSome) with
  | none =>
    rw [hsome, hindex]
    exact .refused
  | some depth =>
    have hfound : (stack.at? address).isSome := by rw [hsome, hindex]; rfl
    have hdepth := (List.findIdx?_eq_some_iff_findIdx_eq.1 hindex).2
    have hall := laid.modify_first address value
    rw [hdepth] at hall
    simp only [modify_apply, hall, hfound, if_true]
    exact .done (laid.change (.write hfound))

end Stack

/-! ## Heap -/

section Heap

variable {heap : Heap}

theorem fill_eq (offset : Nat) (bytes : List UInt8) (block : Block) :
    fill offset bytes block =
      .ok () { block with cells := writeCells block.cells offset bytes } := by
  induction bytes generalizing block offset with
  | nil => rfl
  | cons byte rest ih => exact ih (offset + 1) _

theorem writeInto_follows (offset : Nat) (bytes : List UInt8) (block : Block) :
    Follows (fun _ => True) (fun _ block => block) block (writeInto offset bytes block)
      (block.write offset bytes) := by
  unfold Block.write
  simp only [writeInto, get_bind_apply]
  by_cases hfits : offset + bytes.length ≤ block.size
  · rw [if_neg (Nat.not_lt_of_le hfits), if_pos hfits, fill_eq]
    exact .done trivial
  · rw [if_pos (Nat.lt_of_not_le hfits), if_neg hfits]
    exact .refused

/-- Comparing a request with what is left of the limit comes to comparing the sum with the limit. -/
theorem allocate_follows (tiled : heap.Tiled) (size : Nat) :
    Follows Heap.Tiled Prod.mk heap (allocate size heap) (heap.allocate size) := by
  simp only [allocate, get_bind_apply]
  obtain ⟨rfl, came⟩ | ⟨hpositive, hfull, came⟩ | ⟨hpositive, hfits, hlarge, came⟩ |
    ⟨hpositive, hfits, hsmall, came⟩ := heap.allocate_cases size
  · rw [came, if_pos rfl]
    exact .refused
  · rw [came, if_neg (Nat.ne_of_gt hpositive), if_pos (by omega)]
    exact .refused
  · rw [came, if_neg (Nat.ne_of_gt hpositive), if_neg (by omega), Block.make_of_lt hlarge]
    exact .refused
  · rw [came, if_neg (Nat.ne_of_gt hpositive), if_neg (by omega), Block.make_of_le hsmall]
    exact .done (tiled.change (.allocate hpositive hfits hsmall))

theorem free_follows (tiled : heap.Tiled) (base : Address) :
    Follows Heap.Tiled (fun _ heap => heap) heap (free base heap) (heap.free base) := by
  unfold Heap.free
  simp only [free, get_bind_apply]
  cases hfound : heap.block? base with
  | none => exact .refused
  | some block =>
    dsimp only
    split
    · exact .refused
    · next live => exact .done (tiled.change (.free hfound (Bool.eq_false_iff.2 live)))

/-- A write that is refused by its block puts the same block back in its place. -/
theorem writeBlock_follows (tiled : heap.Tiled) (base : Address) (offset : Nat)
    (bytes : List UInt8) :
    Follows Heap.Tiled (fun _ heap => heap) heap (writeBlock base offset bytes heap)
      (heap.writeBlock base offset bytes) := by
  cases hlive : heap.liveBlock base with
  | error fault =>
    simp only [Heap.writeBlock, writeBlock, onBlock, get_bind_apply, hlive]
    exact .refused
  | ok block =>
    have hblock := writeInto_follows offset bytes block
    have htiled : ∀ {after}, heap.writeBlock base offset bytes = .ok after → after.Tiled :=
      fun wrote => tiled.change (Heap.change_of_writeBlock wrote)
    have hseen : heap.writeBlock base offset bytes =
        (block.write offset bytes).map (heap.setBlock base) := by
      simp only [Heap.writeBlock, hlive]
      show (block.write offset bytes >>= fun block => pure (heap.setBlock base block)) = _
      cases block.write offset bytes <;> rfl
    rw [hseen] at htiled ⊢
    simp only [writeBlock, onBlock, within, get_bind_apply, hlive]
    generalize writeInto offset bytes block = result at hblock ⊢
    generalize block.write offset bytes = seen at hblock htiled ⊢
    cases hblock with
    | done _ => exact .done (htiled rfl)
    | refused =>
      -- The block is put back as it was found.
      simp only [tiled.setBlock_self (Heap.liveBlock_eq_ok_iff.1 hlive).1]
      exact .refused

theorem write_follows (tiled : heap.Tiled) (address : Address) (bytes : List UInt8) :
    Follows Heap.Tiled (fun _ heap => heap) heap (write address bytes heap)
      (heap.write address bytes) := by
  cases hlocated : heap.locate address with
  | error fault =>
    simp only [Heap.write, write, get_bind_apply, hlocated]
    exact .refused
  | ok place =>
    simp only [Heap.write, write, get_bind_apply, hlocated]
    exact writeBlock_follows tiled place.1 place.2 bytes

end Heap

end InPlace

/-! ## The whole memory -/

/-- The globals are found through their directory, and stack and heap are laid out in order. -/
structure Arena.Sound (arena : Arena) : Prop where
  globals : arena.globals.Sound
  stack : arena.stack.Laid
  heap : arena.heap.Tiled

theorem Arena.Sound.empty (limit : Nat) : Sound (.empty limit) := ⟨.empty, .empty, rfl⟩

namespace InPlace

variable {arena : Arena} {α γ δ : Type} {seen : Except Fault γ} (report : α → Arena → δ)

/-- What the globals show of an operation on them, the memory shows of the operation on an arena. -/
theorem onGlobals_follows {operation : InPlace Directory α} {tell : α → Directory → γ}
    (sound : arena.Sound) (rebuild : γ → δ)
    (follows : Follows Directory.Sound tell arena.globals (operation arena.globals) seen)
    (shows : ∀ value globals, report value { arena with globals } = rebuild (tell value globals)) :
    Follows Arena.Sound report arena (onGlobals operation arena) (rebuild <$> seen) :=
  follows.within rebuild rfl (fun _ kept => ⟨kept, sound.stack, sound.heap⟩) shows

theorem onStack_follows {operation : InPlace Stack α} {tell : α → Stack → γ}
    (sound : arena.Sound) (rebuild : γ → δ)
    (follows : Follows Stack.Laid tell arena.stack (operation arena.stack) seen)
    (shows : ∀ value stack, report value { arena with stack } = rebuild (tell value stack)) :
    Follows Arena.Sound report arena (onStack operation arena) (rebuild <$> seen) :=
  follows.within rebuild rfl (fun _ kept => ⟨sound.globals, kept, sound.heap⟩) shows

theorem onHeap_follows {operation : InPlace Heap α} {tell : α → Heap → γ}
    (sound : arena.Sound) (rebuild : γ → δ)
    (follows : Follows Heap.Tiled tell arena.heap (operation arena.heap) seen)
    (shows : ∀ value heap, report value { arena with heap } = rebuild (tell value heap)) :
    Follows Arena.Sound report arena (onHeap operation arena) (rebuild <$> seen) :=
  follows.within rebuild rfl (fun _ kept => ⟨sound.globals, sound.stack, kept⟩) shows

/-- An integer is stored in place in the region where the view stores it. -/
theorem writeInt_follows (sound : arena.Sound) (address : Address) (value : Int32) :
    Follows Arena.Sound (fun _ arena => arena.memory) arena (writeInt address value arena)
      (arena.memory.writeInt address value) := by
  unfold writeInt Memory.writeInt
  cases Region.of address with
  | stack =>
    exact onStack_follows (fun _ arena => arena.memory) sound
      (fun stack => { arena.memory with stack })
      (setSlot_follows sound.stack address (.int value)) fun _ _ => rfl
  | global =>
    exact onGlobals_follows (fun _ arena => arena.memory) sound
      (fun globals => { arena.memory with globals })
      (setGlobalAt_follows sound.globals address (.int value)) fun _ _ => rfl
  | heap =>
    exact onHeap_follows (fun _ arena => arena.memory) sound
      (fun heap => { arena.memory with heap })
      (write_follows sound.heap address (intToBytes value)) fun _ _ => rfl

theorem answer_follows {operation : InPlace Arena α} {seen : Except Fault (Answer × Memory)}
    (answer : α → Answer)
    (follows : Follows Arena.Sound (fun value arena => (answer value, arena.memory)) arena
      (operation arena) seen) :
    Follows Arena.Sound (fun answer arena => (answer, arena.memory)) arena
      ((answer <$> operation) arena) seen :=
  follows.map answer

/-- A question leaves the arena as it is, whatever the answer is. -/
theorem consult_follows (sound : arena.Sound) (answer : α → Answer)
    (question : Arena → Except Fault α) :
    Follows Arena.Sound (fun answer arena => (answer, arena.memory)) arena
      (consult (fun arena => answer <$> question arena) arena)
      ((fun found => (answer found, arena.memory)) <$> question arena) := by
  simp only [consult]
  cases question arena with
  | ok found => exact .done sound
  | error fault => exact .refused

/-- A command carried out in place shows what it does to the memory, and leaves the arena as it was
if it is refused. -/
theorem perform_follows (sound : arena.Sound) (command : Command) :
    Follows Arena.Sound (fun answer arena => (answer, arena.memory)) arena
      (perform command arena) (arena.memory.perform command) := by
  cases command with
  | define name value =>
    exact answer_follows .address
      (onGlobals_follows _ sound _ (define_follows sound.globals name value) fun _ _ => rfl)
  | setGlobal name value =>
    exact answer_follows (fun _ => .done)
      (onGlobals_follows _ sound _ (setGlobal_follows sound.globals name value) fun _ _ => rfl)
  | push function =>
    exact answer_follows (fun _ => .done)
      (onStack_follows _ sound (fun stack => (.done, { arena.memory with stack }))
        (push_follows sound.stack function) fun _ _ => rfl)
  | pop =>
    have hpop := answer_follows .frame (onStack_follows _ sound
      (fun popped => (.frame popped.1, { arena.memory with stack := popped.2 }))
      (pop_follows sound.stack) fun _ _ => rfl)
    have hseen : arena.memory.perform .pop =
        .ok (.frame (arena.stack.pop?.map Prod.fst), { arena.memory with
          stack := (arena.stack.pop?.map Prod.snd).getD arena.stack }) := by
      simp only [Memory.perform, Arena.memory]
      cases arena.stack.pop? <;> rfl
    rw [hseen]
    exact hpop
  | declare name value =>
    exact answer_follows .address
      (onStack_follows _ sound _ (declare_follows sound.stack name value) fun _ _ => rfl)
  | declareMany stem count =>
    exact answer_follows .declared
      (onStack_follows _ sound
        (fun row => (Answer.declared row.1, { arena.memory with stack := row.2 }))
        (declareFrom_follows sound.stack stem 0 count {}) fun _ _ => rfl)
  | setVar name value =>
    exact answer_follows (fun _ => .done)
      (onStack_follows _ sound _ (setVar_follows sound.stack name value) fun _ _ => rfl)
  | removeLocal name =>
    exact answer_follows .slot
      (onStack_follows _ sound _ (removeLocal_follows sound.stack name) fun _ _ => rfl)
  | allocate size =>
    exact answer_follows .address
      (onHeap_follows _ sound _ (allocate_follows sound.heap size) fun _ _ => rfl)
  | free base =>
    exact answer_follows (fun _ => .done)
      (onHeap_follows _ sound _ (free_follows sound.heap base) fun _ _ => rfl)
  | write address bytes =>
    exact answer_follows (fun _ => .done)
      (onHeap_follows _ sound _ (write_follows sound.heap address bytes) fun _ _ => rfl)
  | blockWrite base offset bytes =>
    exact answer_follows (fun _ => .done)
      (onHeap_follows _ sound _ (writeBlock_follows sound.heap base offset bytes) fun _ _ => rfl)
  | writeInt address value =>
    have hwrote := writeInt_follows sound address value
    exact answer_follows (fun _ => .done) (hwrote.view fun memory => (Answer.done, memory))
  | getGlobal name =>
    have hfound := sound.globals.find?_eq name
    exact .ok sound (congrArg (fun found => (Answer.global found, arena.memory)) hfound)
  | getVar name =>
    exact consult_follows sound (fun var => .slot (some var)) fun arena => arena.stack.get name
  | read address length =>
    exact consult_follows sound .bytes fun arena => arena.heap.read address length
  | block base =>
    exact consult_follows sound .block fun arena => arena.heap.liveBlock base
  | blockInitialized base offset length =>
    exact consult_follows sound (fun block => .flag (block.isInitialized offset length))
      fun arena => arena.heap.liveBlock base
  | readInt address =>
    exact consult_follows sound .int fun arena => arena.memory.readInt address
  | globalAt address | stackAt address | currentFrame | liveBlocks | region address | dump =>
    exact .done sound

end InPlace

end Primer.Memory
