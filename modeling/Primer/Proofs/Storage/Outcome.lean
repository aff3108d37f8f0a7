import Primer.Storage.Replay

/-!
# How a replay ends

The program has one outcome for each pair of limits. It can end early at eight points (`checks`):
when a step is recorded and the snapshots so far leave no room for it, and when the heap cannot give
the block of `baz`. The first of them that the limits do not meet decides; if they meet all, the
replay leaves one snapshot for each step, and the memory after each step (`Step.memory`) tells what
can be read there.

The program is walked action by action. `Guarded` says that an action ends early with the first
unmet one of some checks and otherwise leaves a known session, and sequences of actions collect the
checks of their parts (`Guarded.bind`).
-/

namespace Primer.Storage

open Primer.Memory

/-! ## The limits that are checked -/

/-- The room that the snapshot of a step takes up. -/
def Step.size : Step → Nat
  | .programStart => 45
  | .enterMain => 46
  | .enterDemo => 49
  | .declareBar => 55
  | .allocateBaz => 62
  | .returnFromDemo => 56
  | .exitMain => 45

/-- The steps that are recorded before a step. -/
def Step.before (step : Step) : List Step := Step.all.takeWhile fun other => other ≠ step

/-- A point at which the program can end early. -/
inductive Check where
  /-- There is room for the snapshot of a step. -/
  | room (step : Step)
  /-- The heap can give the block of `baz`. -/
  | block
deriving Repr, DecidableEq

namespace Check

/-- Whether the program goes on after a check. -/
def Met (limits : Limits) : Check → Prop
  | room step => total Step.size step.before + step.size ≤ limits.snapshots
  | block => wordSize ≤ limits.heap

instance (limits : Limits) : (check : Check) → Decidable (check.Met limits)
  | room step => inferInstanceAs (Decidable (total Step.size step.before + step.size ≤ _))
  | block => inferInstanceAs (Decidable (wordSize ≤ _))

/-- The fault that an unmet check ends the program with. -/
def fault (limits : Limits) : Check → ReplayFault
  | room step => .snapshot ⟨total Step.size step.before, step.size, limits.snapshots⟩
  | block => .memory (.outOfMemory wordSize 0 limits.heap)

end Check

/-- All checks, in the order of the program. -/
def checks : List Check :=
  [.room .programStart, .room .enterMain, .room .enterDemo, .room .declareBar, .block,
    .room .allocateBaz, .room .returnFromDemo, .room .exitMain]

/-- The fault of the first check that the limits do not meet. -/
def firstFault (limits : Limits) (checks : List Check) : Option ReplayFault :=
  checks.findSome? fun check => if check.Met limits then none else some (check.fault limits)

section FirstFault

variable {limits : Limits}

theorem firstFault_append (front back : List Check) :
    firstFault limits (front ++ back) =
      (firstFault limits front).or (firstFault limits back) :=
  List.findSome?_append

theorem firstFault_cons (check : Check) (rest : List Check) :
    firstFault limits (check :: rest) =
      if check.Met limits then firstFault limits rest else some (check.fault limits) := by
  by_cases met : check.Met limits <;> simp [firstFault, met]

theorem firstFault_eq_none_iff {checks : List Check} :
    firstFault limits checks = none ↔ ∀ check ∈ checks, check.Met limits := by
  simp [firstFault]

/-- The first fault is that of a check that is not met, all checks before it being met. -/
theorem firstFault_eq_some_iff {checks : List Check} {fault : ReplayFault} :
    firstFault limits checks = some fault ↔
      ∃ passed check left, checks = passed ++ check :: left ∧
        ¬check.Met limits ∧ check.fault limits = fault ∧
          ∀ earlier ∈ passed, earlier.Met limits := by
  simp only [firstFault, List.findSome?_eq_some_iff, Option.ite_none_left_eq_some,
    Option.some.injEq, ite_eq_left_iff, reduceCtorEq, imp_false, Decidable.not_not, and_assoc]

theorem firstFault_rooms_ne (steps : List Step) (cause : Memory.Fault) :
    firstFault limits (steps.map .room) ≠ some (.memory cause) := by
  intro hfault
  obtain ⟨_, check, _, hsplit, _, hcheck, _⟩ := firstFault_eq_some_iff.1 hfault
  have hmem : check ∈ steps.map .room := hsplit ▸ List.mem_append_right _ List.mem_cons_self
  obtain ⟨step, _, rfl⟩ := List.mem_map.1 hmem
  cases hcheck

theorem total_before_le {earlier later : Step} (mem : earlier ∈ later.before) :
    total Step.size earlier.before + earlier.size ≤ total Step.size later.before := by
  revert mem
  cases later <;> cases earlier <;> decide

theorem total_before_le_all (step : Step) :
    total Step.size step.before + step.size ≤ total Step.size Step.all := by
  cases step <;> decide

/-- There is room for every step if there is room for all of them together. -/
theorem checks_met_iff :
    (∀ check ∈ checks, check.Met limits) ↔
      wordSize ≤ limits.heap ∧ total Step.size Step.all ≤ limits.snapshots := by
  constructor
  · intro met
    exact ⟨met .block (by decide), met (.room .exitMain) (by decide)⟩
  · rintro ⟨hheap, hsnapshots⟩ check _
    cases check with
    | room step => exact Nat.le_trans (total_before_le_all step) hsnapshots
    | block => exact hheap

/-- There is room for every snapshot before the block is asked for exactly if there is room for all
of them together. -/
theorem earlier_met_iff :
    (∀ check ∈ Step.allocateBaz.before.map Check.room, check.Met limits) ↔
      total Step.size Step.allocateBaz.before ≤ limits.snapshots := by
  constructor
  · intro met
    exact met (.room .declareBar) (by decide)
  · intro fits check mem
    obtain ⟨step, hearlier, rfl⟩ := List.mem_map.1 mem
    exact Nat.le_trans (total_before_le hearlier) fits

/-- The heap is to blame exactly if it is too small and the four snapshots before fit. -/
theorem firstFault_eq_memory_iff {cause : Memory.Fault} :
    firstFault limits checks = some (.memory cause) ↔
      limits.heap < wordSize ∧ total Step.size Step.allocateBaz.before ≤ limits.snapshots ∧
        cause = .outOfMemory wordSize 0 limits.heap := by
  have hchecks : checks = Step.allocateBaz.before.map .room ++
      .block :: [.allocateBaz, .returnFromDemo, .exitMain].map .room := rfl
  rw [hchecks, firstFault_append, Option.or_eq_some_iff, firstFault_eq_none_iff, earlier_met_iff,
    or_iff_right (firstFault_rooms_ne _ cause), firstFault_cons]
  by_cases hblock : Check.Met limits .block
  · rw [if_pos hblock]
    exact iff_of_false (fun faulted => firstFault_rooms_ne _ cause faulted.2) fun small =>
      Nat.not_le_of_lt small.1 hblock
  · rw [if_neg hblock, ← and_left_comm, and_iff_right (Nat.lt_of_not_le hblock)]
    simp [Check.fault, eq_comm]

end FirstFault

/-! ## The memory after each step -/

/-- The heap once the block of `baz` was handed out. -/
def bazHeap (limit : Nat) (released : Bool) : Heap where
  limit
  next := heapStart + wordSize
  liveBytes := if released then 0 else wordSize
  totalBytes := wordSize
  blocks := [(heapStart, { Block.fresh wordSize with released })]

/-- The stack while `main` runs. -/
def mainStack : Stack := Stack.empty.push "main"

/-- The stack while `demo` runs and has some locals. -/
def demoStack (locals : List (String × Local)) : Stack where
  frames :=
    { function := "demo", base := stackStart, locals := ⟨locals⟩, order := locals.map Prod.fst } ::
      mainStack.frames
  next := stackStart + wordSize * locals.length

namespace Step

/-- The stack after a step. -/
def stack : Step → Stack
  | programStart | exitMain => .empty
  | enterMain | returnFromDemo => mainStack
  | enterDemo => demoStack []
  | declareBar => demoStack [("bar", ⟨.int 42, stackStart⟩)]
  | allocateBaz =>
    demoStack [("bar", ⟨.int 42, stackStart⟩), ("baz", ⟨.pointer heapStart, stackStart + wordSize⟩)]

/-- The heap after a step. -/
def heap (limit : Nat) (careful : Bool) : Step → Heap
  | programStart | enterMain | enterDemo | declareBar => .empty limit
  | allocateBaz => bazHeap limit false
  | returnFromDemo | exitMain => bazHeap limit careful

/-- The memory after a step. -/
def memory (limit : Nat) (careful : Bool) (step : Step) : Memory where
  globals := ⟨[⟨"global", .int 42, globalStart⟩]⟩
  stack := step.stack
  heap := step.heap limit careful

/-- What is recorded at a step. -/
def snapshot (limit : Nat) (careful : Bool) (step : Step) : Snapshot :=
  ⟨step.label, step.memory limit careful⟩

/-- What reading `bar` gives after a step. -/
def bar (address : Address) : Step → Except Fault Int32
  | declareBar | allocateBaz => .ok 42
  | _ => .error (.invalidAddress address)

/-- What reading through `baz` gives after a step. -/
def baz (careful : Bool) (address : Address) : Step → Except Fault Int32
  | programStart | enterMain | enterDemo | declareBar => .error (.invalidAddress address)
  | allocateBaz => .error (.uninitializedRead address)
  | returnFromDemo | exitMain =>
    .error (if careful then .useAfterFree address else .uninitializedRead address)

variable (limit : Nat) (careful : Bool) (step : Step)

theorem size_snapshot : Sized.size (step.snapshot limit careful) = step.size := by
  cases step <;> rfl

theorem readInt_global : (step.memory limit careful).readInt globalStart = .ok 42 := rfl

theorem readInt_bar : (step.memory limit careful).readInt stackStart = step.bar stackStart := by
  cases step <;> rfl

theorem readInt_baz :
    (step.memory limit careful).readInt heapStart = step.baz careful heapStart := by
  cases step <;> cases careful <;> rfl

end Step

/-! ## Walking the program -/

section Walk

variable {α β : Type} {limits : Limits} {careful : Bool}

/-- Started in a session, an action ends with the first fault of some checks, or else with a result
and a session after it. -/
def Guarded (limits : Limits) (checks : List Check) (action : Replaying α) (before : Session)
    (result : α) (after : Session) : Prop :=
  action before =
    match firstFault limits checks with
    | none => .ok (result, after)
    | some fault => .error fault

/-- Actions one after the other are guarded by the checks of both, in the same order. -/
theorem Guarded.bind {front back : List Check} {action : Replaying α} {next : α → Replaying β}
    {before middle after : Session} {first : α} {second : β}
    (guarded : Guarded limits front action before first middle)
    (rest : Guarded limits back (next first) middle second after) :
    Guarded limits (front ++ back) (action >>= next) before second after := by
  unfold Guarded at *
  show (action before >>= fun reached => next reached.1 reached.2) = _
  rw [guarded, firstFault_append]
  cases firstFault limits front with
  | none => exact rest
  | some fault => rfl

/-- An action that either succeeds or fails with the fault of one check is guarded by this check. -/
theorem Guarded.single {check : Check} {action : Replaying α} {before after : Session} {result : α}
    (met : check.Met limits → action before = .ok (result, after))
    (unmet : ¬check.Met limits → action before = .error (check.fault limits)) :
    Guarded limits [check] action before result after := by
  unfold Guarded
  rw [firstFault_cons]
  by_cases passed : check.Met limits
  · rw [met passed, if_pos passed]
    rfl
  · rw [unmet passed, if_neg passed]

theorem perform_of_ok {operation : Memory → Except Memory.Fault (α × Memory)} {before : Session}
    {memory : Memory} {result : α} (performed : operation before.memory = .ok (result, memory)) :
    Replaying.perform operation before = .ok (result, { before with memory }) := by
  rw [Replaying.perform, performed]

theorem perform_of_error {operation : Memory → Except Memory.Fault (α × Memory)}
    {before : Session} {fault : Memory.Fault} (refused : operation before.memory = .error fault) :
    Replaying.perform operation before = .error (.memory fault) := by
  rw [Replaying.perform, refused]

/-- What the memory allows at once meets no check. -/
theorem guarded_perform {operation : Memory → Except Memory.Fault (α × Memory)}
    {before : Session} {memory : Memory} {result : α}
    (performed : operation before.memory = .ok (result, memory)) :
    Guarded limits [] (Replaying.perform operation) before result { before with memory } :=
  perform_of_ok performed

/-- Getting the block asks for a word, since nothing of the heap is in use. -/
theorem guarded_allocate {log : Log Snapshot} :
    Guarded limits [.block] (Replaying.allocate wordSize)
      ⟨Step.declareBar.memory limits.heap careful, log⟩ heapStart
      ⟨{ Step.declareBar.memory limits.heap careful with heap := bazHeap limits.heap false },
        log⟩ := by
  have hempty : (Step.declareBar.memory limits.heap careful).heap.allocate wordSize =
      if limits.heap < wordSize then .error (.outOfMemory wordSize 0 limits.heap)
      else .ok (heapStart, bazHeap limits.heap false) := by
    rw [← Nat.zero_add wordSize]
    rfl
  apply Guarded.single
  · intro fits
    apply perform_of_ok
    show (Heap.allocate _ wordSize >>= _) = _
    rw [hempty, if_neg (Nat.not_lt.2 fits)]
    rfl
  · intro exceeds
    apply perform_of_error
    show (Heap.allocate _ wordSize >>= _) = _
    rw [hempty, if_pos (Nat.lt_of_not_le exceeds)]
    rfl

theorem record_of_ok {step : Step} {before : Session} {snapshots : Log Snapshot}
    (pushed : before.snapshots.push ⟨step.label, before.memory⟩ = .ok snapshots) :
    Replaying.record step before = .ok ((), { before with snapshots }) := by
  rw [Replaying.record, pushed]

theorem record_of_error {step : Step} {before : Session} {full : Log.Full}
    (refused : before.snapshots.push ⟨step.label, before.memory⟩ = .error full) :
    Replaying.record step before = .error (.snapshot full) := by
  rw [Replaying.record, refused]

/-- The log with the snapshots of some steps. -/
def logOf (limits : Limits) (careful : Bool) (steps : List Step) : Log Snapshot where
  limit := limits.snapshots
  used := total Step.size steps
  newestFirst := (steps.map (Step.snapshot limits.heap careful)).reverse

/-- A snapshot that fits is added to the log of those before it. -/
theorem push_logOf_of_le {steps : List Step} {step : Step}
    (fits : total Step.size steps + step.size ≤ limits.snapshots) :
    (logOf limits careful steps).push (step.snapshot limits.heap careful) =
      .ok (logOf limits careful (steps ++ [step])) := by
  rw [Log.push_eq_ok_iff, Step.size_snapshot]
  refine ⟨fits, rfl, ?_, ?_⟩
  · simp [logOf, total_append]
  · simp [logOf]

/-- A snapshot that does not fit is refused with what the log has used, its own size and the
limit. -/
theorem push_logOf_of_lt {steps : List Step} {step : Step}
    (exceeds : ¬total Step.size steps + step.size ≤ limits.snapshots) :
    (logOf limits careful steps).push (step.snapshot limits.heap careful) =
      .error ⟨total Step.size steps, step.size, limits.snapshots⟩ := by
  rw [Log.push_eq_error_iff, Step.size_snapshot]
  exact ⟨Nat.lt_of_not_le exceeds, rfl⟩

/-- Recording a step after those before it asks for room. -/
theorem guarded_record (careful : Bool) (step : Step) :
    Guarded limits [.room step] (Replaying.record step)
      ⟨step.memory limits.heap careful, logOf limits careful step.before⟩ ()
      ⟨step.memory limits.heap careful, logOf limits careful (step.before ++ [step])⟩ := by
  apply Guarded.single
  · intro fits
    exact record_of_ok (push_logOf_of_le fits)
  · intro exceeds
    exact record_of_error (push_logOf_of_lt exceeds)

/-- From the end of `demo` on, whatever has become of the block of `baz`. -/
theorem guarded_return (addresses : Address × Address × Address) :
    Guarded limits [.room .returnFromDemo, .room .exitMain]
      (do
        Replaying.leave
        Replaying.record .returnFromDemo
        Replaying.leave
        Replaying.record .exitMain
        return addresses)
      ⟨{ Step.allocateBaz.memory limits.heap careful with heap := bazHeap limits.heap careful },
        logOf limits careful Step.returnFromDemo.before⟩
      addresses ⟨Step.exitMain.memory limits.heap careful, logOf limits careful Step.all⟩ := by
  refine .bind (guarded_perform rfl) (.bind (guarded_record careful .returnFromDemo) ?_)
  exact .bind (guarded_perform rfl) (.bind (guarded_record careful .exitMain) rfl)

/-- The whole program meets the checks in their order. -/
theorem guarded_program :
    Guarded limits checks (Replaying.program careful) (limits.session limits.memory)
      (globalStart, stackStart, heapStart)
      ⟨Step.exitMain.memory limits.heap careful, logOf limits careful Step.all⟩ := by
  unfold Replaying.program
  -- Each `rfl` computes the memory of the next step from that of the step before.
  refine .bind (guarded_perform rfl) (.bind (guarded_record careful .programStart) ?_)
  refine .bind (guarded_perform rfl) (.bind (guarded_record careful .enterMain) ?_)
  refine .bind (guarded_perform rfl) (.bind (guarded_record careful .enterDemo) ?_)
  refine .bind (guarded_perform rfl) (.bind (guarded_record careful .declareBar) ?_)
  refine .bind guarded_allocate ?_
  refine .bind (guarded_perform rfl) (.bind (guarded_record careful .allocateBaz) ?_)
  cases careful with
  | true => exact .bind (guarded_perform rfl) (guarded_return _)
  | false => exact guarded_return _

end Walk

/-- What a replay leaves that met all checks. -/
def finished (limits : Limits) (careful : Bool) : Trace where
  snapshots := Step.all.map (Step.snapshot limits.heap careful)
  memory := Step.exitMain.memory limits.heap careful
  global := globalStart
  bar := stackStart
  baz := heapStart

/-- A replay fails with the fault of its first check that is not met, and else it finishes. -/
theorem replay_eq (limits : Limits) (careful : Bool) :
    replay limits careful =
      match firstFault limits checks with
      | none => .ok (finished limits careful)
      | some fault => .error fault := by
  have hprogram := @guarded_program limits careful
  show ((Replaying.program careful) (limits.session limits.memory) >>= _) = _
  rw [hprogram]
  cases firstFault limits checks with
  | none => rfl
  | some fault => rfl

theorem replay_eq_ok_iff {limits : Limits} {careful : Bool} {trace : Trace} :
    replay limits careful = .ok trace ↔
      firstFault limits checks = none ∧ trace = finished limits careful := by
  rw [replay_eq]
  cases firstFault limits checks <;> simp [eq_comm]

theorem replay_eq_error_iff {limits : Limits} {careful : Bool} {fault : ReplayFault} :
    replay limits careful = .error fault ↔ firstFault limits checks = some fault := by
  rw [replay_eq]
  cases firstFault limits checks <;> simp

theorem at?_finished (limits : Limits) (careful : Bool) (step : Step) :
    (finished limits careful).at? step.label = some (step.memory limits.heap careful) := by
  cases step <;> rfl

/-- **How a replay ends, for every pair of limits.** It completes exactly if the heap can give a
word and the snapshots of all steps fit together, whether the block is released or not. Else it ends
with the fault of the first check in the order of the program that the limits do not meet; the heap
is to blame only if the four snapshots before fit. A completed replay has recorded one memory for
each step, in order. The global is there throughout, and `bar` exactly from its declaration until
`demo` returns. The block of `baz` is never written; it is released when `demo` returns, or it is
all that leaks. -/
theorem replay_ends_at_the_first_unmet_check (limits : Limits) (careful : Bool) :
    ((∃ trace, replay limits careful = .ok trace) ↔
        wordSize ≤ limits.heap ∧ total Step.size Step.all ≤ limits.snapshots) ∧
      (∀ fault, replay limits careful = .error fault ↔
        ∃ passed check left, checks = passed ++ check :: left ∧
          ¬check.Met limits ∧ check.fault limits = fault ∧
            ∀ earlier ∈ passed, earlier.Met limits) ∧
      (∀ cause, replay limits careful = .error (.memory cause) ↔
        limits.heap < wordSize ∧ total Step.size Step.allocateBaz.before ≤ limits.snapshots ∧
          cause = .outOfMemory wordSize 0 limits.heap) ∧
      ∀ trace, replay limits careful = .ok trace →
        ∃ memory : Step → Memory,
          trace.snapshots = (Step.all.map fun step => ⟨step.label, memory step⟩) ∧
          trace.memory = memory .exitMain ∧
          (∀ step, trace.at? step.label = some (memory step) ∧
            Snapshot.size ⟨step.label, memory step⟩ = step.size ∧
            (memory step).readInt trace.global = .ok 42 ∧
            (memory step).readInt trace.bar = step.bar trace.bar ∧
            (memory step).readInt trace.baz = step.baz careful trace.baz) ∧
          trace.leaks = if careful then [] else [(trace.baz, wordSize)] := by
  refine ⟨?_, fun fault => ?_, fun cause => ?_, fun trace completed => ?_⟩
  · rw [← checks_met_iff, ← firstFault_eq_none_iff]
    simp [replay_eq_ok_iff]
  · rw [replay_eq_error_iff, firstFault_eq_some_iff]
  · rw [replay_eq_error_iff, firstFault_eq_memory_iff]
  · obtain ⟨_, rfl⟩ := replay_eq_ok_iff.1 completed
    refine ⟨Step.memory limits.heap careful, rfl, rfl, fun step => ?_, ?_⟩
    · exact ⟨at?_finished limits careful step, step.size_snapshot limits.heap careful,
        step.readInt_global limits.heap careful, step.readInt_bar limits.heap careful,
        step.readInt_baz limits.heap careful⟩
    · cases careful <;> rfl

/-- With the least limits under which it completes, the leaky replay leaks one word. -/
theorem least_limits_leak_a_word :
    ∃ trace, replay ⟨wordSize, 358⟩ false = .ok trace ∧ trace.leaks = [(trace.baz, wordSize)] := by
  obtain ⟨hcompletes, _, _, hshows⟩ := replay_ends_at_the_first_unmet_check ⟨wordSize, 358⟩ false
  obtain ⟨trace, completed⟩ := hcompletes.2 (by decide)
  obtain ⟨_, _, _, _, hleaks⟩ := hshows trace completed
  exact ⟨trace, completed, hleaks⟩

end Primer.Storage
