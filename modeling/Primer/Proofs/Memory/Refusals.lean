import Primer.Proofs.Memory.InPlace

/-!
# Refused requests

A workspace carries out requests in place, so a refused one could leave something of what it had
begun. None does. A request to a workspace in good order is done as the session that it shows does
it, or it is refused as that session refuses it, and then the workspace is the one before
(`Outcome`, `Sound.perform`). Requests carried out one after another keep the workspace in good
order (`Sound.run`), so those that are refused can be left out (`Sound.run_accepted`).
-/

namespace Primer.Memory.Workspace

/-! ## Requests one after another -/

/-- Each request with what came of it, and the workspace that the last one left. -/
def run (workspace : Workspace) :
    List Request → List (Request × Except Refusal Reply) × Workspace
  | [] => ([], workspace)
  | request :: rest =>
    match perform request workspace with
    | .ok reply after =>
      let (transcript, last) := run after rest
      ((request, .ok reply) :: transcript, last)
    | .error refusal after =>
      let (transcript, last) := run after rest
      ((request, .error refusal) :: transcript, last)

/-- The entries of a transcript whose requests were not refused. -/
def accepted (transcript : List (Request × Except Refusal Reply)) :
    List (Request × Except Refusal Reply) :=
  transcript.filter fun entry => entry.2.isOk

theorem map_fst_run (workspace : Workspace) (requests : List Request) :
    (workspace.run requests).1.map Prod.fst = requests := by
  induction requests generalizing workspace with
  | nil => rfl
  | cons request rest ih =>
    rw [run]
    cases perform request workspace with
    | ok reply after => exact congrArg (request :: ·) (ih after)
    | error refusal after => exact congrArg (request :: ·) (ih after)

/-! ## One request -/

/-- The arena is in good order, and so are all copies of it. -/
structure Sound (workspace : Workspace) : Prop where
  arena : workspace.arena.Sound
  captures : ∀ capture ∈ workspace.captures.newestFirst, capture.arena.Sound

/-- The result of a request is what the session does, or the request is refused and nothing is
left of it. -/
inductive Outcome (workspace : Workspace) (request : Request) :
    EStateM.Result Refusal Workspace Reply → Prop
  | done {reply : Reply} {after : Workspace} (kept : after.Sound)
      (seen : workspace.session.step request = (reply, after.session)) :
      Outcome workspace request (.ok reply after)
  | refused {refusal : Refusal}
      (seen : workspace.session.step request = (refusal.reply, workspace.session)) :
      Outcome workspace request (.error refusal workspace)

variable {workspace : Workspace}

theorem session_get? (workspace : Workspace) (index : Nat) :
    workspace.session.snapshots.get? index =
      (workspace.captures.get? index).map Capture.snapshot := by
  simp only [session, Log.get?, Log.items, ← List.map_reverse, List.getElem?_map]

/-- A command in a workspace is the command in its arena; the past is left alone. -/
theorem perform_command (workspace : Workspace) (command : Command) :
    perform (.command command) workspace =
      match InPlace.perform command workspace.arena with
      | .ok answer arena => .ok (.answer answer) { workspace with arena }
      | .error fault arena => .error (.fault fault) { workspace with arena } := by
  simp only [perform, bind, EStateM.bind, within, EStateM.adaptExcept]
  cases InPlace.perform command workspace.arena <;> rfl

/-- Recording keeps a copy of the arena, if there is room for it; the arena is left alone. -/
theorem perform_record (workspace : Workspace) (label : String) :
    perform (.record label) workspace =
      match InPlace.keep ⟨label, workspace.arena⟩ workspace.captures with
      | .ok _ captures => .ok
          (.recorded ⟨Sized.size (⟨label, workspace.arena⟩ : Capture), none⟩)
          { workspace with captures }
      | .error full captures => .error (.full full) { workspace with captures } := by
  rw [perform, get_bind_apply]
  simp only [bind, EStateM.bind, within, EStateM.adaptExcept]
  cases InPlace.keep _ workspace.captures <;> rfl

namespace Sound

theorem empty (limits : Limits) : Sound (.empty limits) := ⟨.empty limits.heap, nofun⟩

/-- A command that is granted comes out as in the session, and one that is refused leaves the
workspace as it was. -/
theorem command (sound : workspace.Sound) (command : Command) :
    workspace.Outcome (.command command) (Workspace.perform (.command command) workspace) := by
  have hfollows := InPlace.perform_follows sound.arena command
  have hmemory : workspace.session.memory = workspace.arena.memory := rfl
  rw [perform_command]
  generalize InPlace.perform command workspace.arena = result at hfollows ⊢
  generalize hseen : workspace.arena.memory.perform command = seen at hfollows
  cases hfollows with
  | done kept =>
    refine .done ⟨kept, sound.captures⟩ ?_
    simp only [Session.step, hmemory, hseen]
    rfl
  | refused =>
    refine .refused ?_
    simp only [Session.step, hmemory, hseen]
    rfl

theorem record (sound : workspace.Sound) (label : String) :
    workspace.Outcome (.record label) (Workspace.perform (.record label) workspace) := by
  let capture : Capture := ⟨label, workspace.arena⟩
  have hsnapshot : (⟨label, workspace.session.memory⟩ : Snapshot) = capture.snapshot := rfl
  rw [perform_record]
  by_cases hfull : workspace.captures.limit < workspace.captures.used + capture.snapshot.size
  · have hkeep : InPlace.keep capture workspace.captures = .error
        ⟨workspace.captures.used, capture.snapshot.size, workspace.captures.limit⟩
        workspace.captures := by
      rw [InPlace.keep, get_bind_apply]
      exact congrFun (if_pos hfull) _
    have hpush : workspace.session.snapshots.push capture.snapshot = .error
        ⟨workspace.captures.used, capture.snapshot.size, workspace.captures.limit⟩ :=
      if_neg (Nat.not_le_of_lt hfull)
    rw [hkeep]
    refine .refused ?_
    simp only [Session.step, hsnapshot, hpush]
    rfl
  · have hkeep : InPlace.keep capture workspace.captures = .ok ()
        { workspace.captures with
          used := workspace.captures.used + capture.snapshot.size
          newestFirst := capture :: workspace.captures.newestFirst } := by
      rw [InPlace.keep, get_bind_apply]
      exact congrFun (if_neg hfull) _
    have hpush : workspace.session.snapshots.push capture.snapshot = .ok
        { workspace.session.snapshots with
          used := workspace.captures.used + capture.snapshot.size
          newestFirst := capture.snapshot :: workspace.session.snapshots.newestFirst } :=
      if_pos (Nat.le_of_not_lt hfull)
    have hcaptures : ∀ kept ∈ capture :: workspace.captures.newestFirst, kept.arena.Sound := by
      intro kept hmem
      rcases List.mem_cons.1 hmem with rfl | hold
      · exact sound.arena
      · exact sound.captures kept hold
    rw [hkeep]
    refine .done ⟨sound.arena, hcaptures⟩ ?_
    simp only [Session.step, hsnapshot, hpush]
    rfl

theorem restore (sound : workspace.Sound) (index : Nat) :
    workspace.Outcome (.restore index) (Workspace.perform (.restore index) workspace) := by
  have hget := session_get? workspace index
  simp only [Workspace.perform, get_bind_apply]
  cases hfound : workspace.captures.get? index with
  | none =>
    rw [hfound] at hget
    refine .done sound ?_
    simp only [Session.step, hget, Option.map_none]
  | some capture =>
    rw [hfound] at hget
    have hmem : capture ∈ workspace.captures.newestFirst :=
      List.mem_reverse.1 (List.mem_of_getElem? hfound)
    refine .done ⟨sound.captures capture hmem, sound.captures⟩ ?_
    simp only [Session.step, hget, Option.map_some]
    rfl

theorem perform (sound : workspace.Sound) (request : Request) :
    workspace.Outcome request (Workspace.perform request workspace) := by
  cases request with
  | command command => exact sound.command command
  | record label => exact sound.record label
  | restore index => exact sound.restore index

theorem step (sound : workspace.Sound) (request : Request) :
    ((workspace.step request).1, (workspace.step request).2.session) =
      workspace.session.step request := by
  have houtcome := sound.perform request
  unfold Workspace.step
  generalize Workspace.perform request workspace = result at houtcome ⊢
  cases houtcome with
  | done _ seen => exact seen.symm
  | refused seen => exact seen.symm

/-- A workspace shows the session after all requests that were carried out in it. -/
theorem run (sound : workspace.Sound) (requests : List Request) :
    (workspace.run requests).2.Sound ∧
      (workspace.run requests).2.session = workspace.session.after requests := by
  induction requests generalizing workspace with
  | nil => exact ⟨sound, rfl⟩
  | cons request rest ih =>
    have houtcome := sound.perform request
    have hafter : workspace.session.after (request :: rest) =
        (workspace.session.step request).2.after rest := rfl
    rw [Workspace.run, hafter]
    generalize Workspace.perform request workspace = result at houtcome ⊢
    cases houtcome with
    | done kept seen =>
      rw [seen]
      exact ih kept
    | refused seen =>
      rw [seen]
      exact ih sound

/-- Leaving out the refused requests changes neither the end nor what came of the others. -/
theorem run_accepted (sound : workspace.Sound) (requests : List Request) :
    workspace.run ((accepted (workspace.run requests).1).map Prod.fst) =
      (accepted (workspace.run requests).1, (workspace.run requests).2) := by
  induction requests generalizing workspace with
  | nil => rfl
  | cons request rest ih =>
    have houtcome := sound.perform request
    rw [Workspace.run]
    generalize hperform : Workspace.perform request workspace = result at houtcome ⊢
    -- What is accepted is accepted again from here, and what is refused leads back here.
    cases houtcome with
    | done kept _ =>
      show Workspace.run workspace (request :: (accepted _).map Prod.fst) = _
      simp only [Workspace.run, hperform, ih kept]
      rfl
    | refused _ =>
      exact ih sound

end Sound

/-- **Refused requests leave no trace.** A workspace that was used in any way shows what its session
would be. If it refuses a request it is afterwards the workspace it was, with every directory,
frame, counter, byte, block and copy, and its session would refuse the request with the same reply.
So whatever is asked next, leaving out the requests that are refused leads to the same workspace,
and the others come out as they did. -/
theorem refused_requests_leave_no_trace (limits : Limits) (requests : List Request) :
    let workspace := ((Workspace.empty limits).run requests).2
    workspace.session = (limits.session limits.memory).after requests ∧
      (∀ request,
        ((workspace.step request).1, (workspace.step request).2.session) =
            workspace.session.step request ∧
          ∀ refusal after, perform request workspace = .error refusal after → after = workspace) ∧
      ∀ more,
        let (transcript, last) := workspace.run more
        transcript.map Prod.fst = more ∧
          workspace.run ((accepted transcript).map Prod.fst) = (accepted transcript, last) := by
  intro workspace
  obtain ⟨hsound, hsession⟩ := (Sound.empty limits).run requests
  refine ⟨hsession, ?_, ?_⟩
  · intro request
    refine ⟨hsound.step request, ?_⟩
    intro refusal after hrefused
    have houtcome := hsound.perform request
    rw [hrefused] at houtcome
    cases houtcome with
    | refused _ => rfl
  · intro more
    exact ⟨map_fst_run workspace more, hsound.run_accepted more⟩

/-- A block that was released already is not released again, and the second copy does not fit. -/
theorem second_release_and_second_copy_leave_no_trace :
    let workspace := ((Workspace.empty ⟨8, 20⟩).run
      [.command (.allocate 8), .command (.free heapStart)]).2
    (∃ after, after = workspace ∧ perform (.command (.free heapStart)) workspace =
        .error (.fault (.doubleFree heapStart)) after) ∧
      workspace.run [.record "one"] =
        ([(.record "one", .ok (.recorded ⟨11, none⟩))],
          (workspace.run [.command (.free heapStart), .record "one", .record "two"]).2) := by
  intro workspace
  obtain ⟨_, hrefused, hrun⟩ := refused_requests_leave_no_trace ⟨8, 20⟩
    [.command (.allocate 8), .command (.free heapStart)]
  obtain ⟨after, hperform⟩ : ∃ after, perform (.command (.free heapStart)) workspace =
      .error (.fault (.doubleFree heapStart)) after := ⟨_, rfl⟩
  refine ⟨⟨after, (hrefused _).2 _ after hperform, hperform⟩, ?_⟩
  exact (hrun [.command (.free heapStart), .record "one", .record "two"]).2

end Primer.Memory.Workspace
