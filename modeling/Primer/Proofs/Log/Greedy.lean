import Primer.Memory.InPlace

/-!
# A log keeps the greedy selection

Items are offered to a log one after another (`offer`), and each is kept in place or refused. What
is kept is the greedy selection (`greedy`): going through the items from the first on, take each
that still fits. It need not be the first items, since a small item may be kept after a large one
was refused. The invariant is that the counter tells what the kept items take up together, and that
this is within the limit (`Sound`). How offers go on is said once (`Offered`), and the rest follows
by induction: the invariant is kept (`Offered.sound`), and the counter never falls
(`Offered.used_le`), so that an item that was refused would not fit at the end either
(`Offered.lt_of_refused`).
-/

namespace Primer.Log

open Primer.Memory

variable {α : Type} [Sized α]

/-- Each item with what came of it, and the log that the last one left. -/
def offer (log : Log α) : List α → List (α × Except Full Unit) × Log α
  | [] => ([], log)
  | item :: rest =>
    match InPlace.keep item log with
    | .ok _ after =>
      let (transcript, last) := offer after rest
      ((item, .ok ()) :: transcript, last)
    | .error full after =>
      let (transcript, last) := offer after rest
      ((item, .error full) :: transcript, last)

/-- The items of a transcript that were not refused. -/
def accepted (transcript : List (α × Except Full Unit)) : List α :=
  (transcript.filter fun entry => entry.2.isOk).map Prod.fst

/-- Take each item that fits into the room that those taken before it have left. -/
def greedy (room : Nat) : List α → List α
  | [] => []
  | item :: rest =>
    if Sized.size item ≤ room then item :: greedy (room - Sized.size item) rest
    else greedy room rest

/-! ## One item -/

/-- Keeping in place does what a push gives, and leaves the log as it was if the push is refused. -/
theorem keep_eq (item : α) (log : Log α) :
    InPlace.keep item log =
      match log.push item with
      | .ok longer => .ok () longer
      | .error full => .error full log := by
  by_cases exceeds : log.limit < log.used + Sized.size item
  · rw [push, if_neg (Nat.not_le_of_lt exceeds)]
    exact congrFun (if_pos exceeds) log
  · rw [push, if_pos (Nat.le_of_not_lt exceeds)]
    exact congrFun (if_neg exceeds) log

theorem exists_keep_eq_ok_iff {item : α} {log : Log α} :
    (∃ after, InPlace.keep item log = .ok () after) ↔ log.used + Sized.size item ≤ log.limit := by
  rw [keep_eq]
  cases hpush : log.push item with
  | ok longer => exact iff_of_true ⟨longer, rfl⟩ (push_eq_ok_iff.1 hpush).1
  | error full => exact iff_of_false nofun (Nat.not_le_of_lt (push_eq_error_iff.1 hpush).1)

/-- An item that does not fit is refused with the three numbers that tell why, and the log is left
alone. -/
theorem keep_eq_error_iff {item : α} {log after : Log α} {full : Full} :
    InPlace.keep item log = .error full after ↔
      log.limit < log.used + Sized.size item ∧
        full = ⟨log.used, Sized.size item, log.limit⟩ ∧ after = log := by
  rw [← and_assoc, ← push_eq_error_iff, keep_eq]
  cases log.push item with
  | ok longer => exact iff_of_false nofun nofun
  | error cause => simp [eq_comm]

/-- The counter tells what the items take up together, and that is within the limit. -/
structure Sound (log : Log α) : Prop where
  used : log.used = total Sized.size log.items
  within : log.used ≤ log.limit

theorem Sound.empty (limit : Nat) : Sound (.empty limit : Log α) := ⟨rfl, Nat.zero_le limit⟩

theorem Sound.push {log longer : Log α} {item : α} (sound : log.Sound)
    (pushed : log.push item = .ok longer) : longer.Sound := by
  obtain ⟨hfits, hlimit, hused, _⟩ := push_eq_ok_iff.1 pushed
  refine ⟨?_, ?_⟩
  · rw [hused, items_push pushed, total_append, sound.used]
    rfl
  · rw [hused, hlimit]
    exact hfits

/-! ## Items one after another -/

/-- How items are offered: each is kept, or it is refused and the next one meets the same log. -/
inductive Offered : Log α → List α → List (α × Except Full Unit) → Log α → Prop
  | nil {log : Log α} : Offered log [] [] log
  | kept {log longer last : Log α} {item : α} {items : List α}
      {transcript : List (α × Except Full Unit)} (pushed : log.push item = .ok longer)
      (rest : Offered longer items transcript last) :
      Offered log (item :: items) ((item, .ok ()) :: transcript) last
  | refused {log last : Log α} {item : α} {items : List α} {why : Full}
      {transcript : List (α × Except Full Unit)} (lost : log.push item = .error why)
      (rest : Offered log items transcript last) :
      Offered log (item :: items) ((item, .error why) :: transcript) last

theorem offered_offer (log : Log α) (items : List α) :
    Offered log items (log.offer items).1 (log.offer items).2 := by
  induction items generalizing log with
  | nil => exact .nil
  | cons item rest ih =>
    rw [offer, keep_eq]
    cases hpush : log.push item with
    | ok longer => exact .kept hpush (ih longer)
    | error why => exact .refused hpush (ih log)

namespace Offered

variable {log last : Log α} {items : List α} {transcript : List (α × Except Full Unit)}

theorem map_fst (offered : Offered log items transcript last) :
    transcript.map Prod.fst = items := by
  induction offered with
  | nil => rfl
  | kept _ _ ih => exact congrArg (_ :: ·) ih
  | refused _ _ ih => exact congrArg (_ :: ·) ih

theorem limit_eq (offered : Offered log items transcript last) : last.limit = log.limit := by
  induction offered with
  | nil => rfl
  | kept pushed _ ih => exact ih.trans (push_eq_ok_iff.1 pushed).2.1
  | refused _ _ ih => exact ih

theorem sound (offered : Offered log items transcript last) (sound : log.Sound) : last.Sound := by
  induction offered with
  | nil => exact sound
  | kept pushed _ ih => exact ih (sound.push pushed)
  | refused _ _ ih => exact ih sound

theorem used_le (offered : Offered log items transcript last) : log.used ≤ last.used := by
  induction offered with
  | nil => exact Nat.le_refl _
  | kept pushed _ ih =>
    have hused := (push_eq_ok_iff.1 pushed).2.2.1
    omega
  | refused _ _ ih => exact ih

/-- The log ends with the items that were accepted, in the order in which they were offered. -/
theorem items_eq (offered : Offered log items transcript last) :
    last.items = log.items ++ accepted transcript := by
  induction offered with
  | nil => exact (List.append_nil _).symm
  | kept pushed _ ih =>
    rw [ih, items_push pushed, List.append_assoc]
    rfl
  | refused _ _ ih => exact ih

/-- The accepted items are those of the greedy selection for the room that is left. -/
theorem accepted_eq (offered : Offered log items transcript last) (within : log.used ≤ log.limit) :
    accepted transcript = greedy (log.limit - log.used) items := by
  induction offered with
  | nil => rfl
  | @kept log longer _ item _ _ pushed _ ih =>
    obtain ⟨hfits, hlimit, hused, _⟩ := push_eq_ok_iff.1 pushed
    have hroom : longer.limit - longer.used = log.limit - log.used - Sized.size item := by omega
    rw [greedy, if_pos (by omega), ← hroom, ← ih (by omega)]
    rfl
  | refused lost _ ih =>
    have hfull := (push_eq_error_iff.1 lost).1
    rw [greedy, if_neg (by omega)]
    exact ih within

/-- What was refused would exceed the limit also beside what is kept at the end. -/
theorem lt_of_refused (offered : Offered log items transcript last) {item : α} {why : Full}
    (mem : (item, .error why) ∈ transcript) : last.limit < last.used + Sized.size item := by
  induction offered with
  | nil => cases mem
  | kept _ _ ih =>
    rcases List.mem_cons.1 mem with here | later
    · cases here
    · exact ih later
  | refused lost rest ih =>
    rcases List.mem_cons.1 mem with here | later
    · -- It did not fit when it came, and since then the counter has not fallen.
      cases here
      have hfull := (push_eq_error_iff.1 lost).1
      have hused := rest.used_le
      have hlimit := rest.limit_eq
      omega
    · exact ih later

end Offered

/-- **A log keeps the greedy selection.** Offer any items to an empty log. The counter tells what
the kept items take up together, and stays within the limit. The next item is accepted if and only
if it fits beside them; else it is refused with the numbers at hand, and the log is as before. The
kept items are those that were accepted, in the order in which they were offered, whichever way the
log is asked for them, and they are the greedy selection. Whatever was refused would exceed the
limit also beside what is kept at the end. -/
theorem log_keeps_the_greedy_selection (limit : Nat) (items : List α) :
    let transcript := ((Log.empty limit).offer items).1
    let log := ((Log.empty limit).offer items).2
    transcript.map Prod.fst = items ∧
      (log.used = total Sized.size log.items ∧ log.used ≤ limit) ∧
      (∀ item,
        ((∃ after, InPlace.keep item log = .ok () after) ↔
            log.used + Sized.size item ≤ limit) ∧
          ∀ full after, InPlace.keep item log = .error full after ↔
            limit < log.used + Sized.size item ∧
              full = ⟨log.used, Sized.size item, limit⟩ ∧ after = log) ∧
      (log.items = accepted transcript ∧ log.items = greedy limit items ∧
        log.length = (accepted transcript).length ∧
        (∀ index, log.get? index = (accepted transcript)[index]?) ∧
        log.last? = (accepted transcript).getLast?) ∧
      ∀ item why, (item, .error why) ∈ transcript → limit < log.used + Sized.size item := by
  intro transcript log
  have hoffered : Offered (.empty limit) items transcript log := offered_offer _ items
  have hsound : log.Sound := hoffered.sound (.empty limit)
  have hlimit : log.limit = limit := hoffered.limit_eq
  have hitems : log.items = accepted transcript := hoffered.items_eq
  have hgreedy : accepted transcript = greedy limit items := hoffered.accepted_eq (Nat.zero_le _)
  refine ⟨hoffered.map_fst, ⟨hsound.used, hlimit ▸ hsound.within⟩, ?_, ?_, ?_⟩
  · intro item
    rw [← hlimit]
    exact ⟨exists_keep_eq_ok_iff, fun full after => keep_eq_error_iff⟩
  · rw [length_eq, last?_eq, hitems]
    refine ⟨rfl, hgreedy, rfl, fun index => ?_, rfl⟩
    rw [get?, hitems]
  · intro item why refused
    rw [← hlimit]
    exact hoffered.lt_of_refused refused

/-- With a limit of ten, six is kept, five is refused, and then four is kept. -/
theorem four_is_kept_after_five_was_refused :
    let run := @offer Nat ⟨id⟩ (.empty 10) [6, 5, 4]
    run.2.items = [6, 4] ∧ (5, .error ⟨6, 5, 10⟩) ∈ run.1 ∧ 10 < run.2.used + 5 := by
  intro run
  have hrefused : (5, .error ⟨6, 5, 10⟩) ∈ run.1 := List.mem_cons_of_mem _ List.mem_cons_self
  obtain ⟨_, _, _, ⟨_, hgreedy, _⟩, hexceeds⟩ :=
    @log_keeps_the_greedy_selection Nat ⟨id⟩ 10 [6, 5, 4]
  exact ⟨hgreedy, hrefused, hexceeds 5 _ hrefused⟩

end Primer.Log
