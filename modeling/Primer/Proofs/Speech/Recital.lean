import Primer.Proofs.Output.Console
import Primer.Speech.Speaker

/-!
# Speeches through a throttle

A throttle takes a line in pieces, as its limits allow. What it has `Passed` on so far is added to
the text and taken from the room. A piece is passed on whole or not at all, so what is `Heard` of a
line is a front of it, and the line breaks off for one of two reasons: no byte may be passed on any
more, or the next piece is not UTF-8 by itself (`exists_heard`, by what one more piece changes,
`Heard.after_piece`). Requests one after another share the throttle (`Recital`). The way to a
speaker plays no part in this, for every request comes to offering its line (`Call.perform_eq`).
-/

namespace Primer.Output

open Primer.Text
open Primer.Text.Utf8

namespace Throttle

/-! ## Single writes -/

theorem within_le (limit : Option Nat) (count : Nat) : within limit count ≤ count := by
  cases limit with
  | none => exact Nat.le_refl _
  | some limit => exact Nat.min_le_left _ _

theorem within_eq_zero_iff {limit : Option Nat} {count : Nat} :
    within limit count = 0 ↔ count = 0 ∨ limit = some 0 := by
  cases limit with
  | none => simp [within]
  | some limit =>
    simp only [within, Option.some.injEq]
    omega

theorem share_le (throttle : Throttle) (offered : Nat) : throttle.share offered ≤ offered :=
  (within_le _ _).trans (within_le _ _)

theorem share_le_room (throttle : Throttle) (offered : Nat) :
    ∀ room ∈ throttle.room, throttle.share offered ≤ room := by
  intro room hroom
  refine (within_le _ _).trans ?_
  rw [Option.mem_def.1 hroom]
  exact Nat.min_le_right _ _

theorem share_eq_zero_iff {throttle : Throttle} {offered : Nat} :
    throttle.share offered = 0 ↔
      offered = 0 ∨ throttle.room = some 0 ∨ throttle.chunk = some 0 := by
  rw [share, within_eq_zero_iff, within_eq_zero_iff, or_assoc]

/-- The bytes that the next write passes on. -/
def piece (throttle : Throttle) (bytes : List UInt8) : List UInt8 :=
  bytes.take (throttle.share bytes.length)

theorem length_piece (throttle : Throttle) (bytes : List UInt8) :
    (throttle.piece bytes).length = throttle.share bytes.length :=
  List.length_take_of_le (throttle.share_le _)

theorem write_of_none {throttle : Throttle} {bytes : List UInt8}
    (none : throttle.share bytes.length = 0) :
    (write bytes).attempt throttle = (.ok 0, throttle) := by
  rw [attempt_write none, if_pos rfl]

/-- A piece that is well-formed is printed and taken from the room. -/
theorem write_of_encode {throttle : Throttle} {bytes : List UInt8} {chars : List Char}
    (some : throttle.share bytes.length ≠ 0) (encoded : encode chars = throttle.piece bytes) :
    (write bytes).attempt throttle =
      (.ok (throttle.share bytes.length),
        { throttle with
          console := throttle.console.print (String.ofList chars)
          room := throttle.room.map (· - (throttle.piece bytes).length) }) := by
  rw [attempt_write rfl, if_neg some, ← piece, Console.write_of_encode encoded, length_piece]

/-- A piece that is not well-formed is refused, and the room stays as it is. -/
theorem write_of_error {throttle : Throttle} {bytes : List UInt8} {cause : Utf8.Error}
    (some : throttle.share bytes.length ≠ 0)
    (refused : decode (throttle.piece bytes) = .error cause) :
    (write bytes).attempt throttle = (.error (.invalidText cause), throttle) := by
  rw [attempt_write rfl, if_neg some, ← piece, Console.write_of_error refused]

end Throttle

/-! ## What was passed on -/

/-- Some bytes were passed on from one state of a throttle to another: they are added to the text,
and taken from the room, which had been enough for them. -/
structure Passed (before : Throttle) (said : List UInt8) (after : Throttle) : Prop where
  text_eq : encode after.console.text.toList = encode before.console.text.toList ++ said
  room_eq : after.room = before.room.map (· - said.length)
  fits : ∀ room ∈ before.room, said.length ≤ room
  chunk_eq : after.chunk = before.chunk

namespace Passed

theorem refl (throttle : Throttle) : Passed throttle [] throttle where
  text_eq := (List.append_nil _).symm
  room_eq := by simp
  fits _ _ := Nat.zero_le _
  chunk_eq := rfl

theorem trans {before between after : Throttle} {said more : List UInt8}
    (first : Passed before said between) (next : Passed between more after) :
    Passed before (said ++ more) after where
  text_eq := by rw [next.text_eq, first.text_eq, List.append_assoc]
  room_eq := by
    rw [next.room_eq, first.room_eq, Option.map_map]
    congr 1
    funext room
    simp only [Function.comp_apply, List.length_append]
    omega
  fits room hroom := by
    have hsaid := first.fits room hroom
    have hleft : room - said.length ∈ between.room := by
      rw [first.room_eq, Option.mem_def.1 hroom]
      rfl
    have hmore := next.fits _ hleft
    rw [List.length_append]
    omega
  chunk_eq := next.chunk_eq.trans first.chunk_eq

theorem of_write {throttle : Throttle} {bytes : List UInt8} {chars : List Char}
    (encoded : encode chars = throttle.piece bytes) :
    Passed throttle (throttle.piece bytes)
      { throttle with
        console := throttle.console.print (String.ofList chars)
        room := throttle.room.map (· - (throttle.piece bytes).length) } where
  text_eq := by rw [Console.encode_print, String.toList_ofList, encoded]
  room_eq := rfl
  fits := by
    rw [Throttle.length_piece]
    exact throttle.share_le_room _
  chunk_eq := rfl

/-- What was added is what the room has lost. -/
theorem length_add_room {before after : Throttle} {said : List UInt8}
    (passed : Passed before said after) {cap : Nat} (limited : before.room = some cap) :
    ∃ left, after.room = some left ∧ said.length + left = cap := by
  refine ⟨cap - said.length, ?_, ?_⟩
  · rw [passed.room_eq, limited]
    rfl
  · have hfits := passed.fits cap limited
    omega

end Passed

/-! ## Whole lines -/

/-- A line was said to a throttle as far as it went: `said` is the front of it that was passed on.
Nothing more is taken because the line is at its end, or because no byte may be passed on any more,
or because the piece that comes next is not UTF-8 by itself. -/
structure Heard (before : Throttle) (line said : List UInt8)
    (outcome : Except WriteFault Unit × Throttle) : Prop extends
    Passed before said outcome.2 where
  isPrefix : said <+: line
  ok_iff : outcome.1 = .ok () ↔ said = line
  nothingTaken_iff : outcome.1 = .error .nothingTaken ↔
    said ≠ line ∧ (outcome.2.room = some 0 ∨ outcome.2.chunk = some 0)
  invalidText_iff : (∃ cause, outcome.1 = .error (.invalidText cause)) ↔
    said ≠ line ∧ ¬ WellFormed (outcome.2.piece (line.drop said.length))

namespace Heard

theorem nil (throttle : Throttle) : Heard throttle [] [] (.ok (), throttle) where
  toPassed := .refl throttle
  isPrefix := List.prefix_refl _
  ok_iff := by simp
  nothingTaken_iff := by simp
  invalidText_iff := by simp

theorem starved {throttle : Throttle} {line : List UInt8} (some : line ≠ [])
    (none : throttle.share line.length = 0) :
    Heard throttle line [] (.error .nothingTaken, throttle) where
  toPassed := .refl throttle
  isPrefix := List.nil_prefix
  ok_iff := by simp [Ne.symm some]
  nothingTaken_iff := by
    have hline : line.length ≠ 0 := by simpa using some
    simpa [Ne.symm some, hline] using Throttle.share_eq_zero_iff.1 none
  invalidText_iff := by
    have hpiece : WellFormed (throttle.piece line) := ⟨[], by simp [Throttle.piece, none]⟩
    simp [hpiece]

/-- A line whose next piece is not well-formed breaks off before that piece. -/
theorem refused {throttle : Throttle} {line : List UInt8} {cause : Utf8.Error}
    (some : throttle.share line.length ≠ 0) (bad : decode (throttle.piece line) = .error cause) :
    Heard throttle line [] (.error (.invalidText cause), throttle) where
  toPassed := .refl throttle
  isPrefix := List.nil_prefix
  ok_iff := by
    have hline : line ≠ [] := fun none => some (by simp [none, Throttle.share_eq_zero_iff])
    simp [Ne.symm hline]
  nothingTaken_iff := by
    have hopen : ¬ (throttle.room = .some 0 ∨ throttle.chunk = .some 0) :=
      fun h => some (Throttle.share_eq_zero_iff.2 (.inr h))
    simp [hopen]
  invalidText_iff := by
    have hline : line ≠ [] := fun none => some (by simp [none, Throttle.share_eq_zero_iff])
    have hpiece : ¬ WellFormed (throttle.piece line) := exists_decode_eq_error_iff.1 ⟨cause, bad⟩
    simp [Ne.symm hline, hpiece]

/-- A piece that was passed on comes before whatever is heard of the rest of the line. -/
theorem after_piece {before between : Throttle} {first line said : List UInt8}
    {outcome : Except WriteFault Unit × Throttle} (passed : Passed before first between)
    (heard : Heard between line said outcome) :
    Heard before (first ++ line) (first ++ said) outcome where
  toPassed := passed.trans heard.toPassed
  isPrefix := (List.prefix_append_right_inj first).2 heard.isPrefix
  ok_iff := by rw [List.append_cancel_left_eq, heard.ok_iff]
  nothingTaken_iff := by rw [ne_eq, List.append_cancel_left_eq, heard.nothingTaken_iff]
  invalidText_iff := by
    have hdrop : (first ++ line).drop (first ++ said).length = line.drop said.length := by
      simp [List.drop_append]
    rw [ne_eq, List.append_cancel_left_eq, heard.invalidText_iff, hdrop]

end Heard

/-- However a line is cut into pieces, a front of it is said. -/
theorem exists_heard (throttle : Throttle) (line : List UInt8) :
    ∃ said, Heard throttle line said ((writeAll line).attempt throttle) := by
  induction hlength : line.length using Nat.strongRecOn generalizing throttle line with
  | ind length ih =>
    subst hlength
    cases line with
    | nil =>
      rw [attempt_writeAll_nil]
      exact ⟨[], .nil throttle⟩
    | cons first rest =>
      rw [attempt_writeAll_cons, Throttle.sink_write]
      by_cases none : throttle.share (first :: rest).length = 0
      · rw [Throttle.write_of_none none]
        exact ⟨[], .starved (List.cons_ne_nil _ _) none⟩
      · cases hdecode : decode (throttle.piece (first :: rest)) with
        | error cause =>
          rw [Throttle.write_of_error none hdecode]
          exact ⟨[], .refused none hdecode⟩
        | ok chars =>
          have hchars := decode_eq_ok_iff.1 hdecode
          obtain ⟨taken, htaken⟩ := Nat.exists_eq_succ_of_ne_zero none
          have hline : throttle.piece (first :: rest) ++ rest.drop taken = first :: rest := by
            rw [Throttle.piece, htaken]
            exact List.take_append_drop (taken + 1) (first :: rest)
          have hshorter : (rest.drop taken).length < (first :: rest).length := by
            rw [List.length_drop, List.length_cons]
            omega
          obtain ⟨said, hsaid⟩ := ih _ hshorter _ (rest.drop taken) rfl
          rw [Throttle.write_of_encode none hchars, htaken]
          refine ⟨throttle.piece (first :: rest) ++ said, ?_⟩
          have hheard := hsaid.after_piece (Passed.of_write hchars)
          rw [hline] at hheard
          exact hheard

end Primer.Output

namespace Primer.Speech

open Primer.Output
open Primer.Text.Utf8

/-! ## Many speakers -/

/-- What a request lets be said: a cow says `Moo` and ends the line. -/
def Call.line : Call → List UInt8
  | .demo => [77, 111, 111, 10]
  | .cow _ => [77, 111, 111, 10]
  | .recite _ line => line

theorem Cow.line_eq : Cow.line = [77, 111, 111, 10] := by decide

theorem Route.speak_eq {α σ : Type} [Speaker α] [Sink σ] (route : Route) (speaker : α) :
    (route.speak speaker : Writing σ Unit) = Speaker.speak speaker := by
  cases route <;> rfl

/-- Whatever way a request takes, it comes to its line. -/
theorem Call.perform_eq {σ : Type} [Sink σ] (call : Call) :
    (call.perform : Writing σ Unit) = writeAll call.line := by
  cases call with
  | demo => exact congrArg writeAll Cow.line_eq
  | cow route => exact (route.speak_eq Cow.mk).trans (congrArg writeAll Cow.line_eq)
  | recite route line => exact route.speak_eq (Reciter.mk line)

/-- Requests for the same lines come to the same, whatever ways they take. -/
theorem Call.performAll_congr {σ : Type} [Sink σ] {calls others : List Call}
    (same : others.map Call.line = calls.map Call.line) (sink : σ) :
    performAll sink others = performAll sink calls := by
  induction calls generalizing others sink with
  | nil =>
    rw [List.map_eq_nil_iff.1 same]
  | cons call calls ih =>
    cases others with
    | nil => cases same
    | cons other others =>
      obtain ⟨hline, hlines⟩ := List.cons.inj same
      have hperform : (other.perform : Writing σ Unit) = call.perform := by
        rw [Call.perform_eq, Call.perform_eq, hline]
      rw [performAll, performAll, hperform, ih hlines]

/-- What each of some requests has said, every one to the sink that the one before it left. -/
inductive Recital : Throttle → List Call → List (Except WriteFault Unit × Throttle) →
    List (List UInt8) → Prop
  | nil {throttle : Throttle} : Recital throttle [] [] []
  | cons {throttle : Throttle} {call : Call} {calls : List Call}
      {outcome : Except WriteFault Unit × Throttle}
      {outcomes : List (Except WriteFault Unit × Throttle)} {said : List UInt8}
      {more : List (List UInt8)} (heard : Heard throttle call.line said outcome)
      (later : Recital outcome.2 calls outcomes more) :
      Recital throttle (call :: calls) (outcome :: outcomes) (said :: more)

/-- The sink after the last of some requests. -/
def lastSink (throttle : Throttle) (outcomes : List (Except WriteFault Unit × Throttle)) :
    Throttle :=
  (outcomes.getLast?.map Prod.snd).getD throttle

/-- Every request is heard as far as it goes, and what it leaves is what the next one finds. -/
theorem exists_recital (throttle : Throttle) (calls : List Call) :
    ∃ said, Recital throttle calls (Call.performAll throttle calls) said := by
  induction calls generalizing throttle with
  | nil => exact ⟨[], .nil⟩
  | cons call calls ih =>
    obtain ⟨said, hsaid⟩ := exists_heard throttle call.line
    rw [← Call.perform_eq] at hsaid
    obtain ⟨more, hmore⟩ := ih (call.perform.attempt throttle).2
    exact ⟨said :: more, .cons hsaid hmore⟩

/-- All that was heard, line after line, was added to the text and taken from the room. -/
theorem Recital.passed {throttle : Throttle} {calls : List Call}
    {outcomes : List (Except WriteFault Unit × Throttle)} {said : List (List UInt8)}
    (recital : Recital throttle calls outcomes said) :
    Passed throttle said.flatten (lastSink throttle outcomes) := by
  induction recital with
  | nil => exact .refl _
  | @cons throttle _ _ outcome outcomes _ _ heard _ ih =>
    have hlast : lastSink throttle (outcome :: outcomes) = lastSink outcome.2 outcomes := by
      cases outcomes with
      | nil => rfl
      | cons next outcomes => simp [lastSink, List.getLast?_cons]
    rw [hlast]
    exact heard.toPassed.trans ih

/-- **Nothing that was said is lost, and nothing is invented.** Let any requests be carried out one
after another on a throttle with any limits. Each adds a front of its line to the text: it succeeds
exactly if that is the whole line, it fails with nothing taken exactly if some of the line is left
and the room is used up or the chunk is zero, and it fails with invalid text exactly if some of the
line is left and the next piece is not well-formed by itself (`Heard`, for each request in turn).
All that was added is what the room has lost. Requests for the same lines by other ways come to the
same, and whoever speaks says the same by every way. -/
theorem speeches_are_passed_on (throttle : Throttle) (calls : List Call) :
    let outcomes := Call.performAll throttle calls
    let last := lastSink throttle outcomes
    (∃ said, Recital throttle calls outcomes said ∧
      encode last.console.text.toList = encode throttle.console.text.toList ++ said.flatten ∧
      ∀ cap, throttle.room = some cap →
        ∃ left, last.room = some left ∧ said.flatten.length + left = cap) ∧
    (∀ others : List Call, others.map Call.line = calls.map Call.line →
      Call.performAll throttle others = outcomes) ∧
    ∀ {α σ : Type} [Speaker α] [Sink σ] (speaker : α) (route other : Route),
      (route.speak speaker : Writing σ Unit) = other.speak speaker := by
  intro outcomes last
  refine ⟨?_, ?_, ?_⟩
  · obtain ⟨said, hrecital⟩ := exists_recital throttle calls
    have hpassed := hrecital.passed
    exact ⟨said, hrecital, hpassed.text_eq, fun _ hcap => hpassed.length_add_room hcap⟩
  · intro others hlines
    exact Call.performAll_congr hlines throttle
  · intro α σ _ _ speaker route other
    rw [route.speak_eq, other.speak_eq]

/-- A cow is heard in two pieces, a letter is cut by the chunk, and then the room is used up. What
was heard is `Moo` on a line of its own, and three letters. -/
theorem cow_and_cut_letter_and_no_more_room :
    let throttle : Throttle := { room := some 7, chunk := some 3 }
    let calls : List Call := [.demo, .recite .direct [0x61, 0x61, 0xC3, 0xA9],
      .recite .erased [0x61, 0x62, 0x63, 0x64]]
    let others : List Call := [.cow .erased, .recite .dynamic [0x61, 0x61, 0xC3, 0xA9],
      .recite .direct [0x61, 0x62, 0x63, 0x64]]
    let outcomes := Call.performAll throttle others
    (throttle.room = some 7 ∧ others.map Call.line = calls.map Call.line) ∧
      outcomes.map Prod.fst =
        [.ok (), .error (.invalidText ⟨2, .truncated⟩), .error .nothingTaken] ∧
      (lastSink throttle outcomes).console.text = "Moo\nabc" ∧
      ∃ said left, Recital throttle calls outcomes said ∧
        (lastSink throttle outcomes).room = some left ∧ said.flatten.length + left = 7 := by
  intro throttle calls others outcomes
  have hlines : others.map Call.line = calls.map Call.line := by decide
  obtain ⟨⟨said, hrecital, -, hroom⟩, hothers, -⟩ := speeches_are_passed_on throttle calls
  obtain ⟨left, hleft, hsum⟩ := hroom 7 rfl
  have hsame : outcomes = Call.performAll throttle calls := hothers others hlines
  refine ⟨⟨rfl, hlines⟩, by decide +kernel, by decide +kernel, said, left, ?_, ?_, hsum⟩
  · rw [hsame]
    exact hrecital
  · rw [hsame]
    exact hleft

end Primer.Speech
