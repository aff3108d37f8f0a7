import Mathlib.Logic.Function.Iterate
import Primer.Grammar.Cursor
import Primer.Proofs.Grammar.Recognition

/-!
# Parsing again

Each routine of a cursor does with its position what the reader of the same nonterminal does with
the characters that are unread (`Scans`): it moves on by what the reader consumes, notes what the
reader applies, and fails where the reader stops short. Routines follow each other as readers do
(`Scans.andThen`), so this holds of the whole sentence (`scans_readS`) and a cursor parses as the
recognizer it shows (`view_parse`): its first parse settles the input and notes the leftmost
derivation (`settles_parse`, `leftmost_parse`). A reader never sees what is before the position. A
parse that comes after others therefore is the first parse of the rest of the input, only with its
positions shifted (`parsing_resumes`).
-/

namespace Primer.Grammar

namespace Cursor

/-- The characters from the position on. -/
def unread (cursor : Cursor) : List Char := cursor.input.toList.drop cursor.position

/-- The cursor after a reading of what is unread. -/
def along (cursor : Cursor) (reading : Reading) : Cursor :=
  { cursor with
    position := cursor.position + (cursor.unread.length - reading.rest.length)
    derivation := cursor.derivation ++ reading.applied.toArray }

/-- The result of a routine that moves a cursor along a reading. -/
def outcome (cursor : Cursor) (reading : Reading) : EStateM.Result Unexpected Cursor Unit :=
  match reading.missing with
  | none => .ok () (cursor.along reading)
  | some due =>
    .error ⟨due, reading.rest.head?, (cursor.along reading).position⟩ (cursor.along reading)

variable {cursor : Cursor} {reading : Reading}

theorem peek_eq (cursor : Cursor) : cursor.peek = cursor.unread.head? := by
  unfold peek unread
  rw [List.head?_drop, Array.getElem?_toList]

@[simp] theorem unread_note (production : Production) (cursor : Cursor) :
    (cursor.note production).unread = cursor.unread := rfl

theorem unread_advance {char : Char} {rest : List Char} (next : cursor.unread = char :: rest) :
    cursor.advance.unread = rest := by
  unfold unread at next ⊢
  rw [advance, ← List.drop_drop, next]
  rfl

/-- A reading that leaves an end of the unread characters leaves it unread. -/
theorem unread_along (leaves : reading.rest <:+ cursor.unread) :
    (cursor.along reading).unread = reading.rest := by
  obtain ⟨front, hsplit⟩ := leaves
  have hlength : cursor.unread.length - reading.rest.length = front.length := by
    rw [← hsplit, List.length_append]
    omega
  unfold along
  rw [hlength]
  unfold unread at hsplit ⊢
  rw [← List.drop_drop, ← hsplit, List.drop_left]

theorem along_note (production : Production) (cursor : Cursor) (reading : Reading) :
    (cursor.note production).along reading = cursor.along (reading.under production) := by
  simp [along, note, Reading.under, unread]

theorem outcome_note (production : Production) (cursor : Cursor) (reading : Reading) :
    (cursor.note production).outcome reading = cursor.outcome (reading.under production) := by
  unfold outcome
  rw [along_note]
  rfl

/-- A reading from behind a character is one from before it. -/
theorem outcome_advance {char : Char} {rest : List Char} (next : cursor.unread = char :: rest)
    (leaves : reading.rest <:+ rest) : cursor.advance.outcome reading = cursor.outcome reading := by
  have hle := leaves.length_le
  have halong : cursor.advance.along reading = cursor.along reading := by
    unfold along
    rw [unread_advance next, next, List.length_cons]
    simp only [advance, Cursor.mk.injEq, true_and, and_true]
    omega
  unfold outcome
  rw [halong]

/-- A reading that consumes and applies nothing leaves the cursor where it is. -/
theorem outcome_stay (cursor : Cursor) (missing : Option Char) :
    cursor.outcome ⟨[], cursor.unread, missing⟩ =
      match missing with
      | none => .ok () cursor
      | some due => .error ⟨due, cursor.peek, cursor.position⟩ cursor := by
  have halong : cursor.along ⟨[], cursor.unread, missing⟩ = cursor := by
    simp [along]
  unfold outcome
  rw [halong, peek_eq]

/-- Two readings after each other are one. -/
theorem outcome_along {second : Reading} (leaves : reading.rest <:+ cursor.unread)
    (further : second.rest <:+ reading.rest) :
    (cursor.along reading).outcome second =
      cursor.outcome { second with applied := reading.applied ++ second.applied } := by
  have hle := leaves.length_le
  have hle' := further.length_le
  have halong : (cursor.along reading).along second =
      cursor.along { second with applied := reading.applied ++ second.applied } := by
    rw [along, unread_along leaves]
    simp only [along, Cursor.mk.injEq, true_and]
    refine ⟨by omega, by simp⟩
  unfold outcome
  rw [halong]

end Cursor

/-! ## Routines and readers -/

/-- A routine does with every cursor what a reader does with the unread characters. -/
def Scans (scan : Scan Unit) (reader : List Char → Reading) : Prop :=
  ∀ cursor, scan cursor = cursor.outcome (reader cursor.unread)

/-- A reader leaves an end of what it reads. -/
def Leaves (reader : List Char → Reading) : Prop := ∀ input, (reader input).rest <:+ input

theorem Leaves.andThen {reader reader' : List Char → Reading} (first : Leaves reader)
    (second : Leaves reader') : Leaves fun input => (reader input).andThen reader' :=
  fun input => Reading.suffix_andThen (first input) second

theorem Scans.under {scan : Scan Unit} {reader : List Char → Reading} (scans : Scans scan reader)
    (production : Production) :
    Scans (scanRule production >>= fun _ => scan) fun input =>
      (reader input).under production := by
  intro cursor
  show scan (cursor.note production) = _
  rw [scans, Cursor.unread_note, Cursor.outcome_note]

/-- Routines one after the other do what their readers do one after the other. -/
theorem Scans.andThen {scan scan' : Scan Unit} {reader reader' : List Char → Reading}
    (first : Scans scan reader) (leaves : Leaves reader) (second : Scans scan' reader')
    (leaves' : Leaves reader') :
    Scans (scan >>= fun _ => scan') fun input => (reader input).andThen reader' := by
  intro cursor
  have hleaves := leaves cursor.unread
  simp only [bind, EStateM.bind, first cursor]
  cases hstops : (reader cursor.unread).missing with
  | some due =>
    rw [Reading.andThen_of_stopped hstops]
    simp only [Cursor.outcome, hstops]
  | none =>
    rw [Reading.andThen_of_finished hstops, ← Cursor.outcome_along hleaves (leaves' _)]
    simp only [Cursor.outcome, hstops]
    rw [second, Cursor.unread_along hleaves]
    rfl

theorem scanTerminal_eq (due : Char) (cursor : Cursor) :
    scanTerminal due cursor =
      if cursor.peek = some due then .ok () cursor.advance
      else .error ⟨due, cursor.peek, cursor.position⟩ cursor := by
  change (if cursor.peek = some due then modify Cursor.advance else do
    throw ⟨due, cursor.peek, (← get).position⟩ : Scan Unit) cursor = _
  split <;> rfl

theorem scans_readTerminal (due : Char) : Scans (scanTerminal due) (readTerminal due) := by
  intro cursor
  have hstay := cursor.outcome_stay (some due)
  rw [scanTerminal_eq]
  rw [Cursor.peek_eq] at hstay ⊢
  cases hnext : cursor.unread with
  | nil =>
    rw [hnext] at hstay
    exact hstay.symm
  | cons next rest =>
    rw [hnext] at hstay
    by_cases same : next = due
    · have hconsumed := cursor.advance.outcome_stay none
      rw [Cursor.unread_advance hnext, Cursor.outcome_advance hnext List.suffix_rfl] at hconsumed
      simp only [List.head?_cons, readTerminal, same, if_true]
      exact hconsumed.symm
    · simp only [List.head?_cons, Option.some.injEq, readTerminal, same, if_false]
      exact hstay.symm

/-- A routine may look at the next character to choose between two. -/
theorem Scans.ifNext {scan scan' : Scan Unit} {reader reader' : List Char → Reading}
    (here : Scans scan reader) (otherwise : Scans scan' reader') (char : Char) :
    Scans (do if (← get).peek = some char then scan else scan') fun input =>
      if input.head? = some char then reader input else reader' input := by
  intro cursor
  change (if cursor.peek = some char then scan else scan') cursor = cursor.outcome (ite _ _ _)
  rw [Cursor.peek_eq]
  split
  · exact here cursor
  · exact otherwise cursor

theorem scans_rule (production : Production) :
    Scans (scanRule production) fun input => ⟨[production], input, none⟩ := by
  intro cursor
  have hstay := (cursor.note production).outcome_stay none
  rw [Cursor.unread_note, Cursor.outcome_note] at hstay
  exact hstay.symm

/-- Reading an optional terminal, told as the routine does it: first look, then note, then
consume. -/
theorem readOptional_eq (char : Char) (present absent : Production) :
    readOptional char present absent = fun input =>
      if input.head? = some char then (readTerminal char input).under present
      else ⟨[absent], input, none⟩ := by
  funext input
  cases input with
  | nil => rfl
  | cons next rest =>
    by_cases fits : next = char <;> simp [readOptional, readTerminal, fits, Reading.under]

theorem scans_readOptional (char : Char) (present absent : Production) :
    Scans (scanOptional char present absent) (readOptional char present absent) := by
  rw [readOptional_eq]
  exact ((scans_readTerminal char).under present).ifNext (scans_rule absent) char

theorem scans_readB : Scans scanB readB := by
  intro cursor
  -- The position goes up as the reader's input gets shorter: one `b` is one step of both.
  induction cursor using scanB.induct with
  | case1 cursor more ih =>
    rw [Cursor.peek_eq] at more
    obtain ⟨rest, hunread⟩ := List.head?_eq_some_iff.1 more
    have hnoted : (cursor.note .more).unread = 'b' :: rest := hunread
    rw [scanB, dif_pos (by rwa [Cursor.peek_eq]), ih, Cursor.unread_advance hnoted,
      Cursor.outcome_advance hnoted (suffix_readB rest), Cursor.outcome_note, hunread, readB,
      if_pos rfl]
  | case2 cursor noMore =>
    rw [scanB, dif_neg noMore, readB_of_unlike (by rwa [← Cursor.peek_eq])]
    exact scans_rule .noMore cursor

theorem Reading.andThen_assoc (first : Reading) (next last : List Char → Reading) :
    (first.andThen next).andThen last = first.andThen fun input => (next input).andThen last := by
  cases hfirst : first.missing with
  | some due => simp only [andThen_of_stopped hfirst]
  | none =>
    rw [andThen_of_finished hfirst, andThen_of_finished hfirst]
    cases hnext : (next first.rest).missing with
    | some due =>
      rw [andThen_of_stopped hnext]
      exact andThen_of_stopped hnext
    | none =>
      rw [andThen_of_finished hnext]
      simp only [andThen, hnext, List.append_assoc]

/-- The reader for `A` with the parts that its routine has, one after another. -/
theorem readA_eq : readA = fun input =>
    if input.head? = some 'a' then
      ((readTerminal 'a' input).andThen fun rest =>
        (readB rest).andThen fun rest => (readC rest).andThen (readTerminal 'd')).under .framed
    else ((readB input).andThen readQ).under .bare := by
  funext input
  by_cases framed : input.head? = some 'a'
  · obtain ⟨rest, rfl⟩ : ∃ rest, input = 'a' :: rest := List.head?_eq_some_iff.1 framed
    rw [if_pos framed, readA, if_pos rfl, readFramed, Reading.andThen_assoc]
    rfl
  · rw [if_neg framed, readA_of_unlike framed]
    rfl

theorem scans_readA : Scans scanA readA := by
  have leaves_c : Leaves readC := suffix_readOptional _ _ _
  have leaves_cd : Leaves fun input => (readC input).andThen (readTerminal 'd') :=
    leaves_c.andThen (suffix_readTerminal 'd')
  have scans_cd := (scans_readOptional _ _ _).andThen leaves_c (scans_readTerminal 'd')
    (suffix_readTerminal 'd')
  have scans_body := scans_readB.andThen suffix_readB scans_cd leaves_cd
  have scans_framed := (scans_readTerminal 'a').andThen (suffix_readTerminal 'a') scans_body
    (Leaves.andThen suffix_readB leaves_cd)
  have scans_bare := scans_readB.andThen suffix_readB (scans_readOptional _ _ _)
    (suffix_readOptional 'q' .closed .notClosed)
  rw [readA_eq]
  exact (scans_framed.under .framed).ifNext (scans_bare.under .bare) 'a'

/-- The routine for a sentence does with the cursor what its reader does with the characters that
are unread. -/
theorem scans_readS : Scans scanS readS :=
  (scans_readA.andThen suffix_readA (scans_readOptional _ _ _)
    (suffix_readOptional _ _ _)).under .sentence

/-! ## Parses after each other -/

/-- The same terminal did not come, further on in the input. -/
def Unexpected.shift (offset : Nat) (unexpected : Unexpected) : Unexpected :=
  { unexpected with position := offset + unexpected.position }

namespace Recognizer

variable {recognizer : Recognizer}

/-- Where a recognizer is after a parse. -/
theorem parse_snd (recognizer : Recognizer) :
    recognizer.parse.2 = {
      unread := (readS recognizer.unread).rest
      position := recognizer.position +
        (recognizer.unread.length - (readS recognizer.unread).rest.length)
      derivation := recognizer.derivation ++ (readS recognizer.unread).applied } := by
  simp only [parse]
  split <;> rfl

/-- A parse is the first one of what is unread, with its positions shifted. -/
theorem parse_fst_eq_shift (recognizer : Recognizer) :
    recognizer.parse.1 =
      (start recognizer.unread).parse.1.mapError (Unexpected.shift recognizer.position) := by
  simp only [parse, start]
  split
  · show Except.error _ = Except.error (Unexpected.shift _ _)
    rw [Unexpected.shift, Nat.zero_add]
  · rfl

/-- The error of a parse names the place where the parse stopped and the character there. -/
theorem parse_stops_at {unexpected : Unexpected} (stops : recognizer.parse.1 = .error unexpected) :
    unexpected.position = recognizer.parse.2.position ∧
      unexpected.found = recognizer.parse.2.unread.head? := by
  rw [parse_snd]
  simp only [parse] at stops
  split at stops <;> cases stops
  exact ⟨rfl, rfl⟩

/-- What a parse answers depends on what is unread and on the position only. -/
theorem parse_fst_congr {other : Recognizer} (unread : recognizer.unread = other.unread)
    (position : recognizer.position = other.position) :
    recognizer.parse.1 = other.parse.1 := by
  rw [parse_fst_eq_shift, parse_fst_eq_shift other, unread, position]

end Recognizer

namespace Cursor

variable {cursor : Cursor}

/-- The recognizer that a cursor stands for. -/
def view (cursor : Cursor) : Recognizer where
  unread := cursor.unread
  position := cursor.position
  derivation := cursor.derivation.toList

theorem parse_snd (cursor : Cursor) :
    cursor.parse.2 = cursor.along (readS cursor.unread) := by
  simp only [parse, scans_readS cursor, outcome]
  cases (readS cursor.unread).missing <;> rfl

theorem input_parse (cursor : Cursor) : cursor.parse.2.input = cursor.input := by
  rw [parse_snd]
  rfl

theorem length_unread (cursor : Cursor) :
    cursor.unread.length = cursor.input.size - cursor.position := by
  simp [unread]

/-- A parse does not go back, and not beyond the end of the input. -/
theorem position_parse (inside : cursor.position ≤ cursor.input.size) :
    cursor.position ≤ cursor.parse.2.position ∧ cursor.parse.2.position ≤ cursor.input.size := by
  have hlength := cursor.length_unread
  rw [parse_snd]
  simp only [along]
  omega

theorem atEnd_eq (inside : cursor.position ≤ cursor.input.size) :
    (cursor.position == cursor.input.size) = cursor.unread.isEmpty := by
  have hlength := cursor.length_unread
  rw [Bool.eq_iff_iff, beq_iff_eq, List.isEmpty_iff_length_eq_zero]
  omega

/-- A cursor inside its input parses as the recognizer that it stands for. -/
theorem view_parse (inside : cursor.position ≤ cursor.input.size) :
    (cursor.parse.1, cursor.parse.2.view) = cursor.view.parse := by
  have hleaves := suffix_readS cursor.unread
  have hinside := (position_parse inside).2
  rw [← input_parse] at hinside
  have hend := atEnd_eq hinside
  rw [parse_snd, unread_along hleaves] at hend
  have hview : cursor.parse.2.view = cursor.view.parse.2 := by
    rw [Recognizer.parse_snd, parse_snd, view, unread_along hleaves]
    simp [along, view]
  refine Prod.ext ?_ hview
  simp only [parse, Recognizer.parse, view, scans_readS cursor, outcome]
  cases (readS cursor.unread).missing with
  | none => simp only [hend]
  | some due => rfl

theorem view_parse_start (input : List Char) :
    ((start input).parse.1, (start input).parse.2.view) = (Recognizer.start input).parse :=
  view_parse (Nat.zero_le _)

/-- The first parse in place decides the grammar: it stops behind the longest front of the input
that can become a sentence, and its answer tells which front is one. -/
theorem settles_parse (input : List Char) :
    Settles input (start input).parse.1 (start input).parse.2.position := by
  have hsettles := settles_parse_start input
  rw [← view_parse_start] at hsettles
  exact hsettles

/-- The productions that the first parse in place notes are the leftmost derivation of what it
consumed. -/
theorem leftmost_parse (input : List Char) :
    Leftmost input (start input).parse.1 (start input).parse.2.position
      (start input).parse.2.derivation.toList := by
  have hleftmost := leftmost_parse_start input
  rw [← view_parse_start] at hleftmost
  exact hleftmost

/-- The cursor after a number of parses. -/
def after (cursor : Cursor) (calls : Nat) : Cursor := (fun cursor => cursor.parse.2)^[calls] cursor

theorem after_succ (cursor : Cursor) (calls : Nat) :
    cursor.after (calls + 1) = (cursor.after calls).parse.2 :=
  Function.iterate_succ_apply' _ calls cursor

/-- Each entry of a list of parses is the parse of the cursor that the entries before it leave. -/
theorem getElem?_parseTimes (cursor : Cursor) (times calls : Nat) :
    (cursor.parseTimes times)[calls]? =
      if calls < times then some (cursor.after calls).parse else none := by
  induction times generalizing cursor calls with
  | zero => rfl
  | succ times ih =>
    cases calls with
    | zero => rfl
    | succ calls =>
      simp only [parseTimes, List.getElem?_cons_succ, Nat.add_lt_add_iff_right]
      exact ih cursor.parse.2 calls

theorem input_after (cursor : Cursor) (calls : Nat) :
    (cursor.after calls).input = cursor.input := by
  induction calls with
  | zero => rfl
  | succ calls ih => rw [after_succ, input_parse, ih]

theorem inside_after (inside : cursor.position ≤ cursor.input.size) (calls : Nat) :
    (cursor.after calls).position ≤ (cursor.after calls).input.size := by
  induction calls with
  | zero => exact inside
  | succ calls ih =>
    rw [after_succ, input_parse]
    exact (position_parse ih).2

theorem parse_fst (inside : cursor.position ≤ cursor.input.size) :
    cursor.parse.1 = cursor.view.parse.1 := congrArg Prod.fst (view_parse inside)

/-- The productions noted before have no part in a parse. -/
theorem parse_congr {other : Cursor} (inside : cursor.position ≤ cursor.input.size)
    (input : other.input = cursor.input) (position : other.position = cursor.position) :
    other.parse.1 = cursor.parse.1 ∧ other.parse.2.position = cursor.parse.2.position := by
  have hunread : other.unread = cursor.unread := by
    rw [unread, unread, input, position]
  have hinside : other.position ≤ other.input.size := by
    rw [input, position]
    exact inside
  refine ⟨?_, ?_⟩
  · rw [parse_fst hinside, parse_fst inside]
    exact Recognizer.parse_fst_congr hunread position
  · simp only [parse_snd, along, hunread, position]

/-- Once a parse does not move, the parses after it answer the same and do not move either. -/
theorem parse_after_of_stays (inside : cursor.position ≤ cursor.input.size)
    (stays : cursor.parse.2.position = cursor.position) (calls : Nat) :
    (cursor.after calls).parse.1 = cursor.parse.1 ∧
      (cursor.after calls).parse.2.position = cursor.position := by
  have hplace : (cursor.after calls).position = cursor.position := by
    induction calls with
    | zero => rfl
    | succ calls ih =>
      rw [after_succ, (parse_congr inside (cursor.input_after calls) ih).2, stays]
  have hsame := parse_congr inside (cursor.input_after calls) hplace
  exact ⟨hsame.1, hsame.2.trans stays⟩

/-- A parse is the first one of what is unread: it answers the same with its positions shifted, and
goes on from the position and the productions that are there. -/
theorem parse_eq_shift (inside : cursor.position ≤ cursor.input.size) :
    let fresh := (start cursor.unread).parse
    cursor.parse.1 = fresh.1.mapError (Unexpected.shift cursor.position) ∧
      cursor.parse.2.position = cursor.position + fresh.2.position ∧
      cursor.parse.2.derivation = cursor.derivation ++ fresh.2.derivation := by
  intro fresh
  have hunread : (start cursor.unread).unread = cursor.unread := rfl
  refine ⟨?_, ?_, ?_⟩
  · rw [parse_fst inside, Recognizer.parse_fst_eq_shift, parse_fst (Nat.zero_le _)]
    rfl
  · simp only [fresh, parse_snd, along, hunread]
    simp [start]
  · simp only [fresh, parse_snd, along, hunread]
    simp [start]

/-- Where a parse fails the cursor is at the character that was not the one due. -/
theorem parse_stops_at (inside : cursor.position ≤ cursor.input.size) {unexpected : Unexpected}
    (stops : cursor.parse.1 = .error unexpected) :
    unexpected.position = cursor.parse.2.position ∧
      unexpected.found = cursor.input[cursor.parse.2.position]? := by
  have hview : cursor.parse.2.view = cursor.view.parse.2 := congrArg Prod.snd (view_parse inside)
  rw [parse_fst inside] at stops
  obtain ⟨hposition, hfound⟩ := Recognizer.parse_stops_at stops
  rw [← hview] at hposition hfound
  refine ⟨hposition, hfound.trans ?_⟩
  rw [← cursor.input_parse]
  exact (peek_eq cursor.parse.2).symm

end Cursor

/-- Parsing again goes on where the parse before it stopped, for every input and after any number of
parses. The parse does what the first parse of the rest of the input does: the answer is the same
with its positions shifted, the position is moved by as much, and the same productions are added.
The position does not fall and stays within the input. After an error it is that of the character
found in place of the terminal that was due. A parse that does not move the position is repeated
from then on with the same answer. -/
theorem parsing_resumes (input : List Char) (calls : Nat) :
    let before := (Cursor.start input).after calls
    let fresh := (Cursor.start (input.drop before.position)).parse
    (∀ times, ((Cursor.start input).parseTimes times)[calls]? =
      if calls < times then some before.parse else none) ∧
    before.parse.1 = fresh.1.mapError (Unexpected.shift before.position) ∧
    before.parse.2.position = before.position + fresh.2.position ∧
    before.parse.2.derivation = before.derivation ++ fresh.2.derivation ∧
    before.position ≤ before.parse.2.position ∧ before.parse.2.position ≤ input.length ∧
    (∀ unexpected, before.parse.1 = .error unexpected →
      unexpected.position = before.parse.2.position ∧
        unexpected.found = input[before.parse.2.position]?) ∧
    (before.parse.2.position = before.position → ∀ later, calls ≤ later →
      let again := ((Cursor.start input).after later).parse
      again.1 = before.parse.1 ∧ again.2.position = before.position) := by
  intro before fresh
  have hinput : before.input = input.toArray := Cursor.input_after _ calls
  have hinside : before.position ≤ before.input.size := Cursor.inside_after (Nat.zero_le _) calls
  have hunread : before.unread = input.drop before.position := by
    rw [Cursor.unread, hinput]
  obtain ⟨hanswer, hposition, hderivation⟩ := Cursor.parse_eq_shift hinside
  rw [hunread] at hanswer hposition hderivation
  obtain ⟨hforward, hwithin⟩ := Cursor.position_parse hinside
  rw [hinput] at hwithin
  refine ⟨fun times => Cursor.getElem?_parseTimes _ times calls, hanswer, hposition, hderivation,
    hforward, hwithin, ?_, ?_⟩
  · intro unexpected stops
    have hstops := Cursor.parse_stops_at hinside stops
    rw [hinput, List.getElem?_toArray] at hstops
    exact hstops
  · intro stays later hlater
    have hagain := Cursor.parse_after_of_stays hinside stays (later - calls)
    have hreached : before.after (later - calls) = (Cursor.start input).after later := by
      show _^[later - calls] (_^[calls] _) = _^[later] _
      rw [← Function.iterate_add_apply, Nat.sub_add_cancel hlater]
    rw [hreached] at hagain
    exact hagain

/-- The `d` that is missing in `abx` stops the first parse at the `x`. The second one does not move,
and so does no other. -/
theorem parsing_stays_before_an_x :
    let cursor := Cursor.start ['a', 'b', 'x']
    cursor.parse.1 = .error ⟨'d', some 'x', 2⟩ ∧ cursor.parse.2.position = 2 ∧
      ∀ later, 1 ≤ later →
        (cursor.after later).parse.1 = .ok false ∧ (cursor.after later).parse.2.position = 2 := by
  intro cursor
  have hfirst : cursor.parse.1 = .error ⟨'d', some 'x', 2⟩ :=
    Cursor.parse_fst (Nat.zero_le _)
  obtain ⟨_, _, _, _, _, _, hstops, _⟩ := parsing_resumes ['a', 'b', 'x'] 0
  have hposition : cursor.parse.2.position = 2 := (hstops _ hfirst).1.symm
  have hplace : (cursor.after 1).position = 2 := hposition
  obtain ⟨_, hanswer, hmoved, _, _, _, _, hrepeats⟩ := parsing_resumes ['a', 'b', 'x'] 1
  have hrest : (Cursor.start ['x']).parse.1 = .ok false ∧
      (Cursor.start ['x']).parse.2.position = 0 :=
    ⟨Cursor.parse_fst (Nat.zero_le _), congrArg Cursor.position (Cursor.parse_snd _)⟩
  have hunread : ['a', 'b', 'x'].drop (cursor.after 1).position = ['x'] := by
    rw [hplace]
    rfl
  rw [hunread, hrest.1] at hanswer
  rw [hunread, hrest.2] at hmoved
  refine ⟨hfirst, hposition, fun later hlater => ?_⟩
  have hagain := hrepeats hmoved later hlater
  rw [hanswer, hplace] at hagain
  exact hagain

end Primer.Grammar
