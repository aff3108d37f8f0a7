import Mathlib.Order.Bounds.Basic
import Primer.Proofs.Grammar.Readers

/-!
# What a parse answers

A first parse goes as far as the input can still become a sentence, and no further. Its answer tells
apart whether the whole input is a sentence, whether what was consumed is one, or whether a `d` was
due (`Settles`, `parse_decides_sentences`). The productions it records are the leftmost derivation
of what was consumed, and a sentence has no other one (`Leftmost`, `derivation_is_the_leftmost`).
Both hold of whatever answers as a first parse does, so also of a parse in place.
-/

namespace Primer.Grammar

/-- Something can be added to the word to make it a sentence. -/
def Viable (word : List Char) : Prop := ∃ rest, Sentence (word ++ rest)

/-- An answer and a position that tell all there is to know about an input: the position is the
length of the longest front that can become a sentence, and the answer is yes if the input is a
sentence, no if only that front is one, and that a `d` was due if the front is none. -/
structure Settles (input : List Char) (result : Except Unexpected Bool) (position : Nat) :
    Prop where
  isGreatest : IsGreatest {length | length ≤ input.length ∧ Viable (input.take length)} position
  ok_true_iff : result = .ok true ↔ position = input.length ∧ Sentence input
  ok_false_iff : result = .ok false ↔ position < input.length ∧ Sentence (input.take position)
  error_iff : ∀ unexpected, result = .error unexpected ↔
    ¬ Sentence (input.take position) ∧ unexpected = ⟨'d', input[position]?, position⟩

/-- A sentence is consumed to its end, so the answer alone tells it. -/
theorem Settles.ok_true_iff_sentence {input : List Char} {result : Except Unexpected Bool}
    {position : Nat} (settles : Settles input result position) :
    result = .ok true ↔ Sentence input := by
  rw [settles.ok_true_iff]
  refine ⟨And.right, fun sentence => ⟨?_, sentence⟩⟩
  have viable : Viable (input.take input.length) := by
    refine ⟨[], ?_⟩
    rwa [List.take_length, List.append_nil]
  exact Nat.le_antisymm settles.isGreatest.1.1 (settles.isGreatest.2 ⟨Nat.le_refl _, viable⟩)

/-- Productions that are the leftmost derivation of what was consumed of an input: there is no other
one, and if a `d` was due, that `d` and the last `C` are left after it. -/
structure Leftmost (input : List Char) (result : Except Unexpected Bool) (position : Nat)
    (derivation : List Production) : Prop where
  unique : ∀ productions, derive productions [.nonterminal .s] = some (terminals input) ↔
    Sentence input ∧ productions = derivation
  derives : derive derivation [.nonterminal .s] =
    some (match result with
      | .ok _ => terminals (input.take position)
      | .error _ => terminals (input.take position) ++ [.terminal 'd', .nonterminal .c])

section Consumed

variable {consumed rest : List Char} (leaves : (readS (consumed ++ rest)).rest = rest)

include leaves in
/-- The productions that were applied derive what was consumed, with what is owed behind it. -/
theorem derive_readS :
    derive (readS (consumed ++ rest)).applied [.nonterminal .s] =
      some (terminals consumed ++ (readS (consumed ++ rest)).owes [.nonterminal .c]) := by
  obtain ⟨front, split, derived⟩ := readS_follows (consumed ++ rest)
  rw [leaves] at split
  rw [List.append_cancel_right split] at derived ⊢
  exact derived

include leaves in
/-- What was consumed is a sentence exactly if reading did not stop short. -/
theorem sentence_consumed_iff :
    Sentence consumed ↔ (readS (consumed ++ rest)).missing = none := by
  constructor
  · intro sentence
    obtain ⟨productions, derived⟩ := sentence_iff_yields.1 sentence
    have alone := oneAhead_readS consumed rest [] leaves nofun
    rw [List.append_nil, readS_eq_of_derive derived] at alone
    exact (congrArg Reading.missing alone).symm
  · intro finished
    have derived := derive_readS leaves
    rw [Reading.owes_eq_nil finished, List.append_nil] at derived
    exact sentence_iff_yields.2 ⟨_, derived⟩

include leaves in
/-- What was consumed can become a sentence: if a `d` was due, with a `d`. -/
theorem viable_consumed : Viable consumed := by
  cases stops : (readS (consumed ++ rest)).missing with
  | none =>
    refine ⟨[], ?_⟩
    rw [List.append_nil]
    exact (sentence_consumed_iff leaves).2 stops
  | some due =>
    have derived := derive_readS leaves
    rw [Reading.owes_eq_cons stops] at derived
    refine ⟨[due], sentence_iff_yields.2 ⟨(readS (consumed ++ rest)).applied ++ [.noFinal], ?_⟩⟩
    rw [derive_append, derived, Option.bind_some, derive_terminals, terminals_append]
    rfl

include leaves in
/-- Nothing that begins with what was consumed and one more character can become a sentence. -/
theorem not_viable_beyond {char : Char} (begins : rest.head? = some char) (more : List Char) :
    ¬ Viable (consumed ++ char :: more) := by
  rintro ⟨tail, sentence⟩
  rw [List.append_assoc, List.cons_append] at sentence
  obtain ⟨productions, derived⟩ := sentence_iff_yields.1 sentence
  -- A sentence is read to its end, but with the same next character the reader stops where it did.
  have further := oneAhead_readS consumed rest (char :: (more ++ tail)) leaves
    fun other same => same ▸ begins
  rw [readS_eq_of_derive derived] at further
  cases congrArg Reading.rest further

include leaves in
/-- What was consumed is the longest front of the input that can become a sentence. -/
theorem isGreatest_consumed :
    IsGreatest {length | length ≤ (consumed ++ rest).length ∧
      Viable ((consumed ++ rest).take length)} consumed.length := by
  refine ⟨⟨?_, ?_⟩, ?_⟩
  · rw [List.length_append]
    exact Nat.le_add_right _ _
  · rw [List.take_left]
    exact viable_consumed leaves
  · rintro length ⟨bounded, viable⟩
    refine Nat.le_of_not_lt fun beyond => ?_
    cases rest with
    | nil => simp at bounded; omega
    | cons char more =>
      obtain ⟨extra, rfl⟩ : ∃ extra, length = consumed.length + (extra + 1) :=
        ⟨length - consumed.length - 1, by omega⟩
      rw [List.take_length_add_append, List.take_succ_cons] at viable
      exact not_viable_beyond leaves rfl _ viable

end Consumed

section Parse

variable (input : List Char)

/-- What a first parse answers and leaves, told by the reader of sentences. -/
theorem parse_start :
    ∃ consumed rest, input = consumed ++ rest ∧ (readS input).rest = rest ∧
      (Recognizer.start input).parse =
        (match (readS input).missing with
          | some due => .error ⟨due, rest.head?, consumed.length⟩
          | none => .ok rest.isEmpty,
        ⟨rest, consumed.length, (readS input).applied⟩) := by
  obtain ⟨consumed, split, _⟩ := readS_follows input
  refine ⟨consumed, (readS input).rest, split, rfl, ?_⟩
  have position : 0 + (input.length - (readS input).rest.length) = consumed.length := by
    have := congrArg List.length split
    rw [List.length_append] at this
    omega
  simp only [Recognizer.start, Recognizer.parse, position, List.nil_append]
  cases (readS input).missing <;> rfl

/-- The three ways in which a first parse can end. -/
theorem parse_start_cases :
    ∃ consumed rest, input = consumed ++ rest ∧ (readS input).rest = rest ∧
      (Recognizer.start input).parse.2.position = consumed.length ∧
      ((rest = [] ∧ Sentence consumed ∧ (Recognizer.start input).parse.1 = .ok true) ∨
        (rest ≠ [] ∧ Sentence consumed ∧ (Recognizer.start input).parse.1 = .ok false) ∨
        (¬ Sentence consumed ∧ (Recognizer.start input).parse.1 =
          .error ⟨'d', rest.head?, consumed.length⟩)) := by
  obtain ⟨consumed, rest, rfl, leaves, parsed⟩ := parse_start input
  refine ⟨consumed, rest, rfl, leaves, by rw [parsed], ?_⟩
  rw [parsed, sentence_consumed_iff leaves]
  cases stops : (readS (consumed ++ rest)).missing with
  | none =>
    cases rest with
    | nil => exact .inl ⟨rfl, rfl, rfl⟩
    | cons char more => exact .inr (.inl ⟨nofun, rfl, rfl⟩)
  | some due =>
    cases eq_of_missing_readS stops
    exact .inr (.inr ⟨nofun, rfl⟩)

/-- The first parse of a recognizer settles its input. -/
theorem settles_parse_start :
    Settles input (Recognizer.start input).parse.1 (Recognizer.start input).parse.2.position := by
  obtain ⟨consumed, rest, rfl, leaves, position, ends⟩ := parse_start_cases input
  have found : (consumed ++ rest)[consumed.length]? = rest.head? := by
    rw [List.getElem?_append_right (Nat.le_refl _), Nat.sub_self, List.head?_eq_getElem?]
  have greatest := isGreatest_consumed leaves
  rw [position]
  -- Each of the three ends decides every equivalence, since the answers differ.
  rcases ends with ⟨rfl, sentence, result⟩ | ⟨left, sentence, result⟩ | ⟨short, result⟩
  all_goals rw [result]
  · exact ⟨greatest, by simp [sentence], by simp, by simp [sentence]⟩
  · have longer := List.length_pos_iff.2 left
    exact ⟨greatest, by simp [left], by simp [sentence, longer], by simp [sentence]⟩
  · exact ⟨greatest, by simp +contextual [short], by simp [short],
      by simp [short, found, eq_comm]⟩

/-- The first parse of a recognizer records the leftmost derivation of what it consumed. -/
theorem leftmost_parse_start :
    Leftmost input (Recognizer.start input).parse.1 (Recognizer.start input).parse.2.position
      (Recognizer.start input).parse.2.derivation := by
  obtain ⟨consumed, rest, rfl, leaves, parsed⟩ := parse_start input
  simp only [parsed]
  refine ⟨fun productions => ⟨?_, ?_⟩, ?_⟩
  · intro derived
    rw [readS_eq_of_derive derived]
    exact ⟨sentence_iff_yields.2 ⟨productions, derived⟩, rfl⟩
  · rintro ⟨sentence, rfl⟩
    obtain ⟨productions, derived⟩ := sentence_iff_yields.1 sentence
    rw [readS_eq_of_derive derived]
    exact derived
  · rw [derive_readS leaves, List.take_left]
    cases stops : (readS (consumed ++ rest)).missing with
    | none => rw [Reading.owes_eq_nil stops, List.append_nil]
    | some due =>
      rw [Reading.owes_eq_cons stops]
      cases eq_of_missing_readS stops
      rfl

/-- **The recognizer decides the grammar.** An input is recognized exactly if it is a sentence. Let
`position` be where the first parse ends: it is the length of the longest front of the input that
can become a sentence. The answer is yes if the input is a sentence, no if only that front is one,
and if it is none, that a `d` was due after it. -/
theorem parse_decides_sentences :
    (recognize (String.ofList input) = .ok true ↔ Sentence input) ∧
      let result := (Recognizer.start input).parse.1
      let position := (Recognizer.start input).parse.2.position
      IsGreatest {length | length ≤ input.length ∧ Viable (input.take length)} position ∧
        (result = .ok true ↔ position = input.length ∧ Sentence input) ∧
        (result = .ok false ↔ position < input.length ∧ Sentence (input.take position)) ∧
        ∀ unexpected, result = .error unexpected ↔
          ¬ Sentence (input.take position) ∧ unexpected = ⟨'d', input[position]?, position⟩ := by
  have settles := settles_parse_start input
  refine ⟨?_, settles.isGreatest, settles.ok_true_iff, settles.ok_false_iff, settles.error_iff⟩
  rw [recognize, String.toList_ofList]
  exact settles.ok_true_iff_sentence

/-- **The recorded derivation is the leftmost one.** A word has no leftmost derivation but the one
its first parse records, and has this one exactly if it is a sentence. For any input the recorded
productions, applied in order to the leftmost nonterminal from the start symbol on, give what was
consumed; if a `d` was due, that `d` and the last `C` stand after it. -/
theorem derivation_is_the_leftmost :
    (∀ productions, derive productions [.nonterminal .s] = some (terminals input) ↔
        Sentence input ∧ productions = (Recognizer.start input).parse.2.derivation) ∧
      let result := (Recognizer.start input).parse.1
      let after := (Recognizer.start input).parse.2
      derive after.derivation [.nonterminal .s] =
        some (match result with
          | .ok _ => terminals (input.take after.position)
          | .error _ =>
            terminals (input.take after.position) ++ [.terminal 'd', .nonterminal .c]) :=
  have leftmost := leftmost_parse_start input
  ⟨leftmost.unique, leftmost.derives⟩

end Parse

end Primer.Grammar
