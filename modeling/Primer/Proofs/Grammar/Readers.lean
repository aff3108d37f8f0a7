import Primer.Grammar.Recognizer
import Primer.Proofs.Grammar.Derivation

/-!
# What the readers do

Three properties of a reader, each proved for the readers of single terminals and options, for the
reader of `B` by recursion on the input, and then carried through `andThen` and `under` to the
reader of `S`.

* `Reading.Follows`: the productions applied are a leftmost derivation of what was consumed.
* `Decides`: no other leftmost derivation of the word could have been chosen. This needs that what
  comes after cannot begin with the character that the reader looks for.
* `OneAhead`: beyond what it consumes a reader sees one character at most, and the end of the input
  is to it like a character that does not fit.
-/

namespace Primer.Grammar

/-! ## Readers follow leftmost derivations -/

namespace Reading

/-- The productions of a reading take a form to what was consumed and what is still owed. -/
def Follows (reading : Reading) (input : List Char) (form owed : List Symbol) : Prop :=
  ∃ consumed, input = consumed ++ reading.rest ∧
    derive reading.applied form = some (terminals consumed ++ owed)

/-- What a reading that stopped short owes: the terminal that was due, and what comes after it. -/
def owes (reading : Reading) (after : List Symbol) : List Symbol :=
  match reading.missing with
  | none => []
  | some due => .terminal due :: after

variable {first reading : Reading} {next : List Char → Reading} {input : List Char}
  {form form' owed : List Symbol}

theorem andThen_of_finished (finished : first.missing = none) :
    first.andThen next =
      { next first.rest with applied := first.applied ++ (next first.rest).applied } := by
  rw [andThen, finished]

theorem andThen_of_stopped {due : Char} (stopped : first.missing = some due) :
    first.andThen next = first := by
  rw [andThen, stopped]

theorem missing_andThen (finished : first.missing = none) :
    (first.andThen next).missing = (next first.rest).missing := by
  rw [andThen_of_finished finished]

theorem owes_eq_nil (finished : reading.missing = none) (after : List Symbol) :
    reading.owes after = [] := by
  rw [owes, finished]

theorem owes_eq_cons {due : Char} (stopped : reading.missing = some due) (after : List Symbol) :
    reading.owes after = .terminal due :: after := by
  rw [owes, stopped]

/-- A reader of what a production stands for is, with the production noted, a reader of its
nonterminal. -/
theorem Follows.under (production : Production)
    (follows : reading.Follows input production.rhs owed) :
    (reading.under production).Follows input [.nonterminal production.lhs] owed := by
  obtain ⟨consumed, split, derived⟩ := follows
  refine ⟨consumed, split, ?_⟩
  show derive (production :: reading.applied) _ = _
  rw [derive_nonterminal, List.append_nil]
  exact derived

/-- A terminal that was consumed before a reading stands before the form. -/
theorem Follows.terminal (char : Char) (follows : reading.Follows input form owed) :
    reading.Follows (char :: input) (.terminal char :: form) owed := by
  obtain ⟨consumed, split, derived⟩ := follows
  refine ⟨char :: consumed, congrArg (char :: ·) split, ?_⟩
  rw [derive_terminal, derived]
  rfl

/-- Readers of two forms, one after the other, read both forms. -/
theorem Follows.andThen (finished : first.missing = none) (hfirst : first.Follows input form [])
    (hnext : (next first.rest).Follows first.rest form' owed) :
    (first.andThen next).Follows input (form ++ form') owed := by
  obtain ⟨consumed, split, derived⟩ := hfirst
  obtain ⟨more, split', derived'⟩ := hnext
  rw [andThen_of_finished finished]
  refine ⟨consumed ++ more, ?_, ?_⟩
  · rw [List.append_assoc, ← split']
    exact split
  · rw [List.append_nil] at derived
    rw [derive_append, derive_append_right derived, Option.bind_some, derive_terminals, derived',
      terminals_append, List.append_assoc]
    rfl

/-- What comes after a reading that stopped short is owed as it stands. -/
theorem Follows.andThen_of_stopped {due : Char} (stopped : first.missing = some due)
    (hfirst : first.Follows input form owed) :
    (first.andThen next).Follows input (form ++ form') (owed ++ form') := by
  obtain ⟨consumed, split, derived⟩ := hfirst
  rw [Reading.andThen_of_stopped stopped]
  refine ⟨consumed, split, ?_⟩
  rw [derive_append_right derived, List.append_assoc]

end Reading

/-- Two productions say that a nonterminal is one terminal or nothing. -/
structure IsOption (name : Nonterminal) (char : Char) (present absent : Production) : Prop where
  lhs_eq_iff : ∀ production : Production,
    production.lhs = name ↔ production = present ∨ production = absent
  present_rhs : present.rhs = [.terminal char]
  absent_rhs : absent.rhs = []

theorem isOption_c : IsOption .c 'c' .final .noFinal :=
  ⟨fun production => by cases production <;> decide, rfl, rfl⟩

theorem isOption_q : IsOption .q 'q' .closed .notClosed :=
  ⟨fun production => by cases production <;> decide, rfl, rfl⟩

@[simp] theorem missing_readOptional (char : Char) (present absent : Production)
    (input : List Char) : (readOptional char present absent input).missing = none := by
  cases input with
  | nil => rfl
  | cons next rest =>
    rw [readOptional]
    split <;> rfl

@[simp] theorem missing_readB (input : List Char) : (readB input).missing = none := by
  induction input with
  | nil => rfl
  | cons next rest ih =>
    rw [readB]
    split
    · exact ih
    · rfl

/-- An optional terminal is read by one of its two productions. -/
theorem IsOption.follows {name : Nonterminal} {char : Char} {present absent : Production}
    (isOption : IsOption name char present absent) (input : List Char) :
    (readOptional char present absent input).Follows input [.nonterminal name] [] := by
  have skip (input : List Char) :
      Reading.Follows ⟨[absent], input, none⟩ input [.nonterminal name] [] := by
    refine ⟨[], rfl, ?_⟩
    rw [← (isOption.lhs_eq_iff absent).2 (.inr rfl), derive_nonterminal, isOption.absent_rhs]
    rfl
  cases input with
  | nil => exact skip []
  | cons next rest =>
    rw [readOptional]
    split
    · next fits =>
      subst fits
      refine ⟨[next], rfl, ?_⟩
      rw [← (isOption.lhs_eq_iff present).2 (.inl rfl), derive_nonterminal, isOption.present_rhs]
      rfl
    · exact skip (next :: rest)

/-- However many `b` there are, they are read by as many productions and one that ends them. -/
theorem readB_follows (input : List Char) :
    (readB input).Follows input [.nonterminal .b] [] := by
  induction input with
  | nil => exact ⟨[], rfl, rfl⟩
  | cons next rest ih =>
    rw [readB]
    split
    · next fits =>
      subst fits
      exact Reading.Follows.under .more (ih.terminal 'b')
    · exact ⟨[], rfl, rfl⟩

theorem readTerminal_follows (due : Char) (input : List Char) :
    (readTerminal due input).Follows input [.terminal due] ((readTerminal due input).owes []) := by
  cases input with
  | nil => exact ⟨[], rfl, rfl⟩
  | cons next rest =>
    rw [readTerminal]
    split
    · next fits =>
      subst fits
      exact ⟨[next], rfl, rfl⟩
    · exact ⟨[], rfl, rfl⟩

theorem missing_readBC (input : List Char) : ((readB input).andThen readC).missing = none := by
  rw [Reading.missing_andThen (missing_readB input)]
  exact missing_readOptional 'c' .final .noFinal _

theorem missing_readFramed (input : List Char) :
    (readFramed input).missing =
      (readTerminal 'd' ((readB input).andThen readC).rest).missing := by
  rw [← Reading.missing_andThen (missing_readBC input)]
  rfl

theorem readFramed_follows (input : List Char) :
    (readFramed input).Follows ('a' :: input) [.nonterminal .a] ((readFramed input).owes []) := by
  have body := (readB_follows input).andThen (missing_readB input) (isOption_c.follows _)
  have closed := body.andThen (missing_readBC input) (readTerminal_follows 'd' _)
  rw [Reading.owes, missing_readFramed input]
  exact Reading.Follows.under .framed (closed.terminal 'a')

theorem missing_readBare (input : List Char) : (readBare input).missing = none := by
  show ((readB input).andThen readQ).missing = none
  rw [Reading.missing_andThen (missing_readB input)]
  exact missing_readOptional 'q' .closed .notClosed _

theorem readBare_follows (input : List Char) :
    (readBare input).Follows input [.nonterminal .a] ((readBare input).owes []) := by
  rw [Reading.owes_eq_nil (missing_readBare input)]
  refine Reading.Follows.under .bare ?_
  exact (readB_follows input).andThen (missing_readB input) (isOption_q.follows _)

theorem readA_follows (input : List Char) :
    (readA input).Follows input [.nonterminal .a] ((readA input).owes []) := by
  cases input with
  | nil => exact readBare_follows []
  | cons next rest =>
    rw [readA]
    split
    · next fits =>
      subst fits
      exact readFramed_follows rest
    · exact readBare_follows (next :: rest)

theorem missing_readS (input : List Char) : (readS input).missing = (readA input).missing := by
  show ((readA input).andThen readC).missing = _
  cases stops : (readA input).missing with
  | none =>
    rw [Reading.missing_andThen stops]
    exact missing_readOptional 'c' .final .noFinal _
  | some due => rw [Reading.andThen_of_stopped stops, stops]

/-- Reading a sentence follows a leftmost derivation, also where it stops short: then the terminal
that was due and the `C` at the end of the sentence are owed. -/
theorem readS_follows (input : List Char) :
    (readS input).Follows input [.nonterminal .s] ((readS input).owes [.nonterminal .c]) := by
  refine Reading.Follows.under .sentence ?_
  have body := readA_follows input
  rw [Reading.owes, missing_readS]
  cases stops : (readA input).missing with
  | none =>
    rw [Reading.owes_eq_nil stops] at body
    exact body.andThen stops (isOption_c.follows _)
  | some due =>
    rw [Reading.owes_eq_cons stops] at body
    exact body.andThen_of_stopped stops

/-- The only terminal that can be missing is the `d` after a framed body. -/
theorem eq_of_missing_readS {input : List Char} {due : Char}
    (stopped : (readS input).missing = some due) : due = 'd' := by
  rw [missing_readS] at stopped
  cases input with
  | nil => cases stopped
  | cons next rest =>
    rw [readA] at stopped
    split at stopped
    · rw [missing_readFramed] at stopped
      generalize ((readB rest).andThen readC).rest = left at stopped
      cases left with
      | nil => exact (Option.some.inj stopped).symm
      | cons next rest =>
        rw [readTerminal] at stopped
        split at stopped
        · cases stopped
        · exact (Option.some.inj stopped).symm
    · rw [missing_readBare] at stopped
      cases stopped

/-! ## One character decides -/

/-- Some word that the form yields begins with the character. -/
def Starts (form : List Symbol) (char : Char) : Prop := ∃ word, Yields form (char :: word)

/-- Every leftmost derivation of a word from `form` and what comes after it begins with the
productions that the reader applies to the word, and goes on from what the reader leaves. -/
def Decides (reader : List Char → Reading) (form after : List Symbol) : Prop :=
  ∀ (productions : List Production) (word : List Char),
    derive productions (form ++ after) = some (terminals word) →
      ∃ others, productions = (reader word).applied ++ others ∧ (reader word).missing = none ∧
        derive others after = some (terminals (reader word).rest)

section Decides

variable {char other : Char} {form form' after : List Symbol}

theorem not_starts_nil : ¬ Starts [] char := by
  rintro ⟨word, productions, derived⟩
  cases (derive_nil derived).2

theorem Starts.terminal (starts : Starts (.terminal char :: form) other) : other = char := by
  obtain ⟨word, productions, derived⟩ := starts
  obtain ⟨rest, same, _⟩ := derive_terminal_cons derived
  exact (List.cons.inj same).1

theorem IsOption.starts {name : Nonterminal} {present absent : Production}
    (isOption : IsOption name char present absent)
    (starts : Starts (.nonterminal name :: form) other) : other = char ∨ Starts form other := by
  obtain ⟨word, productions, derived⟩ := starts
  obtain ⟨production, rest, rfl, lhs, derived⟩ := derive_nonterminal_cons derived
  rcases (isOption.lhs_eq_iff production).1 lhs with rfl | rfl
  · rw [isOption.present_rhs] at derived
    exact .inl (Starts.terminal ⟨word, rest, derived⟩)
  · rw [isOption.absent_rhs] at derived
    exact .inr ⟨word, rest, derived⟩

theorem lhs_eq_b_iff {production : Production} :
    production.lhs = .b ↔ production = .more ∨ production = .noMore := by
  cases production <;> decide

theorem lhs_eq_a_iff {production : Production} :
    production.lhs = .a ↔ production = .framed ∨ production = .bare := by
  cases production <;> decide

theorem starts_b (starts : Starts (.nonterminal .b :: form) other) :
    other = 'b' ∨ Starts form other := by
  obtain ⟨word, productions, derived⟩ := starts
  obtain ⟨production, rest, rfl, lhs, derived⟩ := derive_nonterminal_cons derived
  rcases lhs_eq_b_iff.1 lhs with rfl | rfl
  · exact .inl (Starts.terminal ⟨word, rest, derived⟩)
  · exact .inr ⟨word, rest, derived⟩

/-- Readers that decide their forms decide both forms together, if the first knows what may follow
it. -/
theorem Decides.andThen {reader reader' : List Char → Reading}
    (first : Decides reader form (form' ++ after)) (second : Decides reader' form' after) :
    Decides (fun word => (reader word).andThen reader') (form ++ form') after := by
  intro productions word derived
  rw [List.append_assoc] at derived
  obtain ⟨others, rfl, finished, derived⟩ := first _ _ derived
  obtain ⟨others, rfl, finished', derived⟩ := second _ _ derived
  simp only [Reading.andThen_of_finished finished]
  exact ⟨others, (List.append_assoc _ _ _).symm, finished', derived⟩

theorem decides_terminal (due : Char) : Decides (readTerminal due) [.terminal due] after := by
  intro productions word derived
  obtain ⟨rest, rfl, remaining⟩ := derive_terminal_cons derived
  rw [readTerminal, if_pos rfl]
  exact ⟨productions, rfl, rfl, remaining⟩

/-- An optional terminal is decided by one character if nothing behind it can start with that
terminal. -/
theorem IsOption.decides {name : Nonterminal} {present absent : Production}
    (isOption : IsOption name char present absent) (unlike : ¬ Starts after char) :
    Decides (readOptional char present absent) [.nonterminal name] after := by
  intro productions word derived
  obtain ⟨production, others, rfl, lhs, derived⟩ := derive_nonterminal_cons derived
  rcases (isOption.lhs_eq_iff production).1 lhs with rfl | rfl
  · rw [isOption.present_rhs] at derived
    obtain ⟨rest, rfl, remaining⟩ := derive_terminal_cons derived
    rw [readOptional, if_pos rfl]
    exact ⟨others, rfl, rfl, remaining⟩
  · rw [isOption.absent_rhs] at derived
    cases word with
    | nil => exact ⟨others, rfl, rfl, derived⟩
    | cons next rest =>
      have differs : next ≠ char := fun same => unlike ⟨rest, others, same ▸ derived⟩
      rw [readOptional, if_neg differs]
      exact ⟨others, rfl, rfl, derived⟩

theorem readB_decides (unlike : ¬ Starts after 'b') : Decides readB [.nonterminal .b] after := by
  intro productions word derived
  induction word generalizing productions with
  | nil =>
    obtain ⟨production, others, rfl, lhs, derived⟩ := derive_nonterminal_cons derived
    rcases lhs_eq_b_iff.1 lhs with rfl | rfl
    · obtain ⟨rest, same, _⟩ := derive_terminal_cons derived
      cases same
    · exact ⟨others, rfl, rfl, derived⟩
  | cons next word ih =>
    obtain ⟨production, others, rfl, lhs, derived⟩ := derive_nonterminal_cons derived
    rcases lhs_eq_b_iff.1 lhs with rfl | rfl
    · obtain ⟨rest, same, remaining⟩ := derive_terminal_cons derived
      cases same
      obtain ⟨others, rfl, finished, derived⟩ := ih _ remaining
      rw [readB, if_pos rfl]
      exact ⟨others, rfl, finished, derived⟩
    · have differs : next ≠ 'b' := fun same => unlike ⟨word, others, same ▸ derived⟩
      rw [readB, if_neg differs]
      exact ⟨others, rfl, rfl, derived⟩

/-- What a framed body consists of after its `a`. The `C` and the `d` keep the `b` apart from what
comes after them. -/
theorem decides_framed :
    Decides (fun word => ((readB word).andThen readC).andThen (readTerminal 'd'))
      [.nonterminal .b, .nonterminal .c, .terminal 'd'] after := by
  have notC : ¬ Starts ([.terminal 'd'] ++ after) 'c' := fun starts =>
    absurd starts.terminal (by decide)
  have notB : ¬ Starts ([.nonterminal .c] ++ ([.terminal 'd'] ++ after)) 'b' := by
    intro starts
    rcases isOption_c.starts starts with same | starts
    · exact absurd same (by decide)
    · exact absurd starts.terminal (by decide)
  exact Decides.andThen (Decides.andThen (readB_decides notB) (isOption_c.decides notC))
    (decides_terminal 'd')

theorem decides_bare (notB : ¬ Starts after 'b') (notQ : ¬ Starts after 'q') :
    Decides (fun word => (readB word).andThen readQ) [.nonterminal .b, .nonterminal .q] after := by
  refine Decides.andThen (readB_decides fun starts => ?_) (isOption_q.decides notQ)
  rcases isOption_q.starts starts with same | starts
  · exact absurd same (by decide)
  · exact notB starts

theorem readA_decides (notA : ¬ Starts after 'a') (notB : ¬ Starts after 'b')
    (notQ : ¬ Starts after 'q') : Decides readA [.nonterminal .a] after := by
  intro productions word derived
  obtain ⟨production, others, rfl, lhs, derived⟩ := derive_nonterminal_cons derived
  rcases lhs_eq_a_iff.1 lhs with rfl | rfl
  · obtain ⟨rest, rfl, remaining⟩ := derive_terminal_cons derived
    obtain ⟨others, rfl, finished, derived⟩ := decides_framed _ _ remaining
    rw [readA, if_pos rfl]
    exact ⟨others, rfl, finished, derived⟩
  · -- An `a` would have to come from what stands after, as neither `B` nor `Q` gives one.
    have differs (rest : List Char) : word ≠ 'a' :: rest := by
      rintro rfl
      rcases starts_b ⟨rest, others, derived⟩ with same | starts
      · exact absurd same (by decide)
      · rcases isOption_q.starts starts with same | starts
        · exact absurd same (by decide)
        · exact notA starts
    have bare : readA word = readBare word := by
      cases word with
      | nil => rfl
      | cons next rest => rw [readA, if_neg fun same => differs rest (congrArg (· :: rest) same)]
    obtain ⟨others, rfl, finished, derived⟩ := decides_bare notB notQ _ _ derived
    rw [bare]
    exact ⟨others, rfl, finished, derived⟩

/-- A leftmost derivation of a sentence is the one that the reader applies. -/
theorem readS_eq_of_derive {productions : List Production} {word : List Char}
    (derived : derive productions [.nonterminal .s] = some (terminals word)) :
    readS word = ⟨productions, [], none⟩ := by
  have onlyC {char : Char} (starts : Starts [.nonterminal .c] char) : char = 'c' :=
    (isOption_c.starts starts).resolve_right not_starts_nil
  have decides : Decides (fun word => (readA word).andThen readC)
      [.nonterminal .a, .nonterminal .c] [] := by
    refine Decides.andThen (readA_decides ?_ ?_ ?_) (isOption_c.decides not_starts_nil)
    · exact fun starts => absurd (onlyC starts) (by decide)
    · exact fun starts => absurd (onlyC starts) (by decide)
    · exact fun starts => absurd (onlyC starts) (by decide)
  obtain ⟨production, others, rfl, lhs, derived⟩ := derive_nonterminal_cons derived
  have isSentence : production = .sentence := by
    cases production <;> first | rfl | cases lhs
  subst isSentence
  obtain ⟨others, rfl, finished, derived⟩ := decides _ _ derived
  obtain ⟨rfl, left⟩ := derive_nil derived
  simp only [readS, Reading.under, List.append_nil, Reading.mk.injEq, true_and]
  exact ⟨left, finished⟩

end Decides

/-! ## One character is all that a reader sees ahead -/

/-- What a reader does depends on what it consumes and on the next character only: any other input
with the same next character, and also the end of the input, gives the same reading. -/
def OneAhead (reader : List Char → Reading) : Prop :=
  ∀ (consumed ahead ahead' : List Char), (reader (consumed ++ ahead)).rest = ahead →
    (∀ char, ahead'.head? = some char → ahead.head? = some char) →
      reader (consumed ++ ahead') = { reader (consumed ++ ahead) with rest := ahead' }

section OneAhead

variable {reader reader' : List Char → Reading}

/-- A reader that consumes a character whenever it comes next, and leaves all as it is, was not
offered that character. -/
theorem head?_ne_of_stays {char : Char} {ahead : List Char}
    (consumes : ∀ rest, (reader (char :: rest)).rest <:+ rest)
    (stays : (reader ahead).rest = ahead) : ahead.head? ≠ some char := by
  intro begins
  obtain ⟨rest, rfl⟩ := List.head?_eq_some_iff.1 begins
  have shorter := (consumes rest).length_le
  rw [stays, List.length_cons] at shorter
  omega

/-- A reader that consumes one given character or nothing. -/
theorem oneAhead_of_choice (char : Char) (hit miss : Reading)
    (onHit : ∀ rest, reader (char :: rest) = { hit with rest })
    (onMiss : ∀ input, input.head? ≠ some char → reader input = { miss with rest := input }) :
    OneAhead reader := by
  intro consumed ahead ahead' stays same
  cases consumed with
  | nil =>
    have unlike : ahead.head? ≠ some char := by
      refine head?_ne_of_stays (fun rest => ?_) stays
      have leaves : (reader (char :: rest)).rest = rest := congrArg Reading.rest (onHit rest)
      exact ⟨[], leaves⟩
    have unlike' : ahead'.head? ≠ some char := fun begins => unlike (same char begins)
    rw [List.nil_append, List.nil_append, onMiss ahead' unlike', onMiss ahead unlike]
  | cons first rest =>
    by_cases fits : first = char
    · subst fits
      rw [List.cons_append, onHit] at stays
      have whole : rest = [] := List.append_left_eq_self.1 stays
      subst whole
      rw [List.cons_append, List.cons_append, onHit, onHit]
      rfl
    · rw [onMiss _ (by simpa using fits)] at stays
      cases List.append_left_eq_self.1 (show first :: rest ++ ahead = ahead from stays)

theorem oneAhead_readTerminal (due : Char) : OneAhead (readTerminal due) := by
  refine oneAhead_of_choice due ⟨[], [], none⟩ ⟨[], [], some due⟩ (fun rest => ?_)
    fun input unlike => ?_
  · rw [readTerminal, if_pos rfl]
  · cases input with
    | nil => rfl
    | cons next rest => rw [readTerminal, if_neg (by simpa using unlike)]

theorem oneAhead_readOptional (char : Char) (present absent : Production) :
    OneAhead (readOptional char present absent) := by
  refine oneAhead_of_choice char ⟨[present], [], none⟩ ⟨[absent], [], none⟩
    (fun rest => ?_) fun input unlike => ?_
  · rw [readOptional, if_pos rfl]
  · cases input with
    | nil => rfl
    | cons next rest => rw [readOptional, if_neg (by simpa using unlike)]

theorem readB_of_unlike {input : List Char} (unlike : input.head? ≠ some 'b') :
    readB input = ⟨[.noMore], input, none⟩ := by
  cases input with
  | nil => rfl
  | cons next rest => rw [readB, if_neg (by simpa using unlike)]

theorem oneAhead_readB : OneAhead readB := by
  intro consumed ahead ahead' stays same
  induction consumed with
  | nil =>
    have unlike : ahead.head? ≠ some 'b' := by
      refine head?_ne_of_stays (fun rest => ?_) stays
      rw [readB, if_pos rfl]
      exact suffix_readB rest
    have unlike' : ahead'.head? ≠ some 'b' := fun begins => unlike (same 'b' begins)
    rw [List.nil_append, List.nil_append, readB_of_unlike unlike, readB_of_unlike unlike']
  | cons first rest ih =>
    rw [List.cons_append, readB] at stays ⊢
    by_cases fits : first = 'b'
    · rw [if_pos fits] at stays ⊢
      rw [List.cons_append, readB, if_pos fits, ih stays]
      rfl
    · rw [if_neg fits] at stays
      cases List.append_left_eq_self.1 (show first :: rest ++ ahead = ahead from stays)

theorem OneAhead.under (oneAhead : OneAhead reader) (production : Production) :
    OneAhead fun input => (reader input).under production := by
  intro consumed ahead ahead' stays same
  simp only [oneAhead consumed ahead ahead' stays same]
  rfl

/-- Where the second reader goes on from a reading that leaves more of the same next character. -/
theorem OneAhead.andThen_reading (second : OneAhead reader') {reading : Reading}
    {middle ahead ahead' : List Char} (left : reading.rest = middle ++ ahead)
    (stays : (reading.andThen reader').rest = ahead)
    (same : ∀ char, ahead'.head? = some char → ahead.head? = some char) :
    { reading with rest := middle ++ ahead' }.andThen reader' =
      { reading.andThen reader' with rest := ahead' } := by
  cases stops : reading.missing with
  | none =>
    rw [Reading.andThen_of_finished stops, left] at stays ⊢
    rw [Reading.andThen_of_finished rfl]
    simp only [second middle ahead ahead' stays same]
  | some due =>
    rw [Reading.andThen_of_stopped stops] at stays ⊢
    rw [left] at stays
    cases List.append_left_eq_self.1 stays
    rw [Reading.andThen_of_stopped rfl, List.nil_append]
    simp only [stops]

/-- The second reader begins between what both consume and what lies ahead of both, so the
lookahead of the first is the first character that the second consumes, or the lookahead of both. -/
theorem OneAhead.andThen (first : OneAhead reader) (second : OneAhead reader')
    (suffix : ∀ input, (reader input).rest <:+ input)
    (suffix' : ∀ input, (reader' input).rest <:+ input) :
    OneAhead fun input => (reader input).andThen reader' := by
  intro consumed ahead ahead' stays same
  change ((reader (consumed ++ ahead)).andThen reader').rest = ahead at stays
  have inside : ahead <:+ (reader (consumed ++ ahead)).rest := by
    have below :=
      Reading.suffix_andThen (List.suffix_refl (reader (consumed ++ ahead)).rest) suffix'
    rwa [stays] at below
  obtain ⟨middle, left⟩ := inside
  obtain ⟨front, split⟩ := suffix (consumed ++ ahead)
  have whole : consumed = front ++ middle := by
    rw [← left, ← List.append_assoc] at split
    exact (List.append_cancel_right split).symm
  subst whole
  have same' (char : Char) (begins : (middle ++ ahead').head? = some char) :
      (middle ++ ahead).head? = some char := by
    cases middle with
    | nil => exact same char begins
    | cons next rest => exact begins
  rw [List.append_assoc] at left stays
  have early := first front (middle ++ ahead) (middle ++ ahead') left.symm same'
  simp only [List.append_assoc, early]
  exact second.andThen_reading left.symm stays same

theorem oneAhead_readBare : OneAhead readBare :=
  (oneAhead_readB.andThen (oneAhead_readOptional _ _ _) suffix_readB
    (suffix_readOptional _ _ _)).under .bare

theorem suffix_readBC (input : List Char) : ((readB input).andThen readC).rest <:+ input :=
  Reading.suffix_andThen (suffix_readB input) (suffix_readOptional _ _ _)

theorem suffix_readFramed (input : List Char) : (readFramed input).rest <:+ input :=
  Reading.suffix_andThen (suffix_readBC input) (suffix_readTerminal 'd')

theorem oneAhead_readFramed : OneAhead readFramed := by
  have body := oneAhead_readB.andThen (oneAhead_readOptional _ _ _) suffix_readB
    (suffix_readOptional 'c' .final .noFinal)
  exact (body.andThen (oneAhead_readTerminal 'd') suffix_readBC (suffix_readTerminal 'd')).under
    .framed

theorem readA_of_unlike {input : List Char} (unlike : input.head? ≠ some 'a') :
    readA input = readBare input := by
  cases input with
  | nil => rfl
  | cons next rest => rw [readA, if_neg (by simpa using unlike)]

theorem oneAhead_readA : OneAhead readA := by
  intro consumed ahead ahead' stays same
  cases consumed with
  | nil =>
    have unlike : ahead.head? ≠ some 'a' := by
      refine head?_ne_of_stays (fun rest => ?_) stays
      rw [readA, if_pos rfl]
      exact suffix_readFramed rest
    have unlike' : ahead'.head? ≠ some 'a' := fun begins => unlike (same 'a' begins)
    rw [List.nil_append, readA_of_unlike unlike] at stays
    rw [List.nil_append, List.nil_append, readA_of_unlike unlike, readA_of_unlike unlike']
    exact oneAhead_readBare [] ahead ahead' stays same
  | cons first rest =>
    rw [List.cons_append, readA] at stays ⊢
    rw [List.cons_append, readA]
    by_cases fits : first = 'a'
    · rw [if_pos fits] at stays ⊢
      rw [if_pos fits]
      exact oneAhead_readFramed rest ahead ahead' stays same
    · rw [if_neg fits] at stays ⊢
      rw [if_neg fits]
      exact oneAhead_readBare (first :: rest) ahead ahead' stays same

/-- The reader of sentences looks at one character beyond what it consumes, and at no other. -/
theorem oneAhead_readS : OneAhead readS :=
  (oneAhead_readA.andThen (oneAhead_readOptional _ _ _) suffix_readA
    (suffix_readOptional _ _ _)).under .sentence

end OneAhead

end Primer.Grammar
