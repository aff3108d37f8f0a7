import Mathlib.Logic.Relation
import Primer.Grammar.Production

/-!
# Derivations

`Rewrites` replaces any nonterminal of a sentential form by the right side of one of its
productions, and a `Sentence` is a word that the start symbol can be rewritten to. `derive` applies
a list of productions in order, each to the leftmost nonterminal. The order does not matter for what
can be derived: the sentences are the words with a leftmost derivation (`sentence_iff_yields`).
-/

namespace Primer.Grammar

/-- One nonterminal becomes the right side of one of its productions. -/
inductive Rewrites : List Symbol → List Symbol → Prop
  | intro (before : List Symbol) (production : Production) (after : List Symbol) :
      Rewrites (before ++ .nonterminal production.lhs :: after)
        (before ++ (production.rhs ++ after))

/-- A word as a sentential form. -/
def terminals (word : List Char) : List Symbol := word.map .terminal

/-- The words that the start symbol can be rewritten to. -/
def Sentence (word : List Char) : Prop :=
  Relation.ReflTransGen Rewrites [.nonterminal .s] (terminals word)

/-- Apply a production to the leftmost nonterminal, if it is one for that nonterminal. -/
def rewriteLeftmost (production : Production) : List Symbol → Option (List Symbol)
  | [] => none
  | .terminal char :: rest => (rewriteLeftmost production rest).map (.terminal char :: ·)
  | .nonterminal name :: rest =>
    if production.lhs = name then some (production.rhs ++ rest) else none

/-- Apply productions in order, each to the leftmost nonterminal. -/
def derive : List Production → List Symbol → Option (List Symbol)
  | [], form => some form
  | production :: rest, form => (rewriteLeftmost production form).bind (derive rest)

/-- A form has a leftmost derivation of a word. -/
def Yields (form : List Symbol) (word : List Char) : Prop :=
  ∃ productions, derive productions form = some (terminals word)

/-! ## Leftmost derivations -/

section Derive

variable {productions rest : List Production} {form form' after : List Symbol}
  {word left right : List Char}

@[simp] theorem terminals_nil : terminals [] = [] := rfl

@[simp] theorem terminals_cons (char : Char) (word : List Char) :
    terminals (char :: word) = .terminal char :: terminals word := rfl

@[simp] theorem terminals_append (left right : List Char) :
    terminals (left ++ right) = terminals left ++ terminals right :=
  List.map_append

theorem terminals_injective (same : terminals left = terminals right) : left = right :=
  (List.map_inj_right fun _ _ => Symbol.terminal.inj).1 same

theorem derive_append (first second : List Production) (form : List Symbol) :
    derive (first ++ second) form = (derive first form).bind (derive second) := by
  induction first generalizing form with
  | nil => rfl
  | cons production rest ih =>
    rw [List.cons_append, derive, derive, Option.bind_assoc]
    exact Option.bind_congr fun next _ => ih next

theorem derive_terminal (char : Char) :
    derive productions (.terminal char :: form) =
      (derive productions form).map (.terminal char :: ·) := by
  induction productions generalizing form with
  | nil => rfl
  | cons production rest ih =>
    rw [derive, derive, rewriteLeftmost]
    cases rewriteLeftmost production form with
    | none => rfl
    | some next => exact ih

theorem derive_terminals (word : List Char) :
    derive productions (terminals word ++ form) =
      (derive productions form).map (terminals word ++ ·) := by
  induction word with
  | nil => simp
  | cons char word ih =>
    rw [terminals_cons, List.cons_append, derive_terminal, ih, Option.map_map]
    rfl

theorem derive_nonterminal (production : Production) :
    derive (production :: rest) (.nonterminal production.lhs :: form) =
      derive rest (production.rhs ++ form) := by
  rw [derive, rewriteLeftmost, if_pos rfl, Option.bind_some]

theorem rewriteLeftmost_append_right {production : Production}
    (rewritten : rewriteLeftmost production form = some form') :
    rewriteLeftmost production (form ++ after) = some (form' ++ after) := by
  induction form generalizing form' with
  | nil => cases rewritten
  | cons symbol rest ih =>
    cases symbol with
    | terminal char =>
      obtain ⟨next, there, rfl⟩ := Option.map_eq_some_iff.1 rewritten
      rw [List.cons_append, rewriteLeftmost, ih there]
      rfl
    | nonterminal name =>
      rw [rewriteLeftmost] at rewritten
      split at rewritten
      · next same =>
        cases rewritten
        rw [List.cons_append, rewriteLeftmost, if_pos same, List.append_assoc]
      · cases rewritten

/-- A derivation from a form goes through with anything after the form. -/
theorem derive_append_right (derived : derive productions form = some form') :
    derive productions (form ++ after) = some (form' ++ after) := by
  induction productions generalizing form with
  | nil =>
    cases derived
    rfl
  | cons production rest ih =>
    obtain ⟨next, rewritten, derived⟩ := Option.bind_eq_some_iff.1 derived
    rw [derive, rewriteLeftmost_append_right rewritten]
    exact ih derived

/-- A word is derived from nothing only if it is empty, and by no production. -/
theorem derive_nil (derived : derive productions [] = some (terminals word)) :
    productions = [] ∧ word = [] := by
  cases productions with
  | nil => exact ⟨rfl, terminals_injective (Option.some.inj derived).symm⟩
  | cons production rest => cases derived

/-- A word derived from a form that begins with a terminal begins with that terminal. -/
theorem derive_terminal_cons {char : Char}
    (derived : derive productions (.terminal char :: form) = some (terminals word)) :
    ∃ rest, word = char :: rest ∧ derive productions form = some (terminals rest) := by
  rw [derive_terminal] at derived
  obtain ⟨stop, derived, same⟩ := Option.map_eq_some_iff.1 derived
  cases word with
  | nil => cases same
  | cons first rest =>
    cases same
    exact ⟨rest, rfl, derived⟩

/-- A derivation from a form that begins with a nonterminal begins with one of its productions. -/
theorem derive_nonterminal_cons {name : Nonterminal}
    (derived : derive productions (.nonterminal name :: form) = some (terminals word)) :
    ∃ production rest, productions = production :: rest ∧ production.lhs = name ∧
      derive rest (production.rhs ++ form) = some (terminals word) := by
  cases productions with
  | nil =>
    cases word with
    | nil => cases derived
    | cons char word => cases derived
  | cons production rest =>
    rw [derive, rewriteLeftmost] at derived
    split at derived
    · next same => exact ⟨production, rest, rfl, same, derived⟩
    · cases derived

end Derive

/-! ## What a form yields -/

section Yields

variable {form form' : List Symbol} {word left right : List Char}

theorem Yields.append (hleft : Yields form left) (hright : Yields form' right) :
    Yields (form ++ form') (left ++ right) := by
  obtain ⟨first, derived⟩ := hleft
  obtain ⟨second, derived'⟩ := hright
  refine ⟨first ++ second, ?_⟩
  rw [derive_append, derive_append_right derived, Option.bind_some, derive_terminals, derived',
    terminals_append]
  rfl

/-- A word that two forms yield together falls into two words that they yield. -/
theorem Yields.of_append (yields : Yields (form ++ form') word) :
    ∃ left right, word = left ++ right ∧ Yields form left ∧ Yields form' right := by
  obtain ⟨productions, derived⟩ := yields
  -- A production replaces the first symbol that is no terminal: so the induction is on the
  -- productions, and inside on the first form, down to that symbol.
  induction productions generalizing form word with
  | nil =>
    obtain ⟨left, right, rfl, same, same'⟩ :=
      List.map_eq_append_iff.1 (Option.some.inj derived).symm
    exact ⟨left, right, rfl, ⟨[], congrArg some same.symm⟩, ⟨[], congrArg some same'.symm⟩⟩
  | cons production rest ih =>
    induction form generalizing word with
    | nil => exact ⟨[], word, rfl, ⟨[], rfl⟩, ⟨_, derived⟩⟩
    | cons symbol others ihForm =>
      rw [List.cons_append] at derived
      cases symbol with
      | terminal char =>
        obtain ⟨after, rfl, derivedAfter⟩ := derive_terminal_cons derived
        obtain ⟨left, right, rfl, ⟨first, hleft⟩, hright⟩ := ihForm derivedAfter
        refine ⟨char :: left, right, rfl, ⟨first, ?_⟩, hright⟩
        rw [derive_terminal, hleft]
        rfl
      | nonterminal name =>
        obtain ⟨chosen, rest', same, rfl, derived⟩ := derive_nonterminal_cons derived
        cases same
        rw [← List.append_assoc] at derived
        obtain ⟨left, right, rfl, ⟨first, hleft⟩, hright⟩ := ih derived
        exact ⟨left, right, rfl, ⟨production :: first, by rw [derive_nonterminal, hleft]⟩, hright⟩

/-- Rewriting anywhere first does not yield anything new: the leftmost nonterminals can be rewritten
first instead. -/
theorem yields_of_rewrites (rewrites : Rewrites form form') (yields : Yields form' word) :
    Yields form word := by
  cases rewrites with
  | intro before production after =>
    obtain ⟨left, right, rfl, hbefore, productions, derived⟩ := yields.of_append
    exact hbefore.append ⟨production :: productions, by rw [derive_nonterminal, derived]⟩

theorem rewrites_of_rewriteLeftmost {production : Production}
    (rewritten : rewriteLeftmost production form = some form') : Rewrites form form' := by
  induction form generalizing form' with
  | nil => cases rewritten
  | cons symbol rest ih =>
    cases symbol with
    | terminal char =>
      obtain ⟨next, there, rfl⟩ := Option.map_eq_some_iff.1 rewritten
      cases ih there with
      | intro before production after => exact .intro (.terminal char :: before) production after
    | nonterminal name =>
      rw [rewriteLeftmost] at rewritten
      split at rewritten
      · next same =>
        subst same
        cases rewritten
        exact .intro [] production rest
      · cases rewritten

theorem reflTransGen_of_derive {productions : List Production}
    (derived : derive productions form = some form') :
    Relation.ReflTransGen Rewrites form form' := by
  induction productions generalizing form with
  | nil =>
    cases derived
    exact .refl
  | cons production rest ih =>
    obtain ⟨next, rewritten, derived⟩ := Option.bind_eq_some_iff.1 derived
    exact .head (rewrites_of_rewriteLeftmost rewritten) (ih derived)

/-- Whatever can be derived in any order has a leftmost derivation. -/
theorem yields_of_reflTransGen (rewrites : Relation.ReflTransGen Rewrites form (terminals word)) :
    Yields form word := by
  induction rewrites using Relation.ReflTransGen.head_induction_on with
  | refl => exact ⟨[], rfl⟩
  | head step _ ih => exact yields_of_rewrites step ih

/-- The sentences are the words with a leftmost derivation. -/
theorem sentence_iff_yields : Sentence word ↔ Yields [.nonterminal .s] word :=
  ⟨yields_of_reflTransGen, fun ⟨_, derived⟩ => reflTransGen_of_derive derived⟩

end Yields

end Primer.Grammar
