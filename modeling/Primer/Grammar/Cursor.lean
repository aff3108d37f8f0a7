import Primer.Grammar.Recognizer

/-!
# Recognizing in place

A `Cursor` keeps its whole input, the position it has come to and the productions applied on the way
there. Its routines, one for each nonterminal, look at the character at the position and note the
production they choose; the position moves on only by consuming a character that was looked at. What
is before the position is never looked at again, so a cursor that has parsed before does what a
`Recognizer` does with the characters it has not read.
-/

namespace Primer.Grammar

/-- A position in an input and the productions applied on the way there. -/
structure Cursor where
  input : Array Char
  /-- How many characters have been consumed. -/
  position : Nat := 0
  /-- The productions applied by all parses so far, in order. -/
  derivation : Array Production := #[]
deriving Repr

namespace Cursor

/-- A cursor at the start of an input. -/
def start (input : List Char) : Cursor := { input := input.toArray }

/-- The character at the position, or nothing at the end of the input. -/
def peek (cursor : Cursor) : Option Char := cursor.input[cursor.position]?

/-- Move behind the next character. -/
def advance (cursor : Cursor) : Cursor := { cursor with position := cursor.position + 1 }

/-- Note a production that was chosen. -/
def note (production : Production) (cursor : Cursor) : Cursor :=
  { cursor with derivation := cursor.derivation.push production }

theorem position_lt_of_peek {cursor : Cursor} {char : Char} (next : cursor.peek = some char) :
    cursor.position < cursor.input.size :=
  (Array.getElem?_eq_some_iff.1 next).1

end Cursor

/-- Routines that move a cursor. What was done before a terminal did not come stays done. -/
abbrev Scan := EStateM Unexpected Cursor

/-- Apply a production. -/
def scanRule (production : Production) : Scan Unit := modify (Cursor.note production)

/-- Consume a terminal that has to come next. -/
def scanTerminal (due : Char) : Scan Unit := do
  let found := (← get).peek
  if found = some due then
    modify Cursor.advance
  else
    throw ⟨due, found, (← get).position⟩

/-- Consume a terminal if it comes next. One production stands for either case. -/
def scanOptional (char : Char) (present absent : Production) : Scan Unit := do
  if (← get).peek = some char then
    scanRule present
    scanTerminal char
  else
    scanRule absent

/-- The routine for `C`. -/
def scanC : Scan Unit := scanOptional 'c' .final .noFinal

/-- The routine for `Q`. -/
def scanQ : Scan Unit := scanOptional 'q' .closed .notClosed

/-- The routine for `B`: as long as there is a `b`, apply its production and consume it. -/
def scanB : Scan Unit := fun cursor =>
  if _ : cursor.peek = some 'b' then
    scanB (cursor.note .more).advance
  else
    .ok () (cursor.note .noMore)
termination_by cursor => cursor.input.size - cursor.position
decreasing_by
  rename_i more
  have := Cursor.position_lt_of_peek more
  simp only [Cursor.note, Cursor.advance]
  omega

/-- The routine for `A`. -/
def scanA : Scan Unit := do
  if (← get).peek = some 'a' then
    scanRule .framed
    scanTerminal 'a'
    scanB
    scanC
    scanTerminal 'd'
  else
    scanRule .bare
    scanB
    scanQ

/-- The routine for `S`. -/
def scanS : Scan Unit := do
  scanRule .sentence
  scanA
  scanC

namespace Cursor

/-- Read one sentence: whether it goes up to the end of the input, or the terminal that did not
come. -/
def parse (cursor : Cursor) : Except Unexpected Bool × Cursor :=
  match scanS cursor with
  | .ok () after => (.ok (after.position == after.input.size), after)
  | .error unexpected after => (.error unexpected, after)

/-- Parse a number of times: each result with the cursor it leaves. -/
def parseTimes (cursor : Cursor) : Nat → List (Except Unexpected Bool × Cursor)
  | 0 => []
  | count + 1 =>
    let first := cursor.parse
    first :: first.2.parseTimes count

end Cursor

end Primer.Grammar
