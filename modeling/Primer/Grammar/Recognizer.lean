import Primer.Grammar.Production

/-!
# Recognizing sentences by one character of lookahead

There is one reader for each nonterminal. A reader looks at the next character to choose a
production, consumes what the production asks for, and lists the productions it applied in order,
which is the order of a leftmost derivation. Reading can stop short in one place only, at the `d`
that closes a framed body; all that was read up to there stays read.

A `Recognizer` keeps its place between parses, so that a second parse reads a sentence from what the
first one left.
-/

namespace Primer.Grammar

/-- What came of reading a nonterminal. -/
structure Reading where
  /-- The productions applied, in order. -/
  applied : List Production
  /-- What was not consumed. -/
  rest : List Char
  /-- The terminal that was due at the start of `rest`, if reading stopped short. -/
  missing : Option Char := none
deriving Repr, DecidableEq

namespace Reading

/-- Note a production that was chosen before the reading. -/
def under (production : Production) (reading : Reading) : Reading :=
  { reading with applied := production :: reading.applied }

/-- Go on with what is left, unless reading has stopped short. -/
def andThen (first : Reading) (next : List Char → Reading) : Reading :=
  match first.missing with
  | some _ => first
  | none =>
    let second := next first.rest
    { second with applied := first.applied ++ second.applied }

end Reading

/-- Consume a terminal that has to come next. -/
def readTerminal (due : Char) : List Char → Reading
  | [] => ⟨[], [], some due⟩
  | next :: rest => if next = due then ⟨[], rest, none⟩ else ⟨[], next :: rest, some due⟩

/-- Consume a terminal if it comes next. One production stands for either case. -/
def readOptional (char : Char) (present absent : Production) : List Char → Reading
  | [] => ⟨[absent], [], none⟩
  | next :: rest => if next = char then ⟨[present], rest, none⟩ else ⟨[absent], next :: rest, none⟩

/-- The reader for `C`. -/
def readC : List Char → Reading := readOptional 'c' .final .noFinal

/-- The reader for `Q`. -/
def readQ : List Char → Reading := readOptional 'q' .closed .notClosed

/-- The reader for `B`: as many `b` as there are. -/
def readB : List Char → Reading
  | [] => ⟨[.noMore], [], none⟩
  | next :: rest => if next = 'b' then (readB rest).under .more else ⟨[.noMore], next :: rest, none⟩

/-- The reader for a body between `a` and `d`, after the `a`. -/
def readFramed (input : List Char) : Reading :=
  (((readB input).andThen readC).andThen (readTerminal 'd')).under .framed

/-- The reader for a body without `a` and `d`. -/
def readBare (input : List Char) : Reading := ((readB input).andThen readQ).under .bare

/-- The reader for `A`. -/
def readA : List Char → Reading
  | [] => readBare []
  | next :: rest => if next = 'a' then readFramed rest else readBare (next :: rest)

/-- The reader for `S`. -/
def readS (input : List Char) : Reading :=
  ((readA input).andThen readC).under .sentence

/-! ## A reader leaves an end of its input -/

theorem suffix_readB (input : List Char) : (readB input).rest <:+ input := by
  induction input with
  | nil => simp [readB]
  | cons next rest ih =>
    simp only [readB]
    split
    · exact ih.trans (List.suffix_cons next rest)
    · exact List.suffix_rfl

theorem suffix_readOptional (char : Char) (present absent : Production) (input : List Char) :
    (readOptional char present absent input).rest <:+ input := by
  cases input with
  | nil => simp [readOptional]
  | cons next rest =>
    simp only [readOptional]
    split
    · exact List.suffix_cons next rest
    · exact List.suffix_rfl

theorem suffix_readTerminal (due : Char) (input : List Char) :
    (readTerminal due input).rest <:+ input := by
  cases input with
  | nil => simp [readTerminal]
  | cons next rest =>
    simp only [readTerminal]
    split
    · exact List.suffix_cons next rest
    · exact List.suffix_rfl

theorem Reading.suffix_andThen {first : Reading} {next : List Char → Reading} {input : List Char}
    (before : first.rest <:+ input) (after : ∀ rest, (next rest).rest <:+ rest) :
    (first.andThen next).rest <:+ input := by
  unfold Reading.andThen
  split
  · exact before
  · exact (after first.rest).trans before

theorem suffix_readA (input : List Char) : (readA input).rest <:+ input := by
  have bare (input : List Char) : (readBare input).rest <:+ input :=
    Reading.suffix_andThen (suffix_readB input) (suffix_readOptional _ _ _)
  cases input with
  | nil => exact bare []
  | cons next rest =>
    simp only [readA]
    split
    · refine List.IsSuffix.trans ?_ (List.suffix_cons next rest)
      exact Reading.suffix_andThen
        (Reading.suffix_andThen (suffix_readB rest) (suffix_readOptional _ _ _))
        (suffix_readTerminal 'd')
    · exact bare (next :: rest)

/-- What is left after a sentence is an end of the input. -/
theorem suffix_readS (input : List Char) : (readS input).rest <:+ input :=
  Reading.suffix_andThen (suffix_readA input) (suffix_readOptional _ _ _)

/-! ## Recognizers -/

/-- A terminal that was due and did not come. -/
structure Unexpected where
  expected : Char
  /-- What came instead; nothing at the end of the input. -/
  found : Option Char
  position : Nat
deriving Repr, DecidableEq

/-- The text shown for a terminal that did not come. -/
def Unexpected.message (unexpected : Unexpected) : String :=
  "Expected '" ++ String.singleton unexpected.expected ++ "' at position " ++
    toString unexpected.position ++ ", found " ++
    match unexpected.found with
    | some char => "'" ++ String.singleton char ++ "'"
    | none => "end of input"

/-- A place in an input and the productions applied on the way there. -/
structure Recognizer where
  unread : List Char
  /-- How many characters have been consumed. -/
  position : Nat := 0
  /-- The productions applied by all parses so far, in order. -/
  derivation : List Production := []
deriving Repr, DecidableEq

namespace Recognizer

/-- A recognizer at the start of an input. -/
def start (input : List Char) : Recognizer := { unread := input }

/-- Read one sentence: whether nothing is left after it, or the terminal that did not come. -/
def parse (recognizer : Recognizer) : Except Unexpected Bool × Recognizer :=
  let reading := readS recognizer.unread
  let position := recognizer.position + (recognizer.unread.length - reading.rest.length)
  let after := {
    unread := reading.rest
    position
    derivation := recognizer.derivation ++ reading.applied }
  match reading.missing with
  | some expected => (.error ⟨expected, reading.rest.head?, position⟩, after)
  | none => (.ok reading.rest.isEmpty, after)

end Recognizer

/-- Whether a text is a sentence of the grammar, or where it stops being the start of one. -/
def recognize (input : String) : Except Unexpected Bool :=
  (Recognizer.start input.toList).parse.1

end Primer.Grammar
