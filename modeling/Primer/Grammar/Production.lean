/-!
# The grammar

The grammar that the recognizer decides:

    S -> A C
    C -> c | ε
    A -> a B C d | B Q
    B -> b B | ε
    Q -> q | ε

Each rule is a `Production` with a left and a right side; its printed form is read off the two
sides.
-/

namespace Primer.Grammar

/-- The nonterminals. -/
inductive Nonterminal where
  | s
  | a
  | b
  | c
  | q
deriving Repr, DecidableEq

/-- How a nonterminal is written. -/
def Nonterminal.text : Nonterminal → String
  | .s => "S"
  | .a => "A"
  | .b => "B"
  | .c => "C"
  | .q => "Q"

/-- What the right side of a production is made of. -/
inductive Symbol where
  | terminal (char : Char)
  | nonterminal (name : Nonterminal)
deriving Repr, DecidableEq

/-- How a symbol is written. -/
def Symbol.text : Symbol → String
  | .terminal char => String.singleton char
  | .nonterminal name => name.text

/-- The productions. -/
inductive Production where
  /-- The whole sentence. -/
  | sentence
  /-- A final `c`. -/
  | final
  /-- No final `c`. -/
  | noFinal
  /-- A body that stands between `a` and `d`. -/
  | framed
  /-- A body without `a` and `d`. -/
  | bare
  /-- One more `b`. -/
  | more
  /-- No more `b`. -/
  | noMore
  /-- A closing `q`. -/
  | closed
  /-- No closing `q`. -/
  | notClosed
deriving Repr, DecidableEq

namespace Production

/-- The nonterminal that a production is for. -/
def lhs : Production → Nonterminal
  | sentence => .s
  | final | noFinal => .c
  | framed | bare => .a
  | more | noMore => .b
  | closed | notClosed => .q

/-- What the nonterminal may become. -/
def rhs : Production → List Symbol
  | sentence => [.nonterminal .a, .nonterminal .c]
  | final => [.terminal 'c']
  | framed => [.terminal 'a', .nonterminal .b, .nonterminal .c, .terminal 'd']
  | bare => [.nonterminal .b, .nonterminal .q]
  | more => [.terminal 'b', .nonterminal .b]
  | closed => [.terminal 'q']
  | noFinal | noMore | notClosed => []

/-- The production as a rule, with `ε` for an empty right side. -/
def text (production : Production) : String :=
  production.lhs.text ++ " -> " ++
    if production.rhs.isEmpty then "ε" else " ".intercalate (production.rhs.map Symbol.text)

end Production

end Primer.Grammar
