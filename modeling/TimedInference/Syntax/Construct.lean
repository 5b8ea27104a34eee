/-!
# Constructs of the program language

The named parts of a program text. When a text cannot be read, the message lists the constructs that
were looked for at the furthest place that was reached.
-/

namespace TimedInference.Syntax

/-- A named part of a program text. -/
inductive Construct where
  | endOfInput
  | program
  | query
  | chance
  | rule
  | fact
  | disjunction
  | conjunction
  | negation
  | group
  | term
  | compound
  | functor
  | var
  | integer
  | probability
  deriving DecidableEq

namespace Construct

/-- All constructs, in the order in which messages list them. -/
def all : List Construct :=
  [endOfInput, program, query, chance, rule, fact, disjunction, conjunction, negation, group, term,
    compound, functor, var, integer, probability]

/-- The name of a construct in messages. -/
def name : Construct → String
  | endOfInput => "EOI"
  | program => "program"
  | query => "query"
  | chance => "prob_fact"
  | rule => "rule"
  | fact => "fact"
  | disjunction => "disjunction"
  | conjunction => "conjunction"
  | negation => "negation"
  | group => "group"
  | term => "term"
  | compound => "compound"
  | functor => "functor"
  | var => "variable"
  | integer => "integer"
  | probability => "probability"

/-- Names joined into one phrase: `a`, `a or b`, `a, b, or c`. -/
def phrase : List String → String
  | [] => ""
  | [a] => a
  | [a, b] => a ++ " or " ++ b
  | names => String.intercalate ", " names.dropLast ++ ", or " ++ names.getLastD ""

/-- The message that one of some constructs was expected. -/
def expected (looked : List Construct) : String :=
  "expected " ++ phrase ((all.filter (looked.contains ·)).map name)

end Construct

end TimedInference.Syntax
