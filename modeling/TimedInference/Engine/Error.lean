import TimedInference.Program.Basic
import TimedInference.Syntax.Construct
import TimedInference.Text.Position

/-!
# Errors of inference

Why a program text cannot be read, grounded or compiled, and why a circuit cannot be evaluated.
-/

namespace TimedInference

/-- What is wrong at a place of a program text. -/
inductive SyntaxProblem where
  /-- None of these constructs could be read. -/
  | expected (constructs : List Syntax.Construct)
  /-- The head of a clause has no functor. -/
  | headNotAtom (found : Term)
  /-- An integer exceeds the greatest timestamp. -/
  | integerTooLarge
  /-- An integer is below the least timestamp. -/
  | integerTooSmall
  deriving DecidableEq

/-- An error of inference. -/
inductive EngineError where
  /-- The program text is wrong at a position. -/
  | malformed (position : Text.Position) (problem : SyntaxProblem)
  /-- A variable of a rule occurs in no positive literal of the body, but must. -/
  | unboundVariable (name : String) (rule : Rule)
  /-- A fact has a variable. -/
  | factNotGround (clause : String)
  /-- An atom depends on itself. -/
  | cyclic (atom : Term)
  /-- A number outside of the unit interval stands for a probability. -/
  | improbable (value : String) (subject : String)
  /-- More atoms are possible than the limit allows. -/
  | tooManyAtoms (limit : Nat)
  /-- There are too many choices to enumerate all worlds. -/
  | tooManyChoices (count max : Nat)
  /-- A weight vector has the wrong length. -/
  | weightCount (expected actual : Nat)
  /-- A weight vector has no such node. -/
  | unknownNode (node : Nat)
  deriving DecidableEq

namespace SyntaxProblem

/-- The message of a problem, without its position. -/
def message : SyntaxProblem → String
  | expected constructs => Syntax.Construct.expected constructs
  | headNotAtom found => "clause head must be an atom, found " ++ found.text
  | integerTooLarge => "number too large to fit in target type"
  | integerTooSmall => "number too small to fit in target type"

end SyntaxProblem

namespace EngineError

/-- The message of an error. -/
def message : EngineError → String
  | malformed p problem =>
    "parse error at " ++ toString p.line ++ ":" ++ toString p.column ++ ": " ++ problem.message
  | unboundVariable name rule => "unsafe variable " ++ name ++ " in clause: " ++ rule.text
  | factNotGround clause => "fact is not ground: " ++ clause
  | cyclic atom => "cyclic dependency through " ++ atom.text
  | improbable value subject => "invalid probability " ++ value ++ " for " ++ subject
  | tooManyAtoms limit => "grounding exceeded " ++ toString limit ++ " atoms"
  | tooManyChoices count max =>
    "too many probabilistic facts for enumeration: " ++ toString count ++ " (max " ++ toString max ++
      ")"
  | weightCount expected actual =>
    "weight vector has " ++ toString actual ++ " entries, circuit expects " ++ toString expected
  | unknownNode node => "unknown node " ++ toString node

end EngineError

end TimedInference
