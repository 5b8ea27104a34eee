import TimedInference.Engine.Error
import TimedInference.Syntax.Grammar
import TimedInference.Time

/-!
# From text to program

Checks the statements of a program text, from left to right, and turns them into clauses and queries:
each anonymous variable gets a name of its own, integers must be timestamps, the head of a clause must
be an atom and a probability must lie between zero and one. `Program.ofText` reads a whole text.
-/

namespace TimedInference

namespace Syntax

/-- What is wrong with a written program. -/
inductive Fault where
  /-- A problem at a place of the text. -/
  | at (offset : Nat) (problem : SyntaxProblem)
  /-- The probability of a fact exceeds one. -/
  | improbable (value : String) (head : Term)

/-- The error of a fault in a text. -/
def Fault.error (text : List Char) : Fault → EngineError
  | .at offset problem => .malformed (Text.positionAt text offset) problem
  | .improbable value head => .improbable value head.text

/-- A check that counts the anonymous variables met so far and may find a fault. -/
abbrev Resolving := StateT Nat (Except Fault)

/-- A name for the next anonymous variable. -/
def freshName : Resolving String := do
  modify (· + 1)
  return "_G" ++ toString (← get)

/-- The integer of digits and a sign, if it is a timestamp. -/
def resolveInteger (offset : Nat) (negative : Bool) (digits : List Char) : Except Fault Int :=
  let magnitude : Int := Decimal.ofDigits digits
  if negative then
    if -magnitude < Time.least then .error (.at offset .integerTooSmall) else .ok (-magnitude)
  else
    if Time.greatest < magnitude then .error (.at offset .integerTooLarge) else .ok magnitude

mutual

/-- The term that a written term stands for. -/
def WrittenTerm.resolve : WrittenTerm → Resolving Term
  | .var name => do if name = "_" then return .var (← freshName) else return .var name
  | .integer offset negative digits => do return .int (← resolveInteger offset negative digits)
  | .compound functor args => do return .compound functor (← resolveAll args)

/-- The terms that written terms stand for. -/
def WrittenTerm.resolveAll : List WrittenTerm → Resolving (List Term)
  | [] => pure []
  | t :: ts => do return (← t.resolve) :: (← resolveAll ts)

end

mutual

/-- The formula with its written atoms resolved, from left to right. -/
def Formula.resolve : Formula WrittenTerm → Resolving (Formula Term)
  | .holds atom => do return .holds (← atom.resolve)
  | .fails atom => do return .fails (← atom.resolve)
  | .every parts => do return .every (← resolveAll parts)
  | .some parts => do return .some (← resolveAll parts)

/-- The formulas with their written atoms resolved, from left to right. -/
def Formula.resolveAll : List (Formula WrittenTerm) → Resolving (List (Formula Term))
  | [] => pure []
  | f :: fs => do return (← f.resolve) :: (← resolveAll fs)

end

/-- The head of a clause, which must be an atom. -/
def WrittenHead.resolve (h : WrittenHead) : Resolving Term := do
  let t ← h.term.resolve
  if t.functor?.isNone then throw (.at h.offset (.headNotAtom t))
  return t

/-- The clauses and queries of a statement. -/
def Statement.resolve {α : Type} [Probability α] : Statement → Resolving (Program α)
  | .query t => do return ⟨[], [← t.resolve]⟩
  | .chance written h => do
    let head ← h.resolve
    match (Decimal.read? written).map Probability.ofDecimal with
    | some (p : α) =>
      if Probability.inUnit p then return ⟨[.chance p head], []⟩
      else throw (.improbable (String.ofList written) head)
    | none => throw (.improbable (String.ofList written) head)
  | .rule h body => do
    let head ← h.resolve
    let body ← body.resolve
    return ⟨body.alternatives.map fun literals => .rule ⟨head, literals⟩, []⟩
  | .fact h => do return ⟨[.fact (← h.resolve)], []⟩

/-- The clauses and queries of statements. -/
def resolveStatements {α : Type} [Probability α] : List Statement → Resolving (Program α)
  | [] => pure Program.empty
  | s :: ss => do return (← s.resolve) ++ (← resolveStatements ss)

end Syntax

/-- The program that a text writes. -/
def Program.ofText {α : Type} [Probability α] (text : String) : Except EngineError (Program α) :=
  let chars := text.toList
  match Syntax.readStatements chars with
  | .error a => .error (.malformed (Text.positionAt chars a.offset) (.expected a.tried))
  | .ok statements =>
    match (Syntax.resolveStatements statements).run 0 with
    | .error fault => .error (fault.error chars)
    | .ok (program, _) => .ok program

end TimedInference
