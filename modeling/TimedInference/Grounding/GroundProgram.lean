import TimedInference.Grounding.Order
import TimedInference.Grounding.Possible
import TimedInference.Grounding.Relevance
import TimedInference.Log.Logged
import TimedInference.Program.Safety

/-!
# Ground programs

What a program says about its queries, without variables: the choices that decide, independently of
each other, which probabilistic facts hold, and the relevant atoms with their definitions, each after
the atoms it depends on. Atoms refer to each other and to choices by number.
-/

namespace TimedInference

/-- An independent choice: whether one declaration of a probabilistic fact holds. -/
structure Choice (α : Type) where
  atom : Term
  probability : α
  deriving DecidableEq

/-- A literal that refers to an earlier atom by its number. -/
structure GroundLiteral where
  atom : Nat
  positive : Bool
  deriving DecidableEq

/-- The definition of a relevant atom: it holds when it is certain, when one of its choices holds, or
when all literals of one of its bodies do. -/
structure AtomDefinition where
  atom : Term
  certain : Bool
  choices : List Nat
  bodies : List (List GroundLiteral)
  deriving DecidableEq

/-- The relevant part of a program without variables. A query comes with the number of its atom, if
that atom is possible. -/
structure GroundProgram (α : Type) where
  choices : List (Choice α)
  atoms : List AtomDefinition
  queries : List (Term × Option Nat)
  deriving DecidableEq

namespace GroundProgram

variable {α : Type}

/-- The number of the choice that an atom's text names: the last one that declares the atom. -/
def named (g : GroundProgram α) : Std.ExtTreeMap String Nat :=
  (g.choices.zipIdx).foldl (fun m c => m.insert c.1.atom.text c.2) ∅

/-- The probabilities of the choices. -/
def baseline (g : GroundProgram α) : List α := g.choices.map (·.probability)

end GroundProgram

namespace Program

variable {α : Type}

/-- The declarations of relevant probabilistic facts, in source order. -/
def relevantChoices (p : Program α) (relevant : TermSet) : List (Choice α) :=
  (p.chances.filter fun c => relevant.contains c.1).map fun c => ⟨c.1, c.2⟩

/-- The numbers of the choices that declare each atom, in ascending order. -/
def choicesByAtom (choices : List (Choice α)) : TermMap (List Nat) :=
  choices.zipIdx.foldr (fun c m => m.insert c.1.atom (c.2 :: m.getD c.1.atom [])) ∅

/-- The position of each atom of a list. -/
def positions (order : List Term) : TermMap Nat :=
  order.zipIdx.foldr (fun a m => m.insert a.1 a.2) ∅

/-- The ground program over given possible atoms. -/
def groundOver (p : Program α) (possible : TermSet) : Except EngineError (GroundProgram α) := do
  let definitions := Definitions.ofRules p.rules possible
  let queried := p.queryAtoms possible
  let relevant := definitions.relevant possible queried
  let order ← definitions.order relevant
  let position := positions order
  let choices := p.relevantChoices relevant
  let chosen := choicesByAtom choices
  let certain : TermSet := Std.ExtTreeSet.ofList p.certainFacts
  return {
    choices
    atoms := order.map fun atom => {
      atom
      certain := certain.contains atom
      choices := chosen.getD atom []
      bodies := (definitions.bodies atom).map fun body =>
        body.map fun l => ⟨position.getD l.atom 0, l.positive⟩ }
    queries := queried.map fun q => (q, position[q]?) }

variable [Probability α]

/-- Grounds a program, keeping what its queries depend on. -/
def ground (p : Program α) (limit : Nat) : Logged EngineError (GroundProgram α) := do
  p.check
  let possible ← p.possible limit
  let g ← p.groundOver possible
  Logged.report (.grounded possible.size g.atoms.length g.choices.length)
  return g

end Program

end TimedInference
