import TimedInference.Circuit.Basic
import TimedInference.Diagram.Measure

/-!
# Circuits of diagrams

Each relevant atom becomes the diagram of the choices under which it holds. Atoms are taken in
dependency order, so the diagrams of the atoms in a body are known when the body is reached. A query
for an atom that is not possible is the diagram that is always false.
-/

namespace TimedInference

open Diagram

namespace GroundProgram

variable {α : Type}

/-- The diagram of a literal, from the diagrams of earlier atoms. -/
def literalDiagram (known : Array Nat) (l : GroundLiteral) : StateM Store Nat :=
  let f := known.getD l.atom falseRef
  if l.positive then pure f else Store.negate f

/-- The diagram of a body, from the diagrams of earlier atoms. -/
def bodyDiagram (known : Array Nat) (body : List GroundLiteral) : StateM Store Nat :=
  body.foldlM (fun f l => do Store.conjoin f (← literalDiagram known l)) trueRef

/-- The diagram of an atom, from the diagrams of earlier atoms. -/
def atomDiagram (known : Array Nat) (d : AtomDefinition) : StateM Store Nat := do
  let start := if d.certain then trueRef else falseRef
  let chosen ← d.choices.foldlM (fun f choice => do Store.disjoin f (← Store.ofVar choice)) start
  d.bodies.foldlM (fun f body => do Store.disjoin f (← bodyDiagram known body)) chosen

/-- The diagrams of all atoms. -/
def atomDiagrams (g : GroundProgram α) : StateM Store (Array Nat) :=
  g.atoms.foldlM (fun known d => do return known.push (← atomDiagram known d)) #[]

end GroundProgram

/-- A ground program compiled to diagrams: one for each query. -/
structure DiagramCircuit (α : Type) where
  store : Store
  queries : List (Term × Nat)
  named : Std.ExtTreeMap String Nat
  baseline : Weights α

namespace DiagramCircuit

variable {α : Type}

/-- Compiles a ground program. -/
def compile (g : GroundProgram α) : DiagramCircuit α :=
  let (known, store) := g.atomDiagrams.run Store.empty
  { store
    queries := g.queries.map fun q => (q.1, q.2.elim falseRef fun i => known.getD i falseRef)
    named := g.named
    baseline := ⟨g.baseline.toArray⟩ }

variable [Probability α]

/-- The probability of each query under weights. -/
def evaluate (c : DiagramCircuit α) (w : Weights α) : Except EngineError (Evaluation α) := do
  w.check c.baseline.size
  let known := c.store.probabilities w.values
  return Std.ExtTreeMap.ofList (c.queries.map fun q => (q.1, known.getD q.2 0))

/-- The circuit, measured by the number of nodes made. -/
def toCircuit (c : DiagramCircuit α) : Circuit α :=
  ⟨c.named, c.baseline, c.store.size, c.evaluate⟩

end DiagramCircuit

end TimedInference
