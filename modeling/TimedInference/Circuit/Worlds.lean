import TimedInference.Circuit.Basic

/-!
# Circuits of worlds

A world says which choices hold. It is a number: the choice with number `i` holds when bit `i` of the
world is set. The probability of a query is the sum of the masses of the worlds in which its atom
holds; worlds without mass are passed over. There are twice as many worlds for each further choice, so
the number of choices is limited.
-/

namespace TimedInference

namespace AtomDefinition

/-- Whether an atom holds in a world, from whether earlier atoms do. -/
def holds (d : AtomDefinition) (world : Nat) (known : Array Bool) : Bool :=
  d.certain || d.choices.any world.testBit ||
    d.bodies.any fun body => body.all fun l => known.getD l.atom false == l.positive

end AtomDefinition

namespace GroundProgram

variable {α : Type}

/-- Whether each atom holds in a world. -/
def truthValues (g : GroundProgram α) (world : Nat) : Array Bool :=
  g.atoms.foldl (fun known d => known.push (d.holds world known)) #[]

end GroundProgram

namespace Weights

variable {α : Type} [Probability α]

/-- The mass of a world: the product, over the choices, of the weight of a choice that holds and of
what remains of the weight of one that does not. -/
def mass (w : Weights α) (world : Nat) : α :=
  w.values.toList.zipIdx.foldl (fun m v => m * if world.testBit v.2 then v.1 else 1 - v.1) 1

end Weights

/-- A ground program whose worlds are enumerated. -/
structure WorldCircuit (α : Type) where
  program : GroundProgram α
  named : Std.ExtTreeMap String Nat

namespace WorldCircuit

variable {α : Type}

/-- The greatest number of choices for which worlds are enumerated, whatever limit is asked for. -/
def maxChoices : Nat := 63

/-- Prepares a ground program, unless it has too many choices. -/
def compile (g : GroundProgram α) (limit : Nat) : Except EngineError (WorldCircuit α) :=
  let max := min limit maxChoices
  if max < g.choices.length then .error (.tooManyChoices g.choices.length max)
  else .ok ⟨g, g.named⟩

variable [Probability α]

/-- The totals of the queries with the mass of one world added where the query's atom holds. -/
def addWorld (g : GroundProgram α) (w : Weights α) (totals : List α) (world : Nat) : List α :=
  let mass := w.mass world
  if Probability.isZero mass then totals
  else
    let known := g.truthValues world
    totals.zipWith (fun total q => if q.2.any (known.getD · false) then total + mass else total)
      g.queries

/-- The sum, for each query, of the masses of the worlds in which its atom holds. -/
def totals (g : GroundProgram α) (w : Weights α) : List α :=
  Nat.fold (Nat.pow 2 g.choices.length) (fun world _ totals => addWorld g w totals world)
    (g.queries.map fun _ => 0)

/-- The probability of each query under weights. -/
def evaluate (c : WorldCircuit α) (w : Weights α) : Except EngineError (Evaluation α) := do
  w.check c.program.choices.length
  return Std.ExtTreeMap.ofList ((c.program.queries.map (·.1)).zip (totals c.program w))

/-- The circuit, measured by the number of atoms. -/
def toCircuit (c : WorldCircuit α) : Circuit α :=
  ⟨c.named, ⟨c.program.baseline.toArray⟩, c.program.atoms.length, c.evaluate⟩

end WorldCircuit

end TimedInference
