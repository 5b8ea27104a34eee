import Std.Data.HashMap
import Std.Data.HashSet
import TimedInference.Diagram.Meaning
import TimedInference.Number.Probability

/-!
# Probability and size of a diagram

Both follow from the parts of a decision having smaller numbers than it. The probabilities of all nodes
of a store are computed upward; that of one diagram is computed downward from it, each shared decision
once. The decisions of one diagram are counted downward from it.
-/

namespace TimedInference.Diagram.Store

variable {α : Type} [Probability α]

/-- The probability of a decision from the weight of its variable and the probabilities of its parts. -/
def weigh (weight low high : α) : α := weight * high + (1 - weight) * low

/-- The probability of each node when each variable is true independently with its weight. -/
def probabilities (s : Store) (weights : Array α) : Array α :=
  s.upward 0 1 fun n => weigh (weights.getD n.var 0)

/-- The probability of a diagram, with the probabilities of decisions that were met before. The bound
is on the depth of the diagram, which is less than the reference. -/
def probabilityWithin (s : Store) (weights : Array α) : Nat → Nat → StateM (Std.HashMap Nat α) α
  | 0, _ => pure 0
  | fuel + 1, f => do
    if f = falseRef then return 0
    if f = trueRef then return 1
    let met ← get
    if let some p := met[f]? then return p
    let n := s.node? f |>.getD default
    let high ← probabilityWithin s weights fuel n.high
    let low ← probabilityWithin s weights fuel n.low
    let p := weigh (weights.getD n.var 0) low high
    modify fun met => met.insert f p
    return p

/-- The probability of a diagram when each variable is true independently with its weight. -/
def probability (s : Store) (weights : Array α) (f : Nat) : α :=
  ((probabilityWithin s weights (f + 1) f).run ∅).1

/-- The number of decisions among the references below a bound that are marked or part of a marked
one. -/
def countMarked (s : Store) : Nat → Std.HashSet Nat → Nat
  | 0, _ => 0
  | f + 1, marked =>
    match if marked.contains f then s.node? f else none with
    | some n => countMarked s f ((marked.insert n.low).insert n.high) + 1
    | none => countMarked s f marked

/-- The number of decisions that a diagram consists of. -/
def diagramSize (s : Store) (f : Nat) : Nat := s.countMarked (f + 1) (Std.HashSet.ofList [f])

end TimedInference.Diagram.Store
