import TimedInference.Engine.Error
import TimedInference.Grounding.Join

/-!
# Possible atoms

An atom is possible when it can be derived with every fact taken to be true and every negated literal
ignored. The possible atoms are found in rounds: each adds all heads of rule instances whose positive
literals are possible, until a round adds nothing or there are more atoms than a limit allows.
-/

namespace TimedInference

/-- The heads of a rule's instances whose positive literals are indexed. -/
def Rule.consequences (index : AtomIndex) (r : Rule) : List Term :=
  (index.join r.positives).map fun b => r.head.substitute b

/-- The atoms with those that one application of the rules to them gives. -/
def Rule.round (rules : List Rule) (atoms : TermSet) : TermSet :=
  let index := AtomIndex.ofList atoms.toList
  atoms.insertMany (rules.flatMap (consequences index))

/-- The least set that holds the given atoms and is closed under the rules with their negated literals
ignored. Only a round that adds atoms is held to the limit. -/
def Rule.closure (rules : List Rule) (limit : Nat) (atoms : TermSet) : Except EngineError TermSet :=
  let next := round rules atoms
  if next.size ≤ atoms.size then .ok atoms
  else if limit < next.size then .error (.tooManyAtoms limit)
  else closure rules limit next
termination_by limit - atoms.size
decreasing_by
  change limit - next.size < limit - atoms.size
  omega

/-- The possible atoms of a program. -/
def Program.possible {α : Type} (p : Program α) (limit : Nat) : Except EngineError TermSet :=
  Rule.closure p.rules limit (Std.ExtTreeSet.ofList p.factHeads)

end TimedInference
