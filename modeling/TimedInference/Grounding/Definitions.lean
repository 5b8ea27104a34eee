import TimedInference.Grounding.Join
import TimedInference.Program.Basic

/-!
# Rule instances

The instances of a program's rules whose positive literals are possible, gathered by head. A negated
literal whose atom is not possible is true in any case and is left out of the instance; instances of
one head with equal bodies count once.
-/

namespace TimedInference

/-- The bodies of the rule instances of each atom, in the order of literal lists. -/
abbrev Definitions := TermMap (Std.ExtTreeSet (List Literal))

/-- The literal under bindings. -/
def Literal.substitute (b : Bindings) (l : Literal) : Literal := ⟨l.atom.substitute b, l.positive⟩

/-- The body of a rule instance without the negated literals that hold in any case. -/
def Rule.instanceBody (possible : TermSet) (b : Bindings) (r : Rule) : List Literal :=
  (r.body.map (Literal.substitute b)).filter fun l => l.positive || possible.contains l.atom

/-- The instances of a rule whose positive literals are indexed: their heads and bodies. -/
def Rule.instances (possible : TermSet) (index : AtomIndex) (r : Rule) :
    List (Term × List Literal) :=
  (index.join r.positives).map fun b => (r.head.substitute b, r.instanceBody possible b)

namespace Definitions

/-- The definitions with one more rule instance. -/
def add (d : Definitions) (entry : Term × List Literal) : Definitions :=
  d.insert entry.1 ((d.getD entry.1 ∅).insert entry.2)

/-- The rule instances over a set of possible atoms. -/
def ofRules (rules : List Rule) (possible : TermSet) : Definitions :=
  let index := AtomIndex.ofList possible.toList
  (rules.flatMap (Rule.instances possible index)).foldl add ∅

/-- The bodies that define an atom. -/
def bodies (d : Definitions) (atom : Term) : List (List Literal) := (d.getD atom ∅).toList

/-- The atoms in the bodies that define an atom, at their occurrences. -/
def dependencies (d : Definitions) (atom : Term) : List Term :=
  (d.bodies atom).flatMap fun body => body.map (·.atom)

end Definitions

end TimedInference
