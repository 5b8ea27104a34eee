import TimedInference.Engine.Error
import TimedInference.Grounding.Definitions

/-!
# Dependency order

Relevant atoms are ordered so that each comes after the atoms in the bodies that define it. The order
is found by a depth-first walk from each atom, in the order of terms, to the atoms that depend on it,
also in the order of terms: an atom that is finished later comes earlier. The walk alone gives an
order for any dependencies; that it is a dependency order is checked afterwards, and the check fails
exactly when there is a cycle. A direct cycle is noticed when the walk meets it.
-/

namespace TimedInference

namespace Definitions

/-- For each atom, those of a list of atoms that depend on it directly, in the order of the list. -/
def dependents (d : Definitions) (atoms : List Term) : TermMap (List Term) :=
  atoms.foldr (fun atom m =>
    (d.dependencies atom).eraseDups.foldl (fun m dep => m.insert dep (atom :: m.getD dep [])) m) ∅

end Definitions

/-- How far a walk has come: the atoms it has met, and those it has finished, last one first. -/
structure Walk where
  met : TermSet
  finished : List Term

namespace Walk

/-- Walks from an atom to all atoms not met before that can be reached from it, and finishes them.
The bound on the depth is never reached when it is the number of atoms not met. -/
def visit (next : Term → List Term) : Nat → Walk → Term → Except EngineError Walk
  | 0, w, _ => .ok w
  | fuel + 1, w, atom => do
    if atom ∈ w.met then return w
    if (next atom).contains atom then throw (.cyclic atom)
    let w ← (next atom).foldlM (visit next fuel) { w with met := w.met.insert atom }
    return { w with finished := atom :: w.finished }

/-- Walks from every atom of a list. -/
def visitAll (next : Term → List Term) (atoms : List Term) : Except EngineError Walk :=
  atoms.foldlM (visit next atoms.length) ⟨∅, []⟩

end Walk

namespace Definitions

/-- The first atom, along a list, on which one of the list depends without having it before it. -/
def misplaced? (d : Definitions) : TermSet → List Term → Option Term
  | _, [] => none
  | before, atom :: rest =>
    let before := before.insert atom
    match (d.dependencies atom).find? fun dep => !before.contains dep with
    | some dep => some dep
    | none => misplaced? d before rest

/-- The relevant atoms, each after those on which it depends. -/
def order (d : Definitions) (relevant : TermSet) : Except EngineError (List Term) := do
  let atoms := relevant.toList
  let dependents := d.dependents atoms
  let walk ← Walk.visitAll (fun atom => dependents.getD atom []) atoms
  match d.misplaced? ∅ walk.finished with
  | some atom => throw (.cyclic atom)
  | none => return walk.finished

end Definitions

end TimedInference
