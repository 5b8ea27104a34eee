import TimedInference.Grounding.Definitions
import TimedInference.Program.Basic

/-!
# Relevant atoms

A ground query asks for its atom, and any other query for the possible atoms that it matches.
An atom is relevant when a queried possible atom is it or depends on it through rule instances.
-/

namespace TimedInference

/-- The atoms that the queries ask for, each once, in the order in which they are first asked for. -/
def Program.queryAtoms {α : Type} (p : Program α) (possible : TermSet) : List Term :=
  (p.queries.flatMap fun q =>
    if q.isGround then [q]
    else possible.toList.filter fun atom => (q.match? atom ∅).isSome).eraseDups

namespace Definitions

/-- How many atoms a walk over all dependencies of a list of atoms comes to, the listed ones
included. -/
def reach (d : Definitions) (atoms : List Term) : Nat :=
  (atoms.flatMap fun atom => atom :: d.dependencies atom).length

theorem reach_erase (d : Definitions) {s : TermSet} {atom : Term} (h : atom ∈ s) :
    d.reach s.toList = (d.dependencies atom).length + 1 + d.reach (s.erase atom).toList := by
  have hperm : s.toList.Perm (atom :: (s.erase atom).toList) := by
    have hnot : atom ∉ (s.erase atom).toList := by
      simp [Std.ExtTreeSet.mem_toList, Std.ExtTreeSet.mem_erase]
    refine (List.perm_ext_iff_of_nodup (TermSet.nodup_toList s)
      (List.nodup_cons.2 ⟨hnot, TermSet.nodup_toList (s.erase atom)⟩)).2 fun t => ?_
    simp only [List.mem_cons, Std.ExtTreeSet.mem_toList, Std.ExtTreeSet.mem_erase, ne_eq,
      Std.compare_eq_iff_eq]
    constructor
    · intro ht
      by_cases he : t = atom
      · exact .inl he
      · exact .inr ⟨Ne.symm he, ht⟩
    · rintro (rfl | ⟨-, ht⟩)
      · exact h
      · exact ht
  unfold reach
  rw [(hperm.flatMap_right _).length_eq, List.flatMap_cons, List.length_append, List.length_cons]

/-- What is left of a set of atoms when the atoms of a list are taken away, and with every atom taken
away also its dependencies. -/
def discard (d : Definitions) (left : TermSet) : List Term → TermSet
  | [] => left
  | atom :: stack =>
    if atom ∈ left then discard d (left.erase atom) (d.dependencies atom ++ stack)
    else discard d left stack
termination_by stack => d.reach left.toList + stack.length
decreasing_by
  · rename_i h
    rw [d.reach_erase h, List.length_append, List.length_cons]
    omega
  · exact Nat.add_lt_add_left (Nat.lt_succ_self _) _

/-- The possible atoms on which the queried ones among them depend, those included. -/
def relevant (d : Definitions) (possible : TermSet) (queried : List Term) : TermSet :=
  possible \ d.discard possible queried

end Definitions

end TimedInference
