import TimedInference.Proofs.Grounding.GroundProgram

/-!
# What the queries of a program depend on

An atom depends on the atoms in the bodies of its rule instances (`Program.DependsOn`).  The instances are
those whose positive literals are possible, and a negated literal counts when its atom is possible, so an
atom depends on possible atoms only (`Program.DependsOn.mem_possible`).  Following this relation from the
queried atoms that are possible gives the relevant atoms (`Program.mem_relevant_iff`); the queried atoms are
the ground queries and the possible instances of the others (`Program.mem_queryAtoms_iff`).
-/

namespace TimedInference.Program

open Term

variable {α : Type} {p : Program α} {possible : TermSet}

/-! ## Dependence -/

/-- An atom depends on another one when this is in the body of a rule instance for it. -/
def DependsOn (p : Program α) (possible : TermSet) (a dep : Term) : Prop :=
  ∃ r ∈ p.rules, ∃ b ∈ (AtomIndex.ofList possible.toList).join r.positives,
    r.head.substitute b = a ∧ ∃ l ∈ r.instanceBody possible b, l.atom = dep

theorem mem_dependencies_ofRules {a dep : Term} :
    dep ∈ (Definitions.ofRules p.rules possible).dependencies a ↔ p.DependsOn possible a dep := by
  simp only [Definitions.mem_dependencies, Definitions.mem_bodies_ofRules, DependsOn]
  constructor
  · rintro ⟨_, ⟨r, hr, b, hb, ha, rfl⟩, hdep⟩
    exact ⟨r, hr, b, hb, ha, hdep⟩
  · rintro ⟨r, hr, b, hb, ha, hdep⟩
    exact ⟨_, ⟨r, hr, b, hb, ha, rfl⟩, hdep⟩

theorem dependencies_ofRules_eq :
    (fun a dep => dep ∈ (Definitions.ofRules p.rules possible).dependencies a) =
      p.DependsOn possible := by
  funext a dep
  exact propext mem_dependencies_ofRules

theorem DependsOn.mem_possible (hground : GroundAtoms possible.toList) {a dep : Term}
    (h : p.DependsOn possible a dep) : dep ∈ possible := by
  obtain ⟨r, -, b, hb, -, l, hl, rfl⟩ := h
  obtain ⟨hmem, hkeep⟩ := List.mem_filter.1 hl
  obtain ⟨k, hk, rfl⟩ := List.mem_map.1 hmem
  rcases Bool.or_eq_true_iff.1 hkeep with hpos | hposs
  · have hjoined := (AtomIndex.join_sound hground hb).mem_atoms k.atom
      (Rule.mem_positives.2 ⟨k, hk, hpos, rfl⟩)
    exact Std.ExtTreeSet.mem_toList.1 hjoined
  · exact Std.ExtTreeSet.mem_iff_contains.2 hposs

/-- The rule instances by ground terms, when the positive literals are compounds: an atom depends on the
possible atoms among the literals of an instance whose positive literals are possible. -/
theorem dependsOn_iff (hp : p.Safe) (hc : p.CompoundBodies) (hground : GroundAtoms possible.toList)
    {a dep : Term} :
    p.DependsOn possible a dep ↔
      ∃ r ∈ p.rules, ∃ σ, IsGrounding σ ∧
        (∀ l ∈ r.body, l.positive = true → l.atom.instantiate σ ∈ possible) ∧
        r.head.instantiate σ = a ∧ ∃ l ∈ r.body, l.atom.instantiate σ = dep ∧ dep ∈ possible := by
  constructor
  · intro h
    have hdep := h.mem_possible hground
    obtain ⟨r, hr, b, hb, rfl, l, hl, rfl⟩ := h
    obtain ⟨σ, hσ, hbσ, hbound, hpos⟩ := Rule.join_sound hground hb
    obtain ⟨k, hk, rfl⟩ := List.mem_map.1 (List.mem_filter.1 hl).1
    exact ⟨r, hr, σ, hσ, fun l hl hl' => Std.ExtTreeSet.mem_toList.1 (hpos l hl hl'),
      (hp.substitute_head hr hbσ hbound).symm, k, hk, (hp.substitute_body hr hbσ hbound hk).symm,
      hdep⟩
  · rintro ⟨r, hr, σ, -, hpos, rfl, l, hl, rfl, hdep⟩
    obtain ⟨b, hb, hbσ⟩ := Rule.join_complete hground (hc r hr) fun l hl hl' =>
      Std.ExtTreeSet.mem_toList.2 (hpos l hl hl')
    obtain ⟨-, -, -, hbound, -⟩ := Rule.join_sound hground hb
    have hatom : (l.substitute b).atom = l.atom.instantiate σ := hp.substitute_body hr hbσ hbound hl
    refine ⟨r, hr, b, hb, hp.substitute_head hr hbσ hbound, l.substitute b, ?_, hatom⟩
    -- a literal is kept when its atom is possible
    refine List.mem_filter.2 ⟨List.mem_map.2 ⟨l, hl, rfl⟩, ?_⟩
    rw [hatom, Std.ExtTreeSet.mem_iff_contains.1 hdep, Bool.or_true]

/-! ## Relevant atoms -/

/-- The relevant atoms are the queried atoms that are possible and all atoms on which they depend, directly or
not. -/
theorem mem_relevant_iff (hground : GroundAtoms possible.toList) {queried : List Term} {a : Term} :
    a ∈ (Definitions.ofRules p.rules possible).relevant possible queried ↔
      ∃ q ∈ queried, q ∈ possible ∧ Relation.ReflTransGen (p.DependsOn possible) q a := by
  rw [Definitions.mem_relevant_iff, Definitions.Reaches, dependencies_ofRules_eq]
  intro a _ dep hdep
  exact (mem_dependencies_ofRules.1 hdep).mem_possible hground

/-! ## Queried atoms -/

/-- The queried atoms are the ground queries and the possible instances of the other ones. -/
theorem mem_queryAtoms_iff {a : Term} :
    a ∈ p.queryAtoms possible ↔
      (a ∈ p.queries ∧ a.isGround = true) ∨
        (a ∈ possible ∧ ∃ q ∈ p.queries, q.isGround = false ∧ ∃ σ, q.instantiate σ = a) := by
  rw [queryAtoms, List.mem_eraseDups, List.mem_flatMap]
  constructor
  · rintro ⟨q, hq, ha⟩
    by_cases hg : q.isGround = true
    · rw [if_pos hg, List.mem_singleton] at ha
      subst ha
      exact .inl ⟨hq, hg⟩
    · rw [if_neg hg, List.mem_filter, Std.ExtTreeSet.mem_toList, isSome_match?_iff] at ha
      exact .inr ⟨ha.1, q, hq, by simpa using hg, ha.2⟩
  · rintro (⟨hq, hg⟩ | ⟨ha, q, hq, hg, hσ⟩)
    · exact ⟨a, hq, by rw [if_pos hg]; exact List.mem_singleton_self a⟩
    · refine ⟨q, hq, ?_⟩
      rw [hg, if_neg (by decide), List.mem_filter, Std.ExtTreeSet.mem_toList, isSome_match?_iff]
      exact ⟨ha, hσ⟩

end TimedInference.Program
