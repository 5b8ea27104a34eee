import Mathlib.Data.List.Nodup
import TimedInference.Proofs.Circuit.Lookups
import TimedInference.Proofs.Grounding.Meaning
import TimedInference.Proofs.Grounding.Relevance

/-!
# Ground programs are well-formed

What grounding gives is well-formed (`GroundProgram.WellFormed`): it has the atoms that its queries depend
on, each once and after the atoms of its bodies, the declarations of these atoms as choices, and the atoms
that the queries ask for, with the numbers of those that are possible.  The search for possible atoms, the
walk through their dependencies, the check of the order and the numberings each contribute a part, and
together they leave no lookup that can fail, neither where bodies get their numbers nor where truth values
or diagrams are computed (`Program.ground_wellFormed`).
-/

namespace TimedInference

open Term

variable {α : Type} {p : Program α} {possible : TermSet} {order : List Term} {g : GroundProgram α}

/-- The literal that refers to an atom by its number, if the ground program has the atom. -/
def GroundProgram.literal? (g : GroundProgram α) (l : Literal) : Option GroundLiteral :=
  (Program.positions (g.atoms.map (·.atom)))[l.atom]?.map fun i => ⟨i, l.positive⟩

/-- What a ground program is, given a program and its possible atoms. -/
structure GroundProgram.WellFormed (g : GroundProgram α) (p : Program α) (possible : TermSet) :
    Prop where
  /-- The atoms are ground. -/
  isGround : ∀ d ∈ g.atoms, d.atom.isGround = true
  /-- No atom is defined twice. -/
  nodup_atoms : (g.atoms.map (·.atom)).Nodup
  /-- The atoms are those that the possible queried atoms depend on. -/
  mem_atoms_iff : ∀ a, a ∈ g.atoms.map (·.atom) ↔
    ∃ q ∈ g.queries.map (·.1), q ∈ possible ∧ Relation.ReflTransGen (p.DependsOn possible) q a
  /-- Bodies refer to earlier atoms. -/
  ordered : g.Ordered
  /-- The certain atoms are the certain facts. -/
  certain_iff : ∀ d ∈ g.atoms, d.certain = true ↔ d.atom ∈ p.certainFacts
  /-- Bodies are those of the rule instances, all of whose atoms are found. -/
  bodies_eq : ∀ d ∈ g.atoms, ((Definitions.ofRules p.rules possible).bodies d.atom).mapM
    (fun body => body.mapM g.literal?) = some d.bodies
  /-- The choices are the declarations of these atoms, in source order. -/
  choices_eq : g.choices =
    (p.chances.filter fun c => (g.atoms.map (·.atom)).contains c.1).map fun c => ⟨c.1, c.2⟩
  /-- An atom lists the choices that declare it. -/
  mem_choices_iff : ∀ d ∈ g.atoms, ∀ j, j ∈ d.choices ↔ ∃ c, g.choices[j]? = some c ∧ c.atom = d.atom
  /-- An atom lists its choices in ascending order. -/
  ascending : ∀ d ∈ g.atoms, d.choices.Pairwise (· < ·)
  /-- Every choice is listed by exactly one atom. -/
  existsUnique_atom : ∀ j < g.choices.length, ∃! i : Nat, ∃ d : AtomDefinition,
    g.atoms[i]? = some d ∧ j ∈ d.choices
  /-- No atom is asked for twice. -/
  nodup_queries : (g.queries.map (·.1)).Nodup
  /-- What is asked for are the ground queries and the possible instances of the other ones. -/
  mem_queries_iff : ∀ q, q ∈ g.queries.map (·.1) ↔ (q ∈ p.queries ∧ q.isGround = true) ∨
    (q ∈ possible ∧ ∃ pattern ∈ p.queries, pattern.isGround = false ∧ ∃ σ, pattern.instantiate σ = q)
  /-- The number of a query is that of its atom. -/
  index_iff : ∀ q ∈ g.queries, ∀ i, q.2 = some i ↔ (g.atoms[i]?.map (·.atom)) = some q.1
  /-- The queries with a number are the possible ones. -/
  isSome_index_iff : ∀ q ∈ g.queries, q.2.isSome = true ↔ q.1 ∈ possible

namespace Program.GroundsTo

/-! ## Atoms -/

/-- The atoms stand in the order of their definitions. -/
theorem getElem?_atom (h : p.GroundsTo possible order g) (i : Nat) :
    (g.atoms[i]?.map (·.atom)) = order[i]? := by
  rw [← h.map_atom_eq, List.getElem?_map]

/-- An atom stands at one place of the order. -/
theorem eq_of_getElem?_eq_some (h : p.GroundsTo possible order g) {i j : Nat} {a : Term}
    (hi : order[i]? = some a) (hj : order[j]? = some a) : i = j :=
  (List.getElem?_inj (List.getElem?_eq_some_iff.1 hi).1 (Definitions.nodup_order h.order_eq)).1
    (hi.trans hj.symm)

/-- The bodies of an atom are those of its rule instances, with every atom found before it. -/
theorem bodies_found (h : p.GroundsTo possible order g) {i : Nat} {d : AtomDefinition}
    (hd : g.atoms[i]? = some d) :
    (∀ body ∈ d.bodies, ∀ l ∈ body, l.atom < i) ∧
      ((Definitions.ofRules p.rules possible).bodies d.atom).mapM
        (fun body => body.mapM g.literal?) = some d.bodies := by
  refine ⟨h.bodies_lt hd, ?_⟩
  obtain ⟨ha, -, -, hbodies⟩ := h.exists_of_getElem?_atoms hd
  rw [hbodies]
  refine mapM_eq_some_map fun body hbody => mapM_eq_some_map fun l hl => ?_
  obtain ⟨j, -, hj⟩ := h.exists_position_lt ha hbody hl
  rw [GroundProgram.literal?, h.map_atom_eq, Std.ExtTreeMap.getD_eq_getD_getElem?, hj,
    Option.map_some, Option.getD_some]

/-! ## Choices -/

/-- An atom has the choices that declare it. -/
theorem mem_choices_iff (h : p.GroundsTo possible order g) {d : AtomDefinition} (hd : d ∈ g.atoms)
    {j : Nat} : j ∈ d.choices ↔ ∃ c, g.choices[j]? = some c ∧ c.atom = d.atom := by
  obtain ⟨i, hi⟩ := List.mem_iff_getElem?.1 hd
  obtain ⟨-, -, hchoices, -⟩ := h.exists_of_getElem?_atoms hi
  rw [hchoices, mem_choicesByAtom]

/-- Every choice belongs to one atom. -/
theorem existsUnique_atom (h : p.GroundsTo possible order g) {j : Nat} (hj : j < g.choices.length) :
    ∃! i : Nat, ∃ d : AtomDefinition, g.atoms[i]? = some d ∧ j ∈ d.choices := by
  obtain ⟨c, hchoice⟩ : ∃ c, g.choices[j]? = some c := ⟨_, List.getElem?_eq_getElem hj⟩
  have hmem : c.atom ∈ order := by
    have hin := List.mem_of_getElem? hchoice
    rw [h.choices_eq, map_keptDeclarations, h.map_atom_eq] at hin
    obtain ⟨decl, hdecl, rfl⟩ := List.mem_map.1 hin
    exact List.contains_iff_mem.1 (List.mem_filter.1 hdecl).2
  -- an atom lists the choices that declare it, and no atom stands at two places
  have hlists {i : Nat} {d : AtomDefinition} (hd : g.atoms[i]? = some d) :
      j ∈ d.choices ↔ order[i]? = some c.atom := by
    rw [h.mem_choices_iff (List.mem_of_getElem? hd), hchoice, (h.exists_of_getElem?_atoms hd).1]
    simp [eq_comm]
  obtain ⟨i, hi⟩ := List.mem_iff_getElem?.1 hmem
  obtain ⟨d, hd, -⟩ := Option.map_eq_some_iff.1 ((h.getElem?_atom i).trans hi)
  refine ⟨i, ⟨d, hd, (hlists hd).2 hi⟩, ?_⟩
  rintro k ⟨d', hd', hj'⟩
  have hk := (hlists hd').1 hj'
  exact h.eq_of_getElem?_eq_some hk hi

/-! ## Queries -/

/-- A query asks for a possible atom, at its position in the order. -/
theorem index_eq (h : p.GroundsTo possible order g) {q : Term × Option Nat} (hq : q ∈ g.queries) :
    q.1 ∈ p.queryAtoms possible ∧ q.2 = (positions order)[q.1]? := by
  rw [h.queries_eq] at hq
  obtain ⟨a, ha, rfl⟩ := List.mem_map.1 hq
  exact ⟨ha, rfl⟩

/-- A query with a position stands there in the order. -/
theorem index_eq_some_iff (h : p.GroundsTo possible order g) {q : Term × Option Nat}
    (hq : q ∈ g.queries) {i : Nat} : q.2 = some i ↔ order[i]? = some q.1 := by
  rw [(h.index_eq hq).2]
  refine ⟨getElem?_of_positions, fun hi => ?_⟩
  obtain ⟨j, -, hj⟩ := exists_position_le hi
  rw [hj, h.eq_of_getElem?_eq_some (getElem?_of_positions hj) hi]

/-- A query has a position when its atom is possible. -/
theorem isSome_index_iff (h : p.GroundsTo possible order g) {q : Term × Option Nat}
    (hq : q ∈ g.queries) : q.2.isSome = true ↔ q.1 ∈ possible := by
  obtain ⟨hqueried, hindex⟩ := h.index_eq hq
  constructor
  · intro hsome
    obtain ⟨i, hi⟩ := Option.isSome_iff_exists.1 hsome
    exact h.mem_possible_of_mem_order (List.mem_of_getElem? ((h.index_eq_some_iff hq).1 hi))
  · intro hposs
    have hrelevant := Definitions.mem_relevant_of_mem_queried
      (d := Definitions.ofRules p.rules possible) hposs hqueried
    rw [hindex, positions_eq, if_pos ((Definitions.mem_order_iff h.order_eq).2 hrelevant)]
    rfl

/-! ## The whole -/

/-- What grounding gives over ground atoms is well formed. -/
theorem wellFormed (hground : GroundAtoms possible.toList) (h : p.GroundsTo possible order g) :
    g.WellFormed p possible where
  isGround d hd := by
    obtain ⟨i, hi⟩ := List.mem_iff_getElem?.1 hd
    have hmem := List.mem_of_getElem? (h.exists_of_getElem?_atoms hi).1
    exact hground _ (Std.ExtTreeSet.mem_toList.2 (h.mem_possible_of_mem_order hmem))
  nodup_atoms := by
    rw [h.map_atom_eq]
    exact Definitions.nodup_order h.order_eq
  mem_atoms_iff a := by
    rw [h.map_atom_eq, h.map_query_eq, Definitions.mem_order_iff h.order_eq, mem_relevant_iff hground]
  ordered := by
    refine ⟨fun i d hd => (h.bodies_found hd).1, fun q hq i hi => ?_⟩
    have hlt := (List.getElem?_eq_some_iff.1 ((h.index_eq_some_iff hq).1 hi)).1
    rwa [← h.map_atom_eq, List.length_map] at hlt
  certain_iff d hd := by
    obtain ⟨i, hi⟩ := List.mem_iff_getElem?.1 hd
    exact (h.exists_of_getElem?_atoms hi).2.1
  bodies_eq d hd := by
    obtain ⟨i, hi⟩ := List.mem_iff_getElem?.1 hd
    exact (h.bodies_found hi).2
  choices_eq := by
    rw [← map_keptDeclarations]
    exact h.choices_eq
  mem_choices_iff d hd j := h.mem_choices_iff hd
  ascending d hd := by
    obtain ⟨i, hi⟩ := List.mem_iff_getElem?.1 hd
    rw [(h.exists_of_getElem?_atoms hi).2.2.1]
    exact pairwise_choicesByAtom g.choices d.atom
  existsUnique_atom j hj := h.existsUnique_atom hj
  nodup_queries := by
    rw [h.map_query_eq]
    exact nodup_eraseDups _
  mem_queries_iff q := by rw [h.map_query_eq, mem_queryAtoms_iff]
  index_iff q hq i := by rw [h.index_eq_some_iff hq, h.getElem?_atom]
  isSome_index_iff q hq := h.isSome_index_iff hq

end Program.GroundsTo

namespace Program

/-- A ground program is well-formed over the possible atoms, and computing truth values or diagrams from it
never looks for an atom that is not there.  When the positive literals are compounds, the possible atoms are
the derivable ones, and atoms depend on each other as the rule instances by ground terms say. -/
theorem ground_wellFormed [Probability α] {limit : Nat} (h : (p.ground limit).outcome = .ok g) :
    ∃ possible, p.possible limit = .ok possible ∧ g.WellFormed p possible ∧
      (∀ world, g.queryTruths? world =
        some (g.queries.map fun q => q.2.any ((g.truthValues world).getD · false))) ∧
      DiagramCircuit.compile? g = some (DiagramCircuit.compile g) ∧
      (p.CompoundBodies → (∀ a, a ∈ possible ↔ p.Derivable a) ∧
        ∀ a dep, p.DependsOn possible a dep ↔ ∃ r ∈ p.rules, ∃ σ, IsGrounding σ ∧
          (∀ l ∈ r.body, l.positive = true → p.Derivable (l.atom.instantiate σ)) ∧
          r.head.instantiate σ = a ∧
          ∃ l ∈ r.body, l.atom.instantiate σ = dep ∧ p.Derivable dep) := by
  obtain ⟨hcheck, possible, order, hpossible, hg⟩ := groundsTo_of_ground h
  have hp := safe_of_check hcheck
  have hground := groundAtoms_of_derivable hp (derivable_of_mem_possible hp hpossible)
  have hwf := hg.wellFormed hground
  refine ⟨possible, hpossible, hwf, GroundProgram.queryTruths?_eq hwf.ordered,
    DiagramCircuit.compile?_eq hwf.ordered, fun hc => ?_⟩
  have hderivable (a : Term) : a ∈ possible ↔ p.Derivable a := mem_possible_iff hp hc hpossible
  refine ⟨hderivable, fun a dep => ?_⟩
  rw [dependsOn_iff hp hc hground]
  simp only [hderivable]

theorem ground_wellFormed_coin :
    ∃ possible, coin.possible 10 = .ok possible ∧ groundCoin.WellFormed coin possible ∧
      DiagramCircuit.compile? groundCoin = some (DiagramCircuit.compile groundCoin) := by
  have grounds : (coin.ground 10).outcome = .ok groundCoin := by decide +kernel
  obtain ⟨possible, hpossible, hwf, -, hcompile, -⟩ := ground_wellFormed grounds
  exact ⟨possible, hpossible, hwf, hcompile⟩

end Program

end TimedInference
