import TimedInference.Proofs.Circuit.Shape
import TimedInference.Proofs.Grounding.LeastModel

/-!
# Grounding does not read probabilities

Programs that differ only in the probabilities of their facts have the same possible atoms and the same
relevant ones, so they ground to the same definitions, and a fact is kept in one of them exactly when it
is kept in the other (`Program.exists_ground_of_sameUpToWeights`).  In particular a fact with probability zero
is kept.
-/

namespace TimedInference

variable {α : Type}

/-! ## Without probabilities -/

/-- The clause without its probability. -/
def Clause.unweighted : Clause α → Clause Unit
  | fact h => .fact h
  | chance _ h => .chance () h
  | rule r => .rule r

namespace Program

/-- The programs differ only in the probabilities of their facts. -/
structure SameUpToWeights (p p' : Program α) : Prop where
  clauses : p'.clauses.map Clause.unweighted = p.clauses.map Clause.unweighted
  queries : p'.queries = p.queries

variable {p p' : Program α}

/-- What a clause gives without its probability, the clauses of both programs give alike. -/
theorem SameUpToWeights.filterMap_eq (h : p.SameUpToWeights p') {β : Type}
    {f : Clause α → Option β} (f' : Clause Unit → Option β) (hf : ∀ c, f c = f' c.unweighted) :
    p'.clauses.filterMap f = p.clauses.filterMap f := by
  have hmap (cs : List (Clause α)) :
      cs.filterMap f = (cs.map Clause.unweighted).filterMap f' := by
    rw [List.filterMap_map]
    exact List.filterMap_congr fun c _ => hf c
  rw [hmap, hmap, h.clauses]

/-- The programs have the same facts, the same certain ones and the same rules. -/
theorem SameUpToWeights.factHeads_eq (h : p.SameUpToWeights p') : p'.factHeads = p.factHeads :=
  h.filterMap_eq Clause.factHead? fun c => by cases c <;> rfl

theorem SameUpToWeights.certainFacts_eq (h : p.SameUpToWeights p') :
    p'.certainFacts = p.certainFacts :=
  h.filterMap_eq Clause.certainHead? fun c => by cases c <;> rfl

theorem SameUpToWeights.rules_eq (h : p.SameUpToWeights p') : p'.rules = p.rules :=
  h.filterMap_eq Clause.rule? fun c => by cases c <;> rfl

/-- The programs have the same atoms with a probability. -/
theorem SameUpToWeights.map_chances_eq (h : p.SameUpToWeights p') :
    p'.chances.map (·.1) = p.chances.map (·.1) := by
  rw [chances, chances, List.map_filterMap, List.map_filterMap]
  exact h.filterMap_eq (fun c => c.chance?.map (·.1)) fun c => by cases c <;> rfl

/-! ## Choices -/

/-- Which choices declare an atom depends on their atoms only. -/
theorem choicesByAtom_congr {cs cs' : List (Choice α)} (h : cs'.map (·.atom) = cs.map (·.atom)) :
    choicesByAtom cs' = choicesByAtom cs := by
  have hatoms (cs : List (Choice α)) : choicesByAtom cs =
      (cs.map (·.atom)).zipIdx.foldr (fun a m => m.insert a.1 (a.2 :: m.getD a.1 [])) ∅ := by
    rw [List.zipIdx_map, List.foldr_map]
    rfl
  rw [hatoms, hatoms, h]

theorem map_atom_relevantChoices (p : Program α) (relevant : TermSet) :
    (p.relevantChoices relevant).map (·.atom) =
      (p.chances.map (·.1)).filter fun a => relevant.contains a := by
  rw [relevantChoices, List.map_map, List.filter_map]
  rfl

/-- The programs have choices for the same atoms. -/
theorem SameUpToWeights.map_atom_relevantChoices_eq (h : p.SameUpToWeights p')
    (relevant : TermSet) :
    (p'.relevantChoices relevant).map (·.atom) = (p.relevantChoices relevant).map (·.atom) := by
  rw [map_atom_relevantChoices, map_atom_relevantChoices, h.map_chances_eq]

end Program

/-! ## Grounding -/

namespace Program

variable {p p' : Program α}

/-- A program that differs only in probabilities grounds alike, with its own declarations of the same
atoms. -/
theorem SameUpToWeights.exists_groundOver (h : p.SameUpToWeights p') {possible : TermSet}
    {g : GroundProgram α} (hg : p.groundOver possible = .ok g) :
    ∃ relevant : TermSet, g.choices = p.relevantChoices relevant ∧
      p'.groundOver possible = .ok { g with choices := p'.relevantChoices relevant } := by
  have hqueries : p'.queryAtoms possible = p.queryAtoms possible := by
    rw [queryAtoms, queryAtoms, h.queries]
  simp only [groundOver] at hg ⊢
  rw [h.rules_eq, hqueries, h.certainFacts_eq]
  obtain ⟨order, ho, hpure⟩ := bind_eq_ok.1 hg
  obtain rfl := Except.ok.inj hpure
  refine ⟨_, rfl, ?_⟩
  rw [ho, choicesByAtom_congr (h.map_atom_relevantChoices_eq _)]
  rfl

variable [Probability α]

/-- The check of a clause does not read its probability. -/
theorem check_clause_congr {c c' : Clause α} (h : c'.unweighted = c.unweighted)
    (hc : c.check = .ok ()) : c'.check = .ok () := by
  have hfact {head : Term} {e : EngineError}
      (hg : (if head.isGround = true then (.ok () : Except EngineError Unit) else .error e) = .ok ())
      (e' : EngineError) :
      (if head.isGround = true then (.ok () : Except EngineError Unit) else .error e') = .ok () := by
    split at hg
    · rename_i hground
      rw [if_pos hground]
    · simp at hg
  -- only clauses of one kind are equal up to probabilities, and their checks look at the same terms
  cases c <;> cases c' <;> simp only [Clause.unweighted, Clause.fact.injEq, Clause.chance.injEq,
    Clause.rule.injEq, reduceCtorEq, true_and] at h
  · obtain rfl := h
    exact hc
  · obtain rfl := h
    exact hfact hc _
  · obtain rfl := h
    exact hc

/-- A program passes the check when the other one does. -/
theorem SameUpToWeights.check_eq_ok (h : p.SameUpToWeights p') (hc : p.check = .ok ()) :
    p'.check = .ok () := by
  refine forM_eq_ok_iff.2 fun c' hc' => ?_
  have hmem : c'.unweighted ∈ p.clauses.map Clause.unweighted := by
    rw [← h.clauses]
    exact List.mem_map_of_mem hc'
  obtain ⟨c, hcm, hcc⟩ := List.mem_map.1 hmem
  exact check_clause_congr hcc.symm (forM_eq_ok_iff.1 hc c hcm)

/-- Grounding commutes with changing probabilities. -/
theorem exists_ground_of_sameUpToWeights (h : p.SameUpToWeights p') {limit : Nat}
    {g : GroundProgram α} (hg : (p.ground limit).outcome = .ok g) :
    ∃ relevant : TermSet, g.choices = p.relevantChoices relevant ∧
      (p'.ground limit).outcome = .ok { g with choices := p'.relevantChoices relevant } := by
  obtain ⟨hc, s, hp, hover⟩ := ground_eq_ok_iff.1 hg
  obtain ⟨relevant, hchoices, hover'⟩ := h.exists_groundOver hover
  have hpossible : p'.possible limit = p.possible limit := by
    rw [possible, possible, h.rules_eq, h.factHeads_eq]
  exact ⟨relevant, hchoices,
    ground_eq_ok_iff.2 ⟨h.check_eq_ok hc, s, hpossible.trans hp, hover'⟩⟩

end Program

/-- Ground programs that differ only in the probabilities of their choices have one shape. -/
theorem SameShape.of_choices {g : GroundProgram α} {choices : List (Choice α)}
    (h : choices.map (·.atom) = g.choices.map (·.atom)) :
    SameShape id g { g with choices := choices } where
  length_choices := by
    have := congrArg List.length h
    rwa [List.length_map, List.length_map] at this
  atoms_eq := rfl
  queries_eq := (List.map_id' g.queries).symm

end TimedInference
