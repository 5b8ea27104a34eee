import TimedInference.Number.Rational
import TimedInference.Proofs.Cache.Reuse
import TimedInference.Proofs.Circuit.Values
import TimedInference.Proofs.Grounding.Relevance
import TimedInference.Proofs.Template.Assembly

/-!
# The query of an entry

The text that is compiled for a query ends in the query.  Where the text in front of it is a program by
itself, the query is read as a query, and the entry answers it under all weights that its circuit accepts
(`Entry.evaluate_own_query`).  A declared fact shows where the program ends, so with declarations a text that
can be read at all begins with a program.  Without them the text of the program may go on into the query: a
rule that is left open takes it as its body (`Entry.evaluate_openRule`).
-/

namespace TimedInference

variable {α : Type} [Probability α]

/-! ## Queries of programs -/

/-- A query without variables is a query of the ground program. -/
theorem Program.mem_queries_of_ground {p : Program α} {limit : Nat} {g : GroundProgram α}
    (h : (p.ground limit).outcome = .ok g) {q : Term} (hq : q ∈ p.queries)
    (hground : q.isGround = true) : q ∈ g.queries.map (·.1) := by
  obtain ⟨-, possible, order, -, hto⟩ := groundsTo_of_ground h
  rw [hto.map_query_eq, mem_queryAtoms_iff]
  exact .inl ⟨hq, hground⟩

/-- The program in front of declared facts can be read when the whole text can. -/
theorem exists_ofText_of_programText {program : String} {declarations : List (Event α)}
    (hbase : declarations ≠ [] ∨ ∃ p : Program α, Program.ofText program = .ok p)
    (hd : ∀ d ∈ declarations, d.template.Standard ∧ Time.Fits d.time) {query : Query} {p : Program α}
    (h : Program.ofText (Entry.programText program declarations query) = .ok p) :
    ∃ base : Program α, Program.ofText program = .ok base := by
  rcases hbase with hne | hbase
  · obtain ⟨before, after, own, hbefore, -⟩ := exists_parts_of_ofText hne hd h
    exact ⟨before, hbefore⟩
  · exact hbase

/-! ## Entries -/

namespace Entry

/-- The circuit of an entry answers exactly the weights that give each of its nodes a probability, and the
query of the entry has a value in every answer. -/
theorem evaluate_own_query {kind : EngineKind} {maxChoices atomLimit : Nat} {warnUnbound : Bool}
    {program : String} {declarations : List (Event α)} {query : Query} {e : Entry α}
    (h : (compile (.ofKind kind maxChoices atomLimit) warnUnbound program declarations query).outcome =
      .ok e)
    (hbase : declarations ≠ [] ∨ ∃ p : Program α, Program.ofText program = .ok p)
    (hd : ∀ d ∈ declarations, d.template.Standard ∧ Time.Fits d.time)
    (hq : query.template.Writable) (ht : Time.Fits query.time) (w : Weights α) :
    (w.check e.circuit.baseline.size = .ok () ↔ ∃ r, e.circuit.evaluate w = .ok r) ∧
      ∀ r, e.circuit.evaluate w = .ok r → query.atom ∈ r := by
  obtain ⟨p, g, c, hp, hg, hc, rfl⟩ := compile_eq_ok_iff.1 h
  have hcircuit := Engine.isCircuitOf_values hc
  -- the query is the last one of the program
  have hmem : query.atom ∈ p.queries := by
    obtain ⟨base, hread⟩ := exists_ofText_of_programText hbase hd hp
    rw [ofText_programText hread hd hq ht] at hp
    rw [← Except.ok.inj hp]
    exact List.mem_append_right _ (List.mem_singleton_self _)
  have hqueries := Program.mem_queries_of_ground hg hmem (hq.isGround_atom query.time)
  have hsize : c.baseline.size = g.choices.length := by
    rw [hcircuit.baseline_eq, g.size_baseline]
  constructor
  · show w.check c.baseline.size = .ok () ↔ _
    rw [hsize]
    constructor
    · intro hcheck
      exact ⟨_, hcircuit.answers.evaluate_eq_ok_iff.2 ⟨hcheck, rfl⟩⟩
    · rintro ⟨r, hr⟩
      exact (hcircuit.answers.evaluate_eq_ok_iff.1 hr).1
  · intro r hr
    exact (hcircuit.answers.mem_iff (Engine.length_values kind g) hr).2 hqueries

/-- The game answers whether it is won under the weights of its program. -/
theorem evaluate_own_query_game :
    ∃ (e : Entry ℚ) (r : Evaluation ℚ),
      (compile (.ofKind .worlds 20 100) true "win(T) :- heads(T)." headsAtThree ⟨win, 3⟩).outcome =
        .ok e ∧
      e.circuit.evaluate e.circuit.baseline = .ok r ∧ Term.compound "win" [.int 3] ∈ r := by
  have hcompiled : ((compile (.ofKind .worlds 20 100) true "win(T) :- heads(T)." headsAtThree
      ⟨win, 3⟩).outcome.toOption.map fun e : Entry ℚ =>
        e.circuit.baseline.check e.circuit.baseline.size) = some (.ok ()) := by decide +kernel
  obtain ⟨e, he, hcheck⟩ := Option.map_eq_some_iff.1 hcompiled
  have hd : ∀ d ∈ headsAtThree, d.template.Standard ∧ Time.Fits d.time := by
    intro d hd
    rw [List.mem_singleton.1 hd]
    exact ⟨standard_heads, by decide⟩
  have hown := evaluate_own_query (eq_ok_of_toOption he) (.inl (by decide)) hd timeless_win.writable
    (by decide) e.circuit.baseline
  obtain ⟨r, hr⟩ := hown.1.1 hcheck
  exact ⟨e, r, eq_ok_of_toOption he, hr, hown.2 r hr⟩

/-! ## A rule that is left open -/

/-- The query becomes the body of the rule that the program leaves open, and the entry answers nothing. -/
theorem evaluate_openRule :
    ∃ (e : Entry ℚ) (r : Evaluation ℚ),
      (compile (.ofKind .worlds 20 100) true "ready :-" [] ⟨win, 3⟩).outcome = .ok e ∧
      e.circuit.evaluate e.circuit.baseline = .ok r ∧ (⟨win, 3⟩ : Query).atom ∉ r := by
  have hcompiled : ((compile (.ofKind .worlds 20 100) true "ready :-" [] ⟨win, 3⟩).outcome.toOption.bind
      fun e : Entry ℚ => (e.circuit.evaluate e.circuit.baseline).toOption.map
        fun r => r.contains (⟨win, 3⟩ : Query).atom) = some false := by decide +kernel
  obtain ⟨e, he, hcompiled⟩ := Option.bind_eq_some_iff.1 hcompiled
  obtain ⟨r, hr, hnone⟩ := Option.map_eq_some_iff.1 hcompiled
  refine ⟨e, r, eq_ok_of_toOption he, eq_ok_of_toOption hr, ?_⟩
  rw [← Std.ExtTreeMap.contains_iff_mem, hnone]
  decide

end Entry

end TimedInference
