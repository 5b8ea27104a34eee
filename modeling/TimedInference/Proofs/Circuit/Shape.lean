import TimedInference.Engine.Basic
import TimedInference.Proofs.Grounding.GroundProgram
import TimedInference.Proofs.Program.Integers

/-!
# The shape of a ground program

What a circuit computes from weights follows from the number of choices, from which atoms are certain and
from how atoms refer to choices and to each other (`SameShape`).  The atoms themselves only name the
results, and the probabilities of choices are only the baseline.  So ground programs of one shape give
circuits that answer alike, up to the names of the queries (`Engine.circuit_sameShape`).
-/

namespace TimedInference

variable {α : Type}

/-! ## Shapes -/

/-- The definition of an atom without the atom. -/
def AtomDefinition.nameless (d : AtomDefinition) : AtomDefinition := { d with atom := .atom "" }

/-- Two ground programs that differ only in their atoms, where queries are renamed by a function, and in the
probabilities of choices. -/
structure SameShape (f : Term → Term) (g g' : GroundProgram α) : Prop where
  length_choices : g'.choices.length = g.choices.length
  atoms_eq : g'.atoms.map AtomDefinition.nameless = g.atoms.map AtomDefinition.nameless
  queries_eq : g'.queries = g.queries.map fun q => (f q.1, q.2)

/-- Mapping integers renames atoms and changes nothing else. -/
theorem SameShape.mapInts (m : Int → Int) (g : GroundProgram α) :
    SameShape (Term.mapInts m) g (g.mapInts m) where
  length_choices := List.length_map _
  atoms_eq := List.map_map
  queries_eq := rfl

variable {f : Term → Term} {g g' : GroundProgram α}

/-- Compilation to diagrams reads the shape only. -/
theorem SameShape.atomDiagrams_eq (h : SameShape f g g') : g'.atomDiagrams = g.atomDiagrams := by
  have hmap (g : GroundProgram α) : g.atomDiagrams =
      (g.atoms.map AtomDefinition.nameless).foldlM
        (fun known d => do return known.push (← GroundProgram.atomDiagram known d)) #[] := by
    rw [List.foldlM_map]
    rfl
  rw [hmap, hmap, h.atoms_eq]

/-- Which atoms are true in a world depends on the shape only. -/
theorem SameShape.truthValues_eq (h : SameShape f g g') (world : Nat) :
    g'.truthValues world = g.truthValues world := by
  have hmap (g : GroundProgram α) : g.truthValues world =
      (g.atoms.map AtomDefinition.nameless).foldl
        (fun known d => known.push (d.holds world known)) #[] := by
    rw [List.foldl_map]
    rfl
  rw [hmap, hmap, h.atoms_eq]

/-! ## Circuits -/

/-- What a map of a list gives is in the list. -/
theorem mem_of_getElem?_ofList {results : List (Term × α)} {q : Term} {p : α}
    (h : (Std.ExtTreeMap.ofList results : Evaluation α)[q]? = some p) : (q, p) ∈ results := by
  rw [Std.ExtTreeMap.ofList_eq_insertMany_empty, Std.ExtTreeMap.getElem?_insertMany_list,
    Std.ExtTreeMap.getElem?_empty, Option.or_none, List.findSomeRev?_eq_findSome?_reverse] at h
  obtain ⟨⟨q', p'⟩, hmem, hsome⟩ := List.exists_of_findSome?_eq_some h
  obtain ⟨heq, hp⟩ := Option.ite_none_right_eq_some.1 hsome
  rw [← Std.compare_eq_iff_eq.1 heq, ← Option.some.inj hp]
  exact List.mem_reverse.1 hmem

/-- The baseline has a weight for every choice. -/
theorem GroundProgram.size_baseline [Probability α] (g : GroundProgram α) :
    (Weights.ofList g.baseline).size = g.choices.length := by
  rw [Weights.size, Weights.ofList, List.size_toArray, baseline, List.length_map]

/-- A circuit that answers weights for a number of choices with one number for each query. -/
def Circuit.Answers (c : Circuit α) [Probability α] (count : Nat) (queries : List Term)
    (values : Weights α → List α) : Prop :=
  ∀ w, c.evaluate w =
    (w.check count).map fun _ => Std.ExtTreeMap.ofList (queries.zip (values w))

variable [Probability α]

namespace DiagramCircuit

/-- The probabilities of the queries' diagrams. -/
def values (c : DiagramCircuit α) (w : Weights α) : List α :=
  c.queries.map fun q => (c.store.probabilities w.values).getD q.2 0

/-- A compiled diagram answers the queries of its ground program. -/
theorem toCircuit_answers (g : GroundProgram α) :
    (compile g).toCircuit.Answers g.choices.length (g.queries.map (·.1)) (compile g).values := by
  intro w
  have hn : (compile g).baseline.size = g.choices.length := g.size_baseline
  show (compile g).evaluate w = _
  unfold evaluate
  rw [hn]
  cases w.check g.choices.length with
  | error e => rfl
  | ok u =>
    have hq : g.queries.map (·.1) = (compile g).queries.map (·.1) := by
      show _ = (g.queries.map _).map _
      rw [List.map_map]
      rfl
    show Except.ok _ = Except.ok _
    rw [hq, values, List.zip_map']

/-- The value of a query is the probability of its diagram; a query without an atom has that of
false. -/
theorem values_compile (g : GroundProgram α) (w : Weights α) :
    (compile g).values w = g.queries.map fun q =>
      ((g.atomDiagrams.run Diagram.Store.empty).2.probabilities w.values).getD
        (q.2.elim Diagram.falseRef fun i =>
          (g.atomDiagrams.run Diagram.Store.empty).1.getD i Diagram.falseRef) 0 := by
  show (g.queries.map _).map _ = _
  rw [List.map_map]
  rfl

/-- Ground programs of one shape have diagrams with the same values. -/
theorem values_eq (h : SameShape f g g') : (compile g').values = (compile g).values := by
  funext w
  rw [values_compile, values_compile, h.queries_eq, h.atomDiagrams_eq, List.map_map]
  rfl

end DiagramCircuit

namespace WorldCircuit

/-- An enumeration of worlds answers the queries of its ground program. -/
theorem toCircuit_answers (g : GroundProgram α) (named : Std.ExtTreeMap String Nat) :
    (WorldCircuit.mk g named).toCircuit.Answers g.choices.length (g.queries.map (·.1))
      (totals g) := by
  intro w
  show evaluate _ w = _
  unfold evaluate
  cases w.check g.choices.length <;> rfl

/-- Ground programs of one shape have the same totals over all worlds. -/
theorem totals_eq_of_sameShape (h : SameShape f g g') : totals g' = totals g := by
  funext w
  unfold totals
  rw [h.length_choices, h.queries_eq, List.map_map]
  congr 1
  funext world _ values
  simp only [addWorld, h.truthValues_eq, h.queries_eq, List.zipWith_map_right]

end WorldCircuit

/-! ## Engines -/

namespace Engine

/-- The circuit that a kind of engine makes of a ground program. -/
def circuit (kind : EngineKind) (maxChoices : Nat) (g : GroundProgram α) :
    Except EngineError (Circuit α) :=
  match kind with
  | .diagrams => .ok (DiagramCircuit.compile g).toCircuit
  | .worlds => (WorldCircuit.compile g maxChoices).map WorldCircuit.toCircuit

/-- An engine reads a text, grounds the program and makes a circuit. -/
theorem outcome_compile (kind : EngineKind) (maxChoices atomLimit : Nat) (text : String) :
    ((ofKind kind maxChoices atomLimit : Engine α).compile text).outcome =
      Program.ofText text >>= fun p =>
        (p.ground atomLimit).outcome >>= circuit kind maxChoices := by
  have hground : (groundText atomLimit text : Logged EngineError (GroundProgram α)).outcome =
      Program.ofText text >>= fun p => (p.ground atomLimit).outcome := Logged.outcome_bind _ _
  have hassoc (k : GroundProgram α → Except EngineError (Circuit α)) :
      ((Program.ofText text >>= fun p => (p.ground atomLimit).outcome) >>= k) =
        Program.ofText text >>= fun p => (p.ground atomLimit).outcome >>= k := by
    cases Program.ofText (α := α) text <;> rfl
  rw [← hassoc, ← hground]
  -- both engines read and ground the text alike, and report what they find
  cases kind with
  | diagrams =>
    refine (Logged.outcome_bind _ _).trans (congrArg _ (funext fun g => ?_))
    rfl
  | worlds =>
    refine (Logged.outcome_bind _ _).trans (congrArg _ (funext fun g => ?_))
    refine (Logged.outcome_bind _ _).trans ?_
    rw [circuit]
    show (WorldCircuit.compile g maxChoices >>= fun c => Except.ok c.toCircuit) = _
    cases WorldCircuit.compile g maxChoices <;> rfl

/-- What the circuit of a ground program is, besides its answers. -/
structure IsCircuitOf (g : GroundProgram α) (values : Weights α → List α) (c : Circuit α) : Prop where
  named_eq : c.named = g.named
  baseline_eq : c.baseline = .ofList g.baseline
  answers : c.Answers g.choices.length (g.queries.map (·.1)) values

/-- What a kind of engine computes from weights for the queries of a ground program. -/
def values (kind : EngineKind) (g : GroundProgram α) : Weights α → List α :=
  match kind with
  | .diagrams => (DiagramCircuit.compile g).values
  | .worlds => WorldCircuit.totals g

/-- What an engine compiles is a circuit of the ground program. -/
theorem isCircuitOf_values {kind : EngineKind} {maxChoices : Nat} {c : Circuit α}
    (hc : circuit kind maxChoices g = .ok c) : IsCircuitOf g (values kind g) c := by
  cases kind with
  | diagrams =>
    obtain rfl := Except.ok.inj hc
    exact ⟨rfl, rfl, DiagramCircuit.toCircuit_answers g⟩
  | worlds =>
    simp only [circuit, WorldCircuit.compile] at hc
    split at hc
    · simp [Except.map] at hc
    · obtain rfl := Except.ok.inj hc
      exact ⟨rfl, rfl, WorldCircuit.toCircuit_answers g g.named⟩

/-- With either engine, ground programs of one shape have the same values. -/
theorem values_eq_of_sameShape (h : SameShape f g g') (kind : EngineKind) :
    values kind g' = values kind g := by
  cases kind with
  | diagrams => exact DiagramCircuit.values_eq h
  | worlds => exact WorldCircuit.totals_eq_of_sameShape h

/-- The limit on choices is met by both ground programs of one shape or by neither. -/
theorem exists_circuit_of_sameShape (h : SameShape f g g') {kind : EngineKind} {maxChoices : Nat}
    {c : Circuit α} (hc : circuit kind maxChoices g = .ok c) :
    ∃ c', circuit kind maxChoices g' = .ok c' := by
  cases kind with
  | diagrams => exact ⟨_, rfl⟩
  | worlds =>
    simp only [circuit, WorldCircuit.compile] at hc ⊢
    rw [h.length_choices]
    split at hc
    · simp [Except.map] at hc
    · rename_i hmax
      rw [if_neg hmax]
      exact ⟨_, rfl⟩

/-- Ground programs of one shape have circuits that compute the same values. -/
theorem circuit_sameShape (h : SameShape f g g') {kind : EngineKind} {maxChoices : Nat}
    {c : Circuit α} (hc : circuit kind maxChoices g = .ok c) :
    ∃ c' values, circuit kind maxChoices g' = .ok c' ∧ IsCircuitOf g values c ∧
      IsCircuitOf g' values c' := by
  obtain ⟨c', hc'⟩ := exists_circuit_of_sameShape h hc
  refine ⟨c', values kind g, hc', isCircuitOf_values hc, ?_⟩
  rw [← values_eq_of_sameShape h]
  exact isCircuitOf_values hc'

end Engine

end TimedInference
