import TimedInference.Proofs.Cache.Settings
import TimedInference.Proofs.Circuit.Shape
import TimedInference.Proofs.Grounding.Names
import TimedInference.Proofs.Log.Success

/-!
# Answers of compiled programs

An entry can be compiled exactly when its text is a program that grounds and has a circuit
(`Entry.compile_eq_ok_iff`), and so can a cache for one query be built.  The entry answers every query of the
family at a time that its results can be moved to, and the answer is what the circuit computes from the
weights that events set (`Entry.exists_answer`).
-/

namespace TimedInference

open Syntax

variable {α : Type}

/-! ## Choices -/

theorem GroundProgram.lt_of_named {g : GroundProgram α} {text : String} {i : Nat}
    (h : g.named[text]? = some i) : i < g.choices.length := by
  obtain ⟨⟨c, hc, -⟩, -⟩ := named_eq_some_iff.1 h
  exact (List.getElem?_eq_some_iff.1 hc).1

/-! ## Translating results -/

/-- The results of queries have the queries as their keys. -/
theorem mem_of_mem_toList_ofList {queries : List Term} {values : List α} {r : Term × α}
    (h : r ∈ (Std.ExtTreeMap.ofList (queries.zip values) : Evaluation α).toList) :
    r.1 ∈ queries :=
  (List.of_mem_zip (mem_of_getElem?_ofList (Std.ExtTreeMap.mem_toList_iff_getElem?_eq_some.1 h))).1

variable [Probability α]

/-! ## Building -/

/-- An entry is compiled when the text for its query is a program that grounds and has a circuit. -/
theorem Entry.compile_eq_ok_iff {kind : EngineKind} {maxChoices atomLimit : Nat} {warnUnbound : Bool}
    {program : String} {declarations : List (Event α)} {query : Query} {e : Entry α} :
    (compile (.ofKind kind maxChoices atomLimit) warnUnbound program declarations query).outcome =
        .ok e ↔
      ∃ p g k, Program.ofText (programText program declarations query) = .ok p ∧
        (p.ground atomLimit).outcome = .ok g ∧ Engine.circuit kind maxChoices g = .ok k ∧
        ofCircuit program declarations query k = e := by
  rw [outcome_compile, Engine.outcome_compile]
  simp only [map_eq_ok, mapError_eq_ok, bind_eq_ok]
  constructor
  · rintro ⟨k, ⟨p, hp, g, hg, hk⟩, he⟩
    exact ⟨p, g, k, hp, hg, hk, he⟩
  · rintro ⟨p, g, k, hp, hg, hk, he⟩
    exact ⟨k, ⟨p, hp, g, hg, hk⟩, he⟩

/-- A cache for one query is built when the entry of the query is compiled. -/
theorem Cache.build_eq_ok_iff {kind : EngineKind} {maxChoices atomLimit : Nat} {warnUnbound : Bool}
    {declarations : List (Event α)} {query : Query} {program : String} {c : Cache α} :
    (build (.ofKind kind maxChoices atomLimit) warnUnbound declarations [query] program).outcome =
        .ok c ↔
      ∃ p g k, Program.ofText (Entry.programText program declarations query) = .ok p ∧
        (p.ground atomLimit).outcome = .ok g ∧ Engine.circuit kind maxChoices g = .ok k ∧
        ofEntry (Entry.ofCircuit program declarations query k) = c := by
  rw [outcome_build_singleton, map_eq_ok]
  simp only [Entry.compile_eq_ok_iff]
  constructor
  · rintro ⟨_, ⟨p, g, k, hp, hg, hk, rfl⟩, hc⟩
    exact ⟨p, g, k, hp, hg, hk, hc⟩
  · rintro ⟨p, g, k, hp, hg, hk, hc⟩
    exact ⟨_, ⟨p, g, k, hp, hg, hk, rfl⟩, hc⟩

/-! ## Answering -/

/-- The baseline of a readable program has a probability for every choice. -/
theorem Program.Readable.check_baseline {p : Program α} (hp : p.Readable) {limit : Nat}
    {g : GroundProgram α} (hg : (p.ground limit).outcome = .ok g) :
    (Weights.ofList g.baseline).check g.choices.length = .ok () := by
  refine Weights.check_eq_ok_iff.2 ⟨?_, fun q hq => ?_⟩
  · exact g.size_baseline
  · obtain ⟨choice, hchoice, rfl⟩ := List.mem_map.1 (List.mem_toArray.1 hq)
    exact (hp.clauses _ (mem_chances_of_mem_choices hg hchoice)).1

/-- Whatever events set can be set in the baseline: every node that a declared fact names has a weight. -/
theorem GroundProgram.exists_setAll_settings (g : GroundProgram α) (declarations events : List (Event α))
    (shift : Int) :
    ∃ w, (Weights.ofList g.baseline).setAll (Entry.settings declarations events g.named shift) =
      .ok w := by
  refine Weights.exists_setAll fun s hs => ?_
  obtain ⟨d, -, hd⟩ := List.mem_filterMap.1 hs
  obtain ⟨node, hnode, rfl⟩ := Option.map_eq_some_iff.1 hd
  refine ⟨?_, Event.inUnit_probabilityAt _ _ _⟩
  rw [g.size_baseline]
  exact GroundProgram.lt_of_named hnode

/-- The entry of a readable program answers with what its circuit computes from the weights that events
set. -/
theorem Entry.exists_answer {p : Program α} (hp : p.Readable) {limit : Nat} {g : GroundProgram α}
    (hg : (p.ground limit).outcome = .ok g) {values : Weights α → List α} {c : Circuit α}
    (hc : Engine.IsCircuitOf g values c) {declarations events : List (Event α)}
    (hd : ∀ d ∈ declarations, d.template.Standard ∧ Time.Fits d.time)
    (he : ∀ e ∈ events, e.template.Standard) (program : String) (query asked : Query)
    (ht : Time.Fits (asked.time - query.time)) {f : Term → Term}
    (hf : ∀ q ∈ g.queries.map (·.1),
      asked.template.translate q (asked.time - query.time) = .ok (f q)) :
    ∃ w, (Weights.ofList g.baseline).setAll
        (settings declarations events g.named (asked.time - query.time)) = .ok w ∧
      (ofCircuit program declarations query c).answer asked events =
        .ok ((∅ : Evaluation α).insertMany
          ((Std.ExtTreeMap.ofList ((g.queries.map (·.1)).zip (values w)) : Evaluation α).toList.map
            fun r => (f r.1, r.2))) := by
  obtain ⟨w, hw⟩ := g.exists_setAll_settings declarations events (asked.time - query.time)
  have hcheck : w.check g.choices.length = .ok () :=
    Weights.check_of_setAll hw (hp.check_baseline hg)
  have heval : c.evaluate w = .ok (Std.ExtTreeMap.ofList ((g.queries.map (·.1)).zip (values w))) := by
    rw [hc.answers w, hcheck]
    rfl
  refine ⟨w, hw, ?_⟩
  have hshift : Time.shiftFrom query.time asked.time = .ok (asked.time - query.time) :=
    Time.shiftFrom_eq_ok_iff.2 ⟨ht, rfl⟩
  have hassign := assign_ofCircuit hd he program query c (asked.time - query.time)
  rw [hc.named_eq, hc.baseline_eq, hw] at hassign
  have hkeys (r : Term × α) (hr : r ∈ (Std.ExtTreeMap.ofList
      ((g.queries.map (·.1)).zip (values w)) : Evaluation α).toList) := mem_of_mem_toList_ofList hr
  generalize (Std.ExtTreeMap.ofList ((g.queries.map (·.1)).zip (values w)) : Evaluation α) = raw
    at heval hkeys ⊢
  have hmoved : (raw.toList.mapM fun r =>
      (asked.template.translate r.1 (asked.time - query.time)).map fun atom => (atom, r.2)) =
        .ok (raw.toList.map fun r => (f r.1, r.2)) :=
    mapM_eq_ok_map fun r hr => by
      rw [hf r.1 (hkeys r hr)]
      rfl
  unfold answer
  have hbase : (ofCircuit program declarations query c).base = query.time := rfl
  have hcircuit : (ofCircuit program declarations query c).circuit = c := rfl
  simp only [hbase, hcircuit, hshift, Except.mapError, bind, Except.bind, hassign, heval, hmoved]
  rfl

end TimedInference
