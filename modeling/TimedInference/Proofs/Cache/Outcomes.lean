import TimedInference.Cache.Basic

/-!
# What caches give

Building a cache and asking it, without the reports that both make: a cache holds the compiled entries of
the first queries of their families (`Cache.outcome_build`), and asking a cache of one entry for one query
without feedback moves the events to the entry, sets the weights, evaluates the circuit and moves the
results back (`Cache.outcome_evaluate`).
-/

namespace TimedInference

variable {α : Type} [Probability α]

namespace Entry

/-- The entry of a query whose text is compiled to a circuit. -/
def ofCircuit (program : String) (declarations : List (Event α)) (query : Query) (c : Circuit α) :
    Entry α where
  identifier := query.identifier
  base := query.time
  circuit := c
  tracked := (Binding.ofDeclarations declarations c.named).tracked
  unbound := (Binding.ofDeclarations declarations c.named).unbound
  digest := Blake3.hex (programText program declarations query)

/-- An entry holds the circuit that the engine compiles from the text of the query. -/
theorem outcome_compile (engine : Engine α) (warnUnbound : Bool) (program : String)
    (declarations : List (Event α)) (query : Query) :
    (compile engine warnUnbound program declarations query).outcome =
      ((engine.compile (programText program declarations query)).outcome.mapError
        CacheError.engine).map (ofCircuit program declarations query) := by
  unfold compile
  simp only [Logged.outcome_bind, Logged.outcome_report, Logged.outcome_mapError]
  cases (engine.compile (programText program declarations query)).outcome with
  | error e => rfl
  | ok c => cases warnUnbound <;> rfl

/-- The results of an entry for a query over events. -/
def answer (e : Entry α) (query : Query) (events : List (Event α)) :
    Except CacheError (Evaluation α) := do
  let shift ← (Time.shiftFrom e.base query.time).mapError .overflow
  let weights ← (e.assign (Event.rebase events shift)).mapError .engine
  let raw ← (e.circuit.evaluate weights).mapError .engine
  let moved ← raw.toList.mapM fun r =>
    (query.template.translate r.1 shift).map fun atom => (atom, r.2)
  return (∅ : Evaluation α).insertMany moved

end Entry

namespace Cache

/-- The cache of one entry. -/
def ofEntry (e : Entry α) : Cache α := ⟨Std.ExtTreeMap.ofList [(e.identifier, e)]⟩

/-- Building a cache compiles the first query of every family. -/
theorem outcome_build (engine : Engine α) (warnUnbound : Bool) (declarations : List (Event α))
    (queries : List Query) (program : String) :
    (build engine warnUnbound declarations queries program).outcome =
      ((Query.splitRepeats [] queries).1.mapM fun q =>
        (Entry.compile engine warnUnbound program declarations q).outcome).map fun entries =>
          ⟨Std.ExtTreeMap.ofList (entries.map fun e => (e.identifier, e))⟩ := by
  unfold build
  simp only [Logged.outcome_bind, Logged.outcome_reports, Logged.outcome_mapM]
  -- the reports before the entries do not fail
  show (List.mapM (m := Except CacheError) _ _ >>= _) = _
  cases (Query.splitRepeats [] queries).1.mapM fun q =>
    (Entry.compile engine warnUnbound program declarations q).outcome <;> rfl

/-- The cache for one query is that of its entry. -/
theorem outcome_build_singleton (engine : Engine α) (warnUnbound : Bool)
    (declarations : List (Event α)) (query : Query) (program : String) :
    (build engine warnUnbound declarations [query] program).outcome =
      (Entry.compile engine warnUnbound program declarations query).outcome.map ofEntry := by
  have hfirst : (Query.splitRepeats [] [query]).1 = [query] := rfl
  rw [outcome_build, hfirst, List.mapM_cons, List.mapM_nil]
  cases (Entry.compile engine warnUnbound program declarations query).outcome <;> rfl

/-- What a planned query gives: weights are set, the circuit is evaluated, and the results are moved to
the query's time. -/
theorem outcome_results (p : Planned α) (events : List (Event α)) (shift : Int) :
    (results p events shift).outcome =
      (p.entry.assign (Event.rebase events shift)).mapError CacheError.engine >>= fun weights =>
        (p.entry.circuit.evaluate weights).mapError CacheError.engine >>= fun raw =>
          (raw.toList.mapM fun r =>
            (p.query.template.translate r.1 shift).map fun atom => (atom, r.2)) >>= fun moved =>
              .ok (raw, moved) := by
  have hmapM (raw : Evaluation α) :
      (raw.toList.mapM fun r => (do
        let atom ← p.query.template.translate r.1 shift
        return (atom, r.2) : Logged CacheError (Term × α))).outcome =
      raw.toList.mapM fun r =>
        (p.query.template.translate r.1 shift).map fun atom => (atom, r.2) := by
    rw [Logged.outcome_mapM]
    congr 1
    funext r
    rw [Logged.outcome_bind]
    show p.query.template.translate r.1 shift >>= _ = _
    cases p.query.template.translate r.1 shift <;> rfl
  unfold results
  simp only [Logged.outcome_bind, Logged.outcome_reports, Logged.outcome_report, hmapM]
  rfl

/-- The cache of one entry answers a query of its family with the answer of the entry. -/
theorem outcome_evaluate (e : Entry α) (query : Query) (h : query.identifier = e.identifier)
    (events : List (Event α)) :
    ((ofEntry e).evaluate [query] events false).outcome = e.answer query events := by
  have hentry : (ofEntry e).entries[query.identifier]? = some e := by
    rw [h, ofEntry]
    exact Std.ExtTreeMap.getElem?_ofList_of_mem Std.ReflCmp.compare_self (by simp) (by simp)
  have hplan : [query].mapM ((ofEntry e).plan false) = .ok [⟨query, e, none⟩] := by
    rw [List.mapM_cons, List.mapM_nil, plan, hentry]
    rfl
  unfold evaluate
  simp only [Logged.outcome_bind, Logged.outcome_report, Logged.outcome_ofExcept, hplan]
  have hanswer : (answer [⟨query, e, none⟩] events ∅).outcome = e.answer query events := by
    unfold answer Entry.answer
    simp only [Logged.outcome_bind, outcome_results, derived, bind_assoc]
    rfl
  show (answer [⟨query, e, none⟩] events ∅).outcome >>= _ = _
  rw [hanswer]
  cases e.answer query events <;> rfl

end Cache

end TimedInference
