import TimedInference.Number.Rational
import TimedInference.Proofs.Cache.Reuse
import TimedInference.Proofs.Cache.Sources
import TimedInference.Proofs.Grounding.Timestamps
import TimedInference.Proofs.Log.Success
import TimedInference.Proofs.Template.Assembly

/-!
# Setting weights and rewriting the program

What a cache answers over events is what its text answers when every declared fact is given the probability
of its first event before it is compiled (`Cache.evaluate_eq_compiled`).  The declared facts are different
from each other for this, and the query's own text holds none of them: after the text of such a query the
declared fact is not the last choice with its atom, and events set the wrong weight
(`Cache.evaluate_ne_compiled`).
-/

namespace TimedInference

open Syntax

/-! ## Results at the time of the entry -/

/-- Moving an atom by nothing leaves it. -/
theorem Term.moveArg_zero {t : Term} (h : ∀ n ∈ t.integers, Time.Fits n) (i : Nat) :
    t.moveArg i 0 = .ok t := by
  cases harg : t.intArg? i with
  | none => exact moveArg_of_intArg?_eq_none harg 0
  | some time =>
    cases t with
    | compound f ts =>
      obtain ⟨u, hu, htime⟩ := Option.bind_eq_some_iff.1 harg
      cases u with
      | int n =>
        obtain rfl := Option.some.inj htime
        have hts : ts[i]? = some (.int n) := hu
        obtain ⟨hi, hget⟩ := List.getElem?_eq_some_iff.1 hts
        have hfits : Time.Fits (n + 0) := by
          rw [Int.add_zero]
          refine h n ?_
          rw [integers, allIntegers_eq_flatMap, List.mem_flatMap]
          exact ⟨_, List.mem_of_getElem? hts, List.mem_singleton_self n⟩
        rw [moveArg_of_intArg? harg hfits, Int.add_zero, withArg, ← hget, List.set_getElem_self]
      | _ => simp [int?] at htime
    | _ => simp [intArg?, args] at harg

/-- A table with the rows of another is this table. -/
theorem insertMany_toList {β : Type} (m : TermMap β) : (∅ : TermMap β).insertMany m.toList = m := by
  refine Std.ExtTreeMap.ext_getElem? fun k => ?_
  cases hk : m[k]? with
  | some v =>
    exact Std.ExtTreeMap.getElem?_insertMany_list_of_mem Std.ReflCmp.compare_self
      Std.ExtTreeMap.distinct_keys_toList (Std.ExtTreeMap.mem_toList_iff_getElem?_eq_some.2 hk)
  | none =>
    have hkeys : (m.toList.map Prod.fst).contains k = false := by
      rw [List.contains_eq_mem, decide_eq_false_iff_not, List.mem_map]
      rintro ⟨⟨k', v⟩, hmem, rfl⟩
      rw [Std.ExtTreeMap.mem_toList_iff_getElem?_eq_some, hk] at hmem
      simp at hmem
    rw [Std.ExtTreeMap.getElem?_insertMany_list_of_contains_eq_false hkeys]
    rfl

variable {α : Type} [Probability α]

/-! ## Given probabilities -/

namespace Event

variable {events : List (Event α)} (hread : ∀ e ∈ events, Probability.ReadsBack e.probability)
include hread

theorem readsBack_probabilityAt (identifier : String) (time : Int) :
    Probability.ReadsBack (probabilityAt events identifier time) := by
  unfold probabilityAt
  cases hfind : events.find? fun e => e.identifier = identifier ∧ e.time = time with
  | none => exact Probability.readsBack_zero
  | some e => exact hread e (List.mem_of_find?_eq_some hfind)

/-- Declared facts with the probabilities of events are read as the clauses they write. -/
theorem plain_given {d : Event α} (hs : d.template.Standard) (ht : Time.Fits d.time) :
    (d.given events).Plain :=
  ⟨hs, ht, readsBack_probabilityAt hread d.identifier d.time⟩

end Event

namespace Sources

variable {before after : Program α} {declarations : List (Event α)}

/-- Giving probabilities to declared facts changes only probabilities. -/
theorem sameUpToWeights (events : List (Event α)) :
    (program before after (declared declarations)).SameUpToWeights
      (program before after (declarations.map (·.given events))) where
  clauses := by
    simp only [program, declared, Program.clauses_append, List.map_append, List.map_map]
    rfl
  queries := rfl

/-- The text that is compiled for a query has a program before the facts and one after them, whatever the
probabilities of the facts are. -/
theorem exists_program_of_ofText {text : String}
    (hd : ∀ d ∈ declarations, d.template.Standard ∧ Time.Fits d.time) {query : Query}
    (hq : ∀ own : Program α, Program.ofText query.text = .ok own →
      ∀ d ∈ declarations, ∀ q, Clause.chance q d.atom ∉ own.clauses)
    {p : Program α} (hp : Program.ofText (Entry.programText text declarations query) = .ok p) :
    ∃ before after : Program α, p = program before after (declared declarations) ∧
      (∀ f : Event α → Event α, (∀ d ∈ declarations, (f d).Plain) →
        Program.ofText (factLines text (declarations.map f) query) =
          .ok (program before after (declarations.map f))) ∧
      ∀ d ∈ declarations, ∀ q, Clause.chance q d.atom ∉ after.clauses := by
  by_cases hne : declarations = []
  · -- without declarations nothing is told apart
    subst hne
    have hempty : program p ⟨[], []⟩ [] = p := by
      show (⟨p.clauses ++ ([] ++ []), p.queries ++ ([] ++ [])⟩ : Program α) = p
      simp only [List.append_nil]
    refine ⟨p, ⟨[], []⟩, hempty.symm, fun f _ => ?_, by simp⟩
    rw [programText_eq_factLines] at hp
    rw [List.map_nil, hempty]
    exact hp
  · obtain ⟨before, after, own, -, hfacts, hown, hchances⟩ := exists_parts_of_ofText hne hd hp
    refine ⟨before, after, ?_, fun f hf => hfacts _ (List.forall_mem_map.2 hf), fun d hdm q hmem => ?_⟩
    · rw [programText_eq_factLines, hfacts _ (plain_of_declared hd)] at hp
      exact (Except.ok.inj hp).symm
    · exact hq own hown d hdm q (hchances q d.atom rfl hmem)

/-- With given probabilities the program has a circuit as well.  It computes the same values for the same
queries, and its baseline is what events set in the baseline of the program with the declared facts. -/
theorem exists_circuit_given (hp : (program before after (declared declarations)).Readable)
    (hstandard : ∀ d ∈ declarations, d.template.Standard)
    (hdistinct : declarations.Pairwise fun d e => ¬(d.identifier = e.identifier ∧ d.time = e.time))
    (hafter : ∀ d ∈ declarations, ∀ q, Clause.chance q d.atom ∉ after.clauses)
    {kind : EngineKind} {maxChoices limit : Nat} {g : GroundProgram α}
    (hg : ((program before after (declared declarations)).ground limit).outcome = .ok g)
    {c : Circuit α} (hc : Engine.circuit kind maxChoices g = .ok c) (events : List (Event α)) :
    ∃ g' c' values,
      ((program before after (declarations.map (·.given events))).ground limit).outcome = .ok g' ∧
      Engine.circuit kind maxChoices g' = .ok c' ∧ g'.queries = g.queries ∧
      Engine.IsCircuitOf g values c ∧ Engine.IsCircuitOf g' values c' ∧
      ∀ w, (Weights.ofList g.baseline).setAll (Entry.settings declarations events g.named 0) = .ok w →
        w = .ofList g'.baseline := by
  -- both programs ground alike, up to the probabilities of their choices
  have hsame : (program before after (declared declarations)).SameUpToWeights
      (program before after (declarations.map (·.given events))) := sameUpToWeights events
  obtain ⟨relevant, hchoices, hg'⟩ := Program.exists_ground_of_sameUpToWeights hsame hg
  have hatoms := hsame.map_atom_relevantChoices_eq relevant
  rw [← hchoices] at hatoms
  obtain ⟨c', values, hc', hanswers, hanswers'⟩ :=
    Engine.circuit_sameShape (SameShape.of_choices hatoms) hc
  refine ⟨_, c', values, hg', hc', rfl, hanswers, hanswers', fun w hw => ?_⟩
  -- the weights that events set are the given probabilities of the choices
  have hlexical : ∀ choice ∈ g.choices, choice.atom.Lexical := fun choice hchoice =>
    (hp.clauses _ (Program.mem_chances_of_mem_choices hg hchoice)).2.lexical
  have hweights := eq_of_setAll (hchoices.trans relevantChoices_declared) hlexical hstandard
    (pairwise_sources hdistinct hafter) hdistinct hw
  rw [hweights, ← relevantChoices_given events]
  rfl

end Sources

/-! ## Caches -/

/-- An entry answers the query that it is compiled for without moving anything. -/
theorem Entry.exists_answer_own {p : Program α} (hp : p.Readable) {limit : Nat} {g : GroundProgram α}
    (hg : (p.ground limit).outcome = .ok g) {values : Weights α → List α} {c : Circuit α}
    (hc : Engine.IsCircuitOf g values c) {declarations events : List (Event α)}
    (hd : ∀ d ∈ declarations, d.template.Standard ∧ Time.Fits d.time)
    (he : ∀ e ∈ events, e.template.Standard) (program : String) (query : Query) :
    ∃ w, (Weights.ofList g.baseline).setAll (settings declarations events g.named 0) = .ok w ∧
      (ofCircuit program declarations query c).answer query events =
        .ok (Std.ExtTreeMap.ofList ((g.queries.map (·.1)).zip (values w))) := by
  have hzero : query.time - query.time = 0 := Int.sub_self query.time
  have hfits : Time.Fits (query.time - query.time) := by
    rw [hzero]
    decide
  have hresult : ∀ q ∈ g.queries.map (·.1),
      query.template.translate q (query.time - query.time) = .ok (id q) := by
    intro q hqm
    rw [hzero, QueryTemplate.translate, Term.moveArg_zero (Program.fits_of_mem_queries hp hg hqm)]
    rfl
  obtain ⟨w, hw, hanswer⟩ := exists_answer hp hg hc hd he program query query hfits hresult
  rw [hzero] at hw
  refine ⟨w, hw, ?_⟩
  have hrows (m : Evaluation α) : m.toList.map (fun r => (id r.1, r.2)) = m.toList := List.map_id' _
  rw [hanswer, hrows, insertMany_toList]

/-- What a cache answers over events is what the text answers that gives every declared fact the probability
of its first event. -/
theorem Cache.evaluate_eq_compiled (kind : EngineKind) (maxChoices atomLimit : Nat)
    (warnUnbound : Bool) {program : String} {declarations : List (Event α)}
    (hd : ∀ d ∈ declarations, d.template.Standard ∧ Time.Fits d.time)
    (hdistinct : declarations.Pairwise fun d e => ¬(d.identifier = e.identifier ∧ d.time = e.time))
    {query : Query}
    (hq : ∀ own : Program α, Program.ofText query.text = .ok own →
      ∀ d ∈ declarations, ∀ q, Clause.chance q d.atom ∉ own.clauses)
    {c : Cache α} (hc : (build (.ofKind kind maxChoices atomLimit) warnUnbound declarations [query]
      program).outcome = .ok c) {events : List (Event α)} (he : ∀ e ∈ events, e.template.Standard)
    (hread : ∀ e ∈ events, Probability.ReadsBack e.probability) :
    ∃ k r, ((Engine.ofKind kind maxChoices atomLimit).compile
        (factLines program (declarations.map (·.given events)) query)).outcome = .ok k ∧
      k.evaluate k.baseline = .ok r ∧ (c.evaluate [query] events false).outcome = .ok r := by
  obtain ⟨p, g, k, hp, hg, hk, rfl⟩ := build_eq_ok_iff.1 hc
  have hreadable := Program.readable_of_ofText hp
  have hstandard := fun d hdm => (hd d hdm).1
  obtain ⟨before, after, rfl, htext, hafter⟩ := Sources.exists_program_of_ofText hd hq hp
  have hgiven := htext (·.given events) fun d hdm =>
    Event.plain_given hread (hstandard d hdm) (hd d hdm).2
  obtain ⟨g', k', values, hg', hk', hqueries, hanswers, hanswers', hweights⟩ :=
    Sources.exists_circuit_given hreadable hstandard hdistinct hafter hg hk events
  obtain ⟨w, hw, hanswer⟩ := Entry.exists_answer_own hreadable hg hanswers hd he program query
  obtain rfl := hweights w hw
  have hcheck := (Program.readable_of_ofText hgiven).check_baseline hg'
  refine ⟨k', Std.ExtTreeMap.ofList ((g.queries.map (·.1)).zip (values (.ofList g'.baseline))),
    ?_, ?_, ?_⟩
  · rw [Engine.outcome_compile, hgiven]
    show (Program.ground _ atomLimit).outcome >>= _ = _
    rw [hg']
    exact hk'
  · rw [hanswers'.baseline_eq, hanswers'.answers, hcheck, hqueries]
    rfl
  · rw [outcome_evaluate _ _ rfl, hanswer]

/-- A game whose coin shows heads at time 3 with a known probability as well. -/
def biasedGame : String := "0.25::heads(3). win(T) :- heads(T)."

/-- The coin at time 3. -/
def coinAtThree : List (Event Float) := [.declaration heads 3]

/-- Heads were seen at time 3 with probability a half. -/
def seenHeads : List (Event Float) := [⟨heads, 3, 0.5, by decide +kernel⟩]

theorem standard_of_mem_coinAtThree : ∀ d ∈ coinAtThree, d.template.Standard ∧ Time.Fits d.time := by
  intro d hd
  rw [List.mem_singleton.1 hd]
  exact ⟨standard_heads, by decide⟩

theorem standard_of_mem_seenHeads :
    ∀ e ∈ seenHeads, e.template.Standard ∧ Probability.ReadsBack e.probability := by
  intro e he
  have htext : Probability.text (0.5 : Float) = "0.5" := by decide +kernel
  have hread : Decimal.read? "0.5".toList = some ⟨5, -1⟩ := by decide
  rw [List.mem_singleton.1 he]
  refine ⟨standard_heads, ?_⟩
  show (Decimal.read? (Probability.text (0.5 : Float)).toList).map Probability.ofDecimal = some 0.5
  rw [htext, hread]
  decide +kernel

/-- The coin that was seen and the coin of the program are both tossed in the rewritten game. -/
theorem Cache.evaluate_eq_compiled_game :
    ∃ (c : Cache Float) (k : Circuit Float) (r : Evaluation Float),
      (build (.ofKind .diagrams 20 100) true coinAtThree [⟨win, 3⟩] biasedGame).outcome = .ok c ∧
      ((Engine.ofKind .diagrams 20 100).compile
        (factLines biasedGame (coinAtThree.map (·.given seenHeads)) ⟨win, 3⟩)).outcome = .ok k ∧
      k.evaluate k.baseline = .ok r ∧
      (c.evaluate [⟨win, 3⟩] seenHeads false).outcome = .ok r := by
  have hok : (build (.ofKind .diagrams 20 100) true coinAtThree [⟨win, 3⟩]
      biasedGame).outcome.toOption.isSome = true := by decide +kernel
  have hquery : Program.ofText (Query.mk win 3).text =
      .ok (⟨[], [.compound "win" [.int 3]]⟩ : Program Float) := by decide +kernel
  obtain ⟨c, hc⟩ := Option.isSome_iff_exists.1 hok
  obtain ⟨k, r, hk, hr, heval⟩ := evaluate_eq_compiled .diagrams 20 100 true
    standard_of_mem_coinAtThree (List.pairwise_singleton _ _)
    (fun own hown d _ q hmem => by
      obtain rfl := Except.ok.inj (hquery.symm.trans hown)
      simp at hmem)
    (eq_ok_of_toOption hc) (fun e he => (standard_of_mem_seenHeads e he).1)
    fun e he => (standard_of_mem_seenHeads e he).2
  exact ⟨c, k, r, eq_ok_of_toOption hc, hk, hr, heval⟩

/-- A query whose text has a fact before the atom that it asks for. -/
def tossAndAsk : Query := ⟨⟨"heads(3)). 0.5::heads(3). query(heads", [], 0, none⟩, 3⟩

/-- The fact in the query's text is the last choice with the declared atom, so events set its weight and not
that of the declaration. -/
theorem Cache.evaluate_ne_compiled :
    (∀ d ∈ coinAtThree, d.template.Standard ∧ Time.Fits d.time) ∧
      (∀ e ∈ seenHeads, e.template.Standard ∧ Probability.ReadsBack e.probability) ∧
      ∃ (c : Cache Float) (k : Circuit Float) (r r' : Evaluation Float),
        (build (.ofKind .worlds 20 100) true coinAtThree [tossAndAsk] "").outcome = .ok c ∧
        ((Engine.ofKind .worlds 20 100).compile
          (factLines "" (coinAtThree.map (·.given seenHeads)) tossAndAsk)).outcome = .ok k ∧
        (c.evaluate [tossAndAsk] seenHeads false).outcome = .ok r ∧
        k.evaluate k.baseline = .ok r' ∧
        r[Term.compound "heads" [.int 3]]? = some 0.5 ∧
        r'[Term.compound "heads" [.int 3]]? = some 0.75 := by
  refine ⟨standard_of_mem_coinAtThree, standard_of_mem_seenHeads, ?_⟩
  have hcached : ((build (.ofKind .worlds 20 100) true coinAtThree [tossAndAsk]
      "").outcome.toOption.bind fun c =>
        (c.evaluate [tossAndAsk] seenHeads false).outcome.toOption.bind
          (·[Term.compound "heads" [.int 3]]?)) = some 0.5 := by decide +kernel
  have hcompiled : (((Engine.ofKind .worlds 20 100).compile (factLines ""
      (coinAtThree.map (·.given seenHeads)) tossAndAsk)).outcome.toOption.bind fun k =>
        (k.evaluate k.baseline).toOption.bind (·[Term.compound "heads" [.int 3]]?)) =
          some 0.75 := by decide +kernel
  obtain ⟨c, hc, hcached⟩ := Option.bind_eq_some_iff.1 hcached
  obtain ⟨r, hr, hvalue⟩ := Option.bind_eq_some_iff.1 hcached
  obtain ⟨k, hk, hcompiled⟩ := Option.bind_eq_some_iff.1 hcompiled
  obtain ⟨r', hr', hvalue'⟩ := Option.bind_eq_some_iff.1 hcompiled
  exact ⟨c, k, r, r', eq_ok_of_toOption hc, eq_ok_of_toOption hk, eq_ok_of_toOption hr,
    eq_ok_of_toOption hr', hvalue, hvalue'⟩

end TimedInference
