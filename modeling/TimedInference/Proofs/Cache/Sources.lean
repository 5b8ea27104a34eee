import TimedInference.Proofs.Cache.Answers
import TimedInference.Proofs.Grounding.Probabilities

/-!
# Where choices come from

The choices of a compiled program are the relevant probabilistic facts of the base program, of the
declarations and of the query's text, in this order.  A declared fact that occurs once among the
declarations and not after them is the last choice with its atom, so its text names it
(`Sources.named_eq`), and events set the weights of the choices that are declared and of no others
(`Sources.eq_of_setAll`).
-/

namespace TimedInference

open Syntax

variable {α : Type} [Probability α]

/-! ## Given probabilities -/

/-- The declared fact with the probability of its first event. -/
def Event.given (d : Event α) (events : List (Event α)) : Event α where
  template := d.template
  time := d.time
  probability := probabilityAt events d.identifier d.time
  inUnit := inUnit_probabilityAt events d.identifier d.time

/-- A choice, with the declaration that it comes from, if there is one. -/
abbrev Source (α : Type) [Probability α] := Choice α × Option (Event α)

namespace Source

/-- A choice that comes from no declaration. -/
def ofChance (c : Term × α) : Source α := (⟨c.1, c.2⟩, none)

/-- The choice of a declared fact. -/
def ofDeclaration (d : Event α) : Source α := (⟨d.atom, 0⟩, some d)

/-- The probability of a choice when declared facts are given probabilities. -/
def given (events : List (Event α)) (s : Source α) : α :=
  match s.2 with
  | none => s.1.probability
  | some d => Event.probabilityAt events d.identifier d.time

end Source

/-- The sources of the relevant choices. -/
def sources (before after : Program α) (declarations : List (Event α)) (relevant : TermSet) :
    List (Source α) :=
  (before.chances.map Source.ofChance ++ declarations.map Source.ofDeclaration ++
    after.chances.map Source.ofChance).filter fun s => relevant.contains s.1.atom

namespace Sources

variable {before after : Program α} {declarations : List (Event α)} {relevant : TermSet}

/-- The program that is compiled for facts between two programs. -/
def program (before after : Program α) (facts : List (Event α)) : Program α :=
  before ++ (⟨facts.map Event.clause, []⟩ ++ after)

theorem chances_program (before after : Program α) (facts : List (Event α)) :
    (program before after facts).chances =
      before.chances ++ (facts.map fun e => (e.atom, e.probability)) ++ after.chances := by
  have hfacts : (⟨facts.map Event.clause, []⟩ : Program α).chances =
      facts.map fun e => (e.atom, e.probability) := by
    rw [Program.chances, List.filterMap_map, ← List.filterMap_eq_map]
    rfl
  rw [program, Program.chances_append, Program.chances_append, hfacts, List.append_assoc]

/-- The choices of the program with the declared facts are those of the sources. -/
theorem relevantChoices_declared :
    (program before after (declared declarations)).relevantChoices relevant =
      (sources before after declarations relevant).map (·.1) := by
  rw [Program.relevantChoices, chances_program, sources, declared]
  simp only [List.filter_append, List.map_append, List.filter_map, List.map_map]
  rfl

theorem relevantChoices_given (events : List (Event α)) :
    ((program before after (declarations.map (·.given events))).relevantChoices relevant).map
        (·.probability) =
      (sources before after declarations relevant).map (Source.given events) := by
  rw [Program.relevantChoices, chances_program, sources]
  simp only [List.filter_append, List.map_append, List.filter_map, List.map_map]
  rfl

/-! ## Names -/

/-- Two declarations of one atom are about the same fact. -/
theorem Event.atom_inj {d e : Event α} (h : d.atom = e.atom) :
    d.identifier = e.identifier ∧ d.time = e.time := by
  simpa [Event.atom, FactTemplate.atom, Event.identifier] using h

variable {s : Source α} {d : Event α}

/-- A source of a declaration is that of a declared fact. -/
theorem eq_ofDeclaration (hs : s ∈ sources before after declarations relevant)
    (hd : s.2 = some d) : d ∈ declarations ∧ s = .ofDeclaration d := by
  have hmem := (List.mem_filter.1 hs).1
  rw [List.mem_append, List.mem_append, List.mem_map, List.mem_map, List.mem_map] at hmem
  obtain (⟨c, -, rfl⟩ | ⟨e, he, rfl⟩) | ⟨c, -, rfl⟩ := hmem
  · simp [Source.ofChance] at hd
  · obtain rfl := Option.some.inj hd
    exact ⟨he, rfl⟩
  · simp [Source.ofChance] at hd

/-- No choice after that of a declared fact has its atom. -/
theorem pairwise_sources
    (hdistinct : declarations.Pairwise fun d e => ¬(d.identifier = e.identifier ∧ d.time = e.time))
    (hafter : ∀ d ∈ declarations, ∀ q, Clause.chance q d.atom ∉ after.clauses) :
    (sources before after declarations relevant).Pairwise fun s t =>
      ∀ d, s.2 = some d → t.1.atom ≠ d.atom := by
  refine List.Pairwise.filter _ ?_
  have hbefore {c : Term × α} {t : Source α} :
      ∀ d, (Source.ofChance c).2 = some d → t.1.atom ≠ d.atom := by
    simp [Source.ofChance]
  rw [List.append_assoc, List.pairwise_append, List.pairwise_append, List.pairwise_map,
    List.pairwise_map, List.pairwise_map]
  refine ⟨List.pairwise_of_forall fun _ _ => hbefore,
    ⟨?_, List.pairwise_of_forall fun _ _ => hbefore, ?_⟩, ?_⟩
  · refine hdistinct.imp fun hne f hf => ?_
    obtain rfl := Option.some.inj hf
    exact fun heq => hne (Event.atom_inj heq.symm)
  · intro s hs t ht f hf heq
    obtain ⟨e, he, rfl⟩ := List.mem_map.1 hs
    obtain ⟨c, hc, rfl⟩ := List.mem_map.1 ht
    obtain rfl := Option.some.inj hf
    refine hafter e he c.2 ?_
    rw [← heq]
    exact Program.mem_chances_iff.1 hc
  · intro s hs t ht
    obtain ⟨c, -, rfl⟩ := List.mem_map.1 hs
    exact hbefore

variable {g : GroundProgram α} {n : Nat}
  (hg : g.choices = (sources before after declarations relevant).map (·.1))
  (hlexical : ∀ c ∈ g.choices, c.atom.Lexical)
  (hstandard : ∀ d ∈ declarations, d.template.Standard)
  (hlast : (sources before after declarations relevant).Pairwise fun s t =>
    ∀ d, s.2 = some d → t.1.atom ≠ d.atom)
include hg hlexical hstandard hlast

/-- The text of a declared fact names its choice. -/
theorem named_eq (hs : (sources before after declarations relevant)[n]? = some s)
    (hd : s.2 = some d) : g.named[d.atom.text]? = some n := by
  obtain ⟨hdm, rfl⟩ := eq_ofDeclaration (List.mem_of_getElem? hs) hd
  have hget (j : Nat) : g.choices[j]? =
      (sources before after declarations relevant)[j]?.map (·.1) := by
    rw [hg, List.getElem?_map]
  refine GroundProgram.named_eq_some_iff.2 ⟨⟨_, by rw [hget, hs]; rfl, rfl⟩, ?_⟩
  -- a later choice with this text has this atom
  intro j hj c hc htext
  have hatom : c.atom = d.atom := Term.eq_of_text_eq (hlexical c (List.mem_of_getElem? hc))
    (FactTemplate.lexical_atom (hstandard d hdm) d.time) htext
  rw [hget, Option.map_eq_some_iff] at hc
  obtain ⟨t, ht, rfl⟩ := hc
  obtain ⟨hn, hs⟩ := List.getElem?_eq_some_iff.1 hs
  obtain ⟨hj', rfl⟩ := List.getElem?_eq_some_iff.1 ht
  have hlater := List.pairwise_iff_getElem.1 hlast n j hn hj' hj
  rw [hs] at hlater
  exact hlater d rfl hatom

/-- The weights that events set are those of the declared choices. -/
theorem mem_settings_iff
    (hdistinct : declarations.Pairwise fun d e => ¬(d.identifier = e.identifier ∧ d.time = e.time))
    {events : List (Event α)} {p : α} :
    (n, p) ∈ Entry.settings declarations events g.named 0 ↔
      ∃ s d, (sources before after declarations relevant)[n]? = some s ∧ s.2 = some d ∧
        Event.probabilityAt events d.identifier d.time = p := by
  have hself : declarations.eraseDupsBy Event.sameFact = declarations := by
    refine eraseDupsBy_eq_self (hdistinct.imp fun {d e} hne => ?_)
    rw [Event.sameFact, Bool.eq_false_iff, Ne, Bool.and_eq_true, beq_iff_eq, beq_iff_eq]
    exact fun h => hne ⟨h.1.symm, h.2.symm⟩
  simp only [Entry.settings, hself, List.mem_filterMap, Option.map_eq_some_iff, Prod.mk.injEq,
    Int.add_zero]
  constructor
  · rintro ⟨d, hd, m, hm, rfl, rfl⟩
    -- the choice that is named has the atom of the declaration, which is relevant therefore
    obtain ⟨c, hc, htext⟩ := (GroundProgram.named_eq_some_iff.1 hm).1
    have hatom : c.atom = d.atom := Term.eq_of_text_eq (hlexical c (List.mem_of_getElem? hc))
      (FactTemplate.lexical_atom (hstandard d hd) d.time) htext
    have hc' := List.mem_of_getElem? hc
    rw [hg, List.mem_map] at hc'
    obtain ⟨t, ht, rfl⟩ := hc'
    have hsource : Source.ofDeclaration d ∈ sources before after declarations relevant := by
      refine List.mem_filter.2 ⟨?_, ?_⟩
      · exact List.mem_append_left _ (List.mem_append_right _ (List.mem_map_of_mem hd))
      · have hrelevant := (List.mem_filter.1 ht).2
        rwa [hatom] at hrelevant
    obtain ⟨j, hj⟩ := List.mem_iff_getElem?.1 hsource
    have hnamed := named_eq hg hlexical hstandard hlast hj rfl
    obtain rfl := Option.some.inj (hm.symm.trans hnamed)
    exact ⟨_, d, hj, rfl, rfl⟩
  · rintro ⟨s, d, hs, hd, rfl⟩
    obtain ⟨hdm, -⟩ := eq_ofDeclaration (List.mem_of_getElem? hs) hd
    exact ⟨d, hdm, n, named_eq hg hlexical hstandard hlast hs hd, rfl, rfl⟩

/-- Events set the weights to the given probabilities of the sources. -/
theorem eq_of_setAll
    (hdistinct : declarations.Pairwise fun d e => ¬(d.identifier = e.identifier ∧ d.time = e.time))
    {events : List (Event α)} {w : Weights α}
    (h : (Weights.ofList g.baseline).setAll (Entry.settings declarations events g.named 0) = .ok w) :
    w = .ofList ((sources before after declarations relevant).map (Source.given events)) := by
  have hset (m : Nat) (p : α) : (m, p) ∈ Entry.settings declarations events g.named 0 ↔
      ∃ s d, (sources before after declarations relevant)[m]? = some s ∧ s.2 = some d ∧
        Event.probabilityAt events d.identifier d.time = p :=
    mem_settings_iff hg hlexical hstandard hlast hdistinct
  have hbaseline (m : Nat) : (Weights.ofList g.baseline).get? m =
      (sources before after declarations relevant)[m]?.map (·.1.probability) := by
    simp only [Weights.get?, Weights.ofList, GroundProgram.baseline, hg, List.getElem?_toArray,
      List.getElem?_map, Option.map_map]
    rfl
  -- a node that no declaration stands for keeps its baseline
  have hunset (m : Nat)
      (hno : ∀ s, (sources before after declarations relevant)[m]? = some s → s.2 = none) :
      w.get? m = (sources before after declarations relevant)[m]?.map (·.1.probability) := by
    rw [← hbaseline m]
    refine Weights.get?_of_setAll_of_ne h ?_
    rintro ⟨j, p⟩ ht rfl
    obtain ⟨s, d, hj, hd, -⟩ := (hset j p).1 ht
    simp [hno s hj] at hd
  refine Weights.ext_get? fun m => ?_
  have hgiven : (Weights.ofList ((sources before after declarations relevant).map
      (Source.given events))).get? m =
        (sources before after declarations relevant)[m]?.map (Source.given events) := by
    simp [Weights.get?, Weights.ofList]
  rw [hgiven]
  cases hs : (sources before after declarations relevant)[m]? with
  | none =>
    rw [hunset m fun s h' => by simp [hs] at h', hs]
    rfl
  | some s =>
    cases hd : s.2 with
    | none =>
      rw [hunset m fun s' h' => Option.some.inj (hs.symm.trans h') ▸ hd, hs, Option.map_some,
        Option.map_some, Source.given, hd]
    | some d =>
      have hsetting := (hset m _).2 ⟨s, d, hs, hd, rfl⟩
      rw [Weights.get?_of_setAll_of_mem h hsetting, Option.map_some, Source.given, hd]
      -- every setting of the node has the same probability
      rintro ⟨j, p⟩ ht rfl
      obtain ⟨s', d', hj, hd', rfl⟩ := (hset j p).1 ht
      obtain rfl := Option.some.inj (hs.symm.trans hj)
      obtain rfl := Option.some.inj (hd.symm.trans hd')
      rfl

end Sources

end TimedInference
