import TimedInference.Proofs.Grounding.Relevance
import TimedInference.Proofs.Grounding.Reordering

/-!
# Unrelated clauses

Clauses about atoms whose functors do not occur in a program (`Program.Unrelated`) may use the program's atoms,
but the program does not use theirs.  Every atom that the program derives is made up of its own functors
(`Program.Derivable.over`), so with the clauses added the possible atoms with a functor of the program stay
the same (`Program.Beside.mem_iff`), and so do the joins of its rules (`Program.Beside.mem_join_iff`), the bodies
of its atoms and what its queries ask for.  The program is then grounded as it was, to the same choices, the
same atoms with the same numbers and the same queries, or fails in the same way
(`Program.ground_append_unrelated`).
-/

namespace TimedInference

open Term

variable {α : Type}

/-! ## Functors -/

namespace Term

mutual

/-- The functors of a term at their occurrences, from left to right. -/
def functors : Term → List String
  | var _ => []
  | int _ => []
  | compound f ts => f :: allFunctors ts

/-- The functors of terms at their occurrences, from left to right. -/
def allFunctors : List Term → List String
  | [] => []
  | t :: ts => t.functors ++ allFunctors ts

end

@[simp] theorem allFunctors_eq_flatMap (ts : List Term) : allFunctors ts = ts.flatMap functors := by
  induction ts with
  | nil => rfl
  | cons t ts ih => rw [allFunctors, ih, List.flatMap_cons]

/-- All functors of a term are among some names. -/
def Over (names : List String) (t : Term) : Prop := ∀ f ∈ t.functors, f ∈ names

/-- A term that is a compound has one of some names for its functor. -/
def HeadOver (names : List String) (t : Term) : Prop := ∀ f, t.functor? = some f → f ∈ names

variable {names : List String}

/-- A compound is made up of functors when its own and those of its arguments are among them. -/
theorem over_compound {f : String} {ts : List Term} :
    (compound f ts).Over names ↔ f ∈ names ∧ ∀ t ∈ ts, t.Over names := by
  simp only [Over, functors, allFunctors_eq_flatMap, List.mem_cons, List.mem_flatMap, forall_eq_or_imp]
  constructor
  · rintro ⟨hf, hts⟩
    exact ⟨hf, fun t ht g hg => hts g ⟨t, ht, hg⟩⟩
  · rintro ⟨hf, hts⟩
    refine ⟨hf, ?_⟩
    rintro g ⟨t, ht, hg⟩
    exact hts t ht g hg

theorem Over.headOver {t : Term} (h : t.Over names) : t.HeadOver names := by
  intro f hf
  cases t with
  | compound g ts =>
    obtain rfl := Option.some.inj hf
    exact (over_compound.1 h).1
  | _ => cases hf

/-- An instance has the functors of the term and those of what its variables stand for. -/
theorem over_instantiate_iff {σ : String → Term} {t : Term} (ht : t.Over names) :
    (t.instantiate σ).Over names ↔ ∀ x ∈ t.occurrences, (σ x).Over names := by
  induction t with
  | var x => simp [instantiate, occurrences]
  | int n => simp [instantiate, occurrences, Over, functors]
  | compound f ts ih =>
    obtain ⟨hf, hts⟩ := over_compound.1 ht
    simp only [instantiate, instantiateAll_eq_map, over_compound, hf, true_and, List.forall_mem_map,
      occurrences, allOccurrences_eq_flatMap, List.mem_flatMap]
    constructor
    · rintro h x ⟨t, hmem, hx⟩
      exact (ih t hmem (hts t hmem)).1 (h t hmem) x hx
    · intro h t hmem
      exact (ih t hmem (hts t hmem)).2 fun x hx => h x ⟨t, hmem, hx⟩

/-- An instance of a term that is no bare variable has the term's functor. -/
theorem Over.headOver_instantiate {σ : String → Term} {t : Term} (h : t.Over names)
    (hvar : ∀ x, t ≠ var x) : (t.instantiate σ).HeadOver names := by
  cases t with
  | var x => exact absurd rfl (hvar x)
  | int n =>
    intro f hf
    cases hf
  | compound g ts =>
    intro f hf
    obtain rfl := Option.some.inj hf
    exact (over_compound.1 h).1

end Term

/-- The functors of a clause. -/
def Clause.functors : Clause α → List String
  | fact h => h.functors
  | chance _ h => h.functors
  | rule r => r.head.functors ++ r.body.flatMap fun l => l.atom.functors

namespace Program

/-- The functors of a program, those inside arguments included. -/
def functors (p : Program α) : List String :=
  p.clauses.flatMap Clause.functors ++ p.queries.flatMap Term.functors

/-- Every clause of a list is about an atom whose functor does not occur in a program. -/
def Unrelated (p : Program α) (extra : List (Clause α)) : Prop :=
  ∀ c ∈ extra, ∃ f, c.head.functor? = some f ∧ f ∉ p.functors

variable {p : Program α}

/-- The terms of a clause are made up of the functors of its program. -/
theorem over_of_mem_clauses {c : Clause α} (hc : c ∈ p.clauses) {t : Term}
    (ht : ∀ f ∈ t.functors, f ∈ c.functors) : t.Over p.functors := by
  intro f hf
  exact List.mem_append_left _ (List.mem_flatMap.2 ⟨c, hc, ht f hf⟩)

theorem over_of_mem_queries {q : Term} (hq : q ∈ p.queries) : q.Over p.functors := by
  intro f hf
  exact List.mem_append_right _ (List.mem_flatMap.2 ⟨q, hq, hf⟩)

/-- Facts are made up of the functors of their program, and so are heads and bodies of its rules. -/
theorem over_of_mem_factHeads {a : Term} (ha : a ∈ p.factHeads) : a.Over p.functors := by
  obtain ⟨c, hc, hhead⟩ := List.mem_filterMap.1 ha
  apply over_of_mem_clauses hc
  cases c with
  | rule r => cases hhead
  | _ =>
    obtain rfl := Option.some.inj hhead
    exact fun f hf => hf

theorem over_head {r : Rule} (hr : r ∈ p.rules) : r.head.Over p.functors := by
  apply over_of_mem_clauses (mem_rules.1 hr)
  intro f hf
  exact List.mem_append_left _ hf

theorem over_body {r : Rule} (hr : r ∈ p.rules) {l : Literal} (hl : l ∈ r.body) :
    l.atom.Over p.functors := by
  apply over_of_mem_clauses (mem_rules.1 hr)
  intro f hf
  exact List.mem_append_right _ (List.mem_flatMap.2 ⟨l, hl, hf⟩)

theorem over_positives {r : Rule} (hr : r ∈ p.rules) : ∀ a ∈ r.positives, a.Over p.functors := by
  intro a ha
  obtain ⟨l, hl, -, rfl⟩ := Rule.mem_positives.1 ha
  exact over_body hr hl

/-- What a program derives is made up of its own functors. -/
theorem Derivable.over (hp : p.Safe) {a : Term} (h : p.Derivable a) : a.Over p.functors := by
  induction h with
  | fact ha => exact over_of_mem_factHeads ha
  | @rule r σ hr _ _ ih =>
    rw [over_instantiate_iff (over_head hr)]
    intro x hx
    obtain ⟨l, hl, hpos, hxl⟩ := Rule.mem_bound.1 (hp.bound_of_head r hr x hx)
    exact (over_instantiate_iff (over_body hr hl)).1 (ih l hl hpos) x hxl

/-! ## Joins -/

/-- Patterns over some names find among more atoms only those they found before, when the atoms added have
other functors. -/
theorem substitute_mem_of_searchable {names : List String} {atoms atoms' : List Term}
    (hover : ∀ a ∈ atoms, a.Over names) (hown : ∀ a ∈ atoms', a.HeadOver names → a ∈ atoms)
    {patterns : List Term} (hpatterns : ∀ t ∈ patterns, t.Over names) {known : List String}
    (hsearch : AtomIndex.searchable known patterns = true) {b : Bindings}
    (hknown : ∀ x ∈ known, (lookup b x).Over names)
    (hmem : ∀ t ∈ patterns, t.substitute b ∈ atoms') : ∀ t ∈ patterns, t.substitute b ∈ atoms := by
  induction patterns generalizing known with
  | nil => simp
  | cons t ts ih =>
    rw [List.forall_mem_cons] at hpatterns hmem ⊢
    rw [AtomIndex.searchable, Bool.and_eq_true] at hsearch
    have hhead : (t.substitute b).HeadOver names := by
      rw [substitute_eq_instantiate]
      cases t with
      | var x => exact (hknown x (List.contains_iff_mem.1 hsearch.1)).headOver
      | _ => exact hpatterns.1.headOver_instantiate fun x => by simp
    have hfound := hown _ hmem.1 hhead
    refine ⟨hfound, ih hpatterns.2 hsearch.2 ?_ hmem.2⟩
    -- the variables of the pattern stand for parts of an atom that was there before
    intro x hx
    rcases List.mem_append.1 hx with hx | hx
    · exact hknown x hx
    · have hinstance := hover _ hfound
      rw [substitute_eq_instantiate] at hinstance
      exact (over_instantiate_iff hpatterns.1).1 hinstance x hx

/-- Over atoms of other functors besides, a rule of a program is joined to no more bindings. -/
theorem mem_join_of_headOver {s t : TermSet} (hs : GroundAtoms s.toList) (ht : GroundAtoms t.toList)
    (hover : ∀ a ∈ s, a.Over p.functors) (hown : ∀ a ∈ t, a.HeadOver p.functors → a ∈ s) {r : Rule}
    (hr : r ∈ p.rules) {b : Bindings} (hb : b ∈ (AtomIndex.ofList t.toList).join r.positives) :
    b ∈ (AtomIndex.ofList s.toList).join r.positives := by
  obtain ⟨hsearch, hsolves⟩ := (AtomIndex.mem_join_iff ht).1 hb
  have hmem : ∀ a ∈ r.positives, a.substitute b ∈ s.toList := by
    apply substitute_mem_of_searchable _ _ (over_positives hr) hsearch _ hsolves.mem_atoms
    · intro a ha
      exact hover a (Std.ExtTreeSet.mem_toList.1 ha)
    · intro a ha hhead
      rw [Std.ExtTreeSet.mem_toList] at ha ⊢
      exact hown a ha hhead
    · simp
  apply (AtomIndex.mem_join_iff hs).2
  exact ⟨hsearch, hsolves.extends_, hsolves.mem_iff, hmem, hsolves.isCompound⟩

/-- Two sets of possible atoms: one of a program, and one with atoms of other functors besides. -/
structure Beside (p : Program α) (s s' : TermSet) : Prop where
  safe : p.Safe
  over_of_mem : ∀ a ∈ s, a.Over p.functors
  ground : GroundAtoms s'.toList
  mem_of_mem : ∀ a ∈ s, a ∈ s'
  mem_of_headOver : ∀ a ∈ s', a.HeadOver p.functors → a ∈ s

namespace Beside

variable {s s' : TermSet}

theorem ground_left (h : p.Beside s s') : GroundAtoms s.toList := by
  intro a ha
  rw [Std.ExtTreeSet.mem_toList] at ha
  exact h.ground a (Std.ExtTreeSet.mem_toList.2 (h.mem_of_mem a ha))

/-- An atom with a functor of the program is possible in both sets or in neither. -/
theorem mem_iff (h : p.Beside s s') {a : Term} (ha : a.HeadOver p.functors) : a ∈ s' ↔ a ∈ s :=
  ⟨fun hmem => h.mem_of_headOver a hmem ha, h.mem_of_mem a⟩

/-- A rule of the program is joined to the same bindings. -/
theorem mem_join_iff (h : p.Beside s s') {r : Rule} (hr : r ∈ p.rules) {b : Bindings} :
    b ∈ (AtomIndex.ofList s'.toList).join r.positives ↔
      b ∈ (AtomIndex.ofList s.toList).join r.positives := by
  constructor
  · exact mem_join_of_headOver h.ground_left h.ground h.over_of_mem h.mem_of_headOver hr
  · apply AtomIndex.join_mono h.ground
    intro a ha
    rw [Std.ExtTreeSet.mem_toList] at ha ⊢
    exact h.mem_of_mem a ha

/-- Its instance has the same body. -/
theorem instanceBody_eq (h : p.Beside s s') {r : Rule} (hr : r ∈ p.rules) {b : Bindings}
    (hb : b ∈ (AtomIndex.ofList s.toList).join r.positives) :
    r.instanceBody s' b = r.instanceBody s b := by
  have hs := AtomIndex.join_sound h.ground_left hb
  have hlookup : ∀ x ∈ r.bound, (lookup b x).Over p.functors := by
    intro x hx
    obtain ⟨l, hl, hpos, hxl⟩ := Rule.mem_bound.1 hx
    have hpositive : l.atom ∈ r.positives := Rule.mem_positives.2 ⟨l, hl, hpos, rfl⟩
    have hover := h.over_of_mem _ (Std.ExtTreeSet.mem_toList.1 (hs.mem_atoms l.atom hpositive))
    rw [substitute_eq_instantiate] at hover
    exact (over_instantiate_iff (over_body hr hl)).1 hover x hxl
  apply List.filter_congr
  intro l hl
  obtain ⟨k, hk, rfl⟩ := List.mem_map.1 hl
  cases hpos : k.positive with
  | true => simp [Literal.substitute, hpos]
  | false =>
    have hover : (k.atom.substitute b).Over p.functors := by
      rw [substitute_eq_instantiate, over_instantiate_iff (over_body hr hk)]
      intro x hx
      exact hlookup x (h.safe.bound_of_negative r hr k hk hpos x hx)
    congr 1
    rw [Bool.eq_iff_iff, ← Std.ExtTreeSet.mem_iff_contains, ← Std.ExtTreeSet.mem_iff_contains]
    exact h.mem_iff hover.headOver

end Beside

/-! ## Possible atoms -/

variable {extra : List (Clause α)}

/-- No instance of an unrelated clause is about an atom of the program. -/
theorem Unrelated.not_headOver (h : p.Unrelated extra) {c : Clause α} (hc : c ∈ extra) (b : Bindings) :
    ¬ (c.head.substitute b).HeadOver p.functors := by
  intro hhead
  obtain ⟨f, hf, hnot⟩ := h c hc
  apply hnot
  apply hhead f
  cases ht : c.head with
  | compound g ts => rwa [ht] at hf
  | _ =>
    rw [ht] at hf
    cases hf

/-- What is read off unrelated clauses by their heads is not about an atom of the program. -/
theorem Unrelated.not_headOver_of_mem (h : p.Unrelated extra) {β : Type} (f : Clause α → Option β)
    (g : β → Term) (hf : ∀ c b, f c = some b → g b = c.head) {b : β} (hb : b ∈ extra.filterMap f) :
    ¬ (g b).HeadOver p.functors := by
  obtain ⟨c, hc, hcb⟩ := List.mem_filterMap.1 hb
  rw [hf c b hcb, ← substitute_empty c.head]
  exact h.not_headOver hc ∅

/-- A program that passes the check together with others passes it alone. -/
theorem check_of_check_append [Probability α] {q : Program α} (h : (p ++ q).check = .ok ()) :
    p.check = .ok () := by
  apply forM_eq_ok_iff.2
  intro c hc
  exact forM_eq_ok_iff.1 h c (List.mem_append_left _ hc)

/-- Adding statements to a program keeps its possible atoms. -/
theorem mem_possible_append {q : Program α} (hsafe : (p ++ q).Safe) {limit limit' : Nat}
    {s s' : TermSet} (hs : p.possible limit = .ok s) (hs' : (p ++ q).possible limit' = .ok s') :
    ∀ a ∈ s, a ∈ s' := by
  obtain ⟨hfacts, hclosed⟩ := Rule.closure_closed hs'
  apply mem_of_mem_possible
    (groundAtoms_of_derivable hsafe (derivable_of_mem_possible hsafe hs')) _ _ hs
  · intro a ha
    apply hfacts
    simp only [Std.ExtTreeSet.mem_ofList, List.contains_iff_mem, factHeads_append]
    exact List.mem_append_left _ ha
  · intro r hr b hb
    apply hclosed r _ _ (Rule.mem_consequences.2 ⟨b, hb, rfl⟩)
    rw [rules_append]
    exact List.mem_append_left _ hr

/-- Unrelated clauses add possible atoms of other functors only. -/
theorem Unrelated.mem_possible (h : p.Unrelated extra) (hp : p.Safe)
    (hsafe : (p ++ Program.mk extra []).Safe) {limit limit' : Nat} {s s' : TermSet}
    (hs : p.possible limit = .ok s) (hs' : (p ++ Program.mk extra []).possible limit' = .ok s') :
    ∀ a ∈ s', a.HeadOver p.functors → a ∈ s := by
  obtain ⟨hfacts, hclosed⟩ := Rule.closure_closed hs
  have hderivable := derivable_of_mem_possible hp hs
  have hall : ∀ a ∈ s', (p ++ Program.mk extra []).Derivable a ∧ (a.HeadOver p.functors → a ∈ s) := by
    refine Rule.closure_forall (motive := fun a =>
      (p ++ Program.mk extra []).Derivable a ∧ (a.HeadOver p.functors → a ∈ s)) ?_ ?_ hs'
    · intro t ht r hr b hb
      have hround : r.head.substitute b ∈ Rule.round (p ++ Program.mk extra []).rules t :=
        Rule.mem_round.2 (.inr ⟨r, hr, Rule.mem_consequences.2 ⟨b, hb, rfl⟩⟩)
      refine ⟨derivable_of_mem_round hsafe (fun a ha => (ht a ha).1) _ hround, ?_⟩
      intro hhead
      rw [rules_append, List.mem_append] at hr
      rcases hr with hr | hr
      · apply hclosed r hr _ (Rule.mem_consequences.2 ⟨b, ?_, rfl⟩)
        exact mem_join_of_headOver (groundAtoms_of_derivable hp hderivable)
          (groundAtoms_of_derivable hsafe fun a ha => (ht a ha).1)
          (fun a ha => (hderivable a ha).over hp) (fun a ha => (ht a ha).2) hr hb
      · exact absurd hhead (h.not_headOver (mem_rules.1 hr) b)
    · intro a ha
      refine ⟨derivable_of_mem_factHeads a ha, ?_⟩
      intro hhead
      simp only [Std.ExtTreeSet.mem_ofList, List.contains_iff_mem, factHeads_append,
        List.mem_append] at ha
      rcases ha with ha | ha
      · exact hfacts a (by simpa using ha)
      · apply absurd hhead
        apply h.not_headOver_of_mem Clause.factHead? id _ ha
        intro c b hcb
        cases c <;> cases hcb <;> rfl
  exact fun a ha => (hall a ha).2

/-- The possible atoms of a program, and those with unrelated clauses added. -/
theorem Unrelated.beside [Probability α] (h : p.Unrelated extra)
    (hcheck : (p ++ Program.mk extra []).check = .ok ()) {limit limit' : Nat} {s s' : TermSet}
    (hs : p.possible limit = .ok s) (hs' : (p ++ Program.mk extra []).possible limit' = .ok s') :
    p.Beside s s' where
  safe := safe_of_check (check_of_check_append hcheck)
  over_of_mem a ha := by
    have hp := safe_of_check (check_of_check_append hcheck)
    exact (derivable_of_mem_possible hp hs a ha).over hp
  ground := by
    have hsafe := safe_of_check hcheck
    exact groundAtoms_of_derivable hsafe (derivable_of_mem_possible hsafe hs')
  mem_of_mem := mem_possible_append (safe_of_check hcheck) hs hs'
  mem_of_headOver :=
    h.mem_possible (safe_of_check (check_of_check_append hcheck)) (safe_of_check hcheck) hs hs'

/-! ## Definitions -/

namespace Beside

variable {s s' : TermSet}

/-- The atoms of the program have the same bodies. -/
theorem bodies_eq (h : p.Beside s s') (hextra : p.Unrelated extra) {a : Term}
    (ha : a.HeadOver p.functors) :
    (Definitions.ofRules (p ++ Program.mk extra []).rules s').bodies a =
      (Definitions.ofRules p.rules s).bodies a := by
  unfold Definitions.bodies
  congr 1
  apply Std.ExtTreeSet.ext_mem
  intro body
  rw [← Std.ExtTreeSet.mem_toList, ← Std.ExtTreeSet.mem_toList]
  change body ∈ Definitions.bodies _ a ↔ body ∈ Definitions.bodies _ a
  rw [Definitions.mem_bodies_ofRules, Definitions.mem_bodies_ofRules]
  constructor
  · rintro ⟨r, hr, b, hb, rfl, rfl⟩
    rw [rules_append, List.mem_append] at hr
    rcases hr with hr | hr
    · have hb' := (h.mem_join_iff hr).1 hb
      exact ⟨r, hr, b, hb', rfl, (h.instanceBody_eq hr hb').symm⟩
    · exact absurd ha (hextra.not_headOver (mem_rules.1 hr) b)
  · rintro ⟨r, hr, b, hb, rfl, rfl⟩
    refine ⟨r, ?_, b, (h.mem_join_iff hr).2 hb, rfl, h.instanceBody_eq hr hb⟩
    rw [rules_append]
    exact List.mem_append_left _ hr

/-- Unrelated clauses add no dependencies to atoms of the program. -/
theorem dependencies_eq (h : p.Beside s s') (hextra : p.Unrelated extra) {a : Term}
    (ha : a.HeadOver p.functors) :
    (Definitions.ofRules (p ++ Program.mk extra []).rules s').dependencies a =
      (Definitions.ofRules p.rules s).dependencies a := by
  rw [Definitions.dependencies, Definitions.dependencies, h.bodies_eq hextra ha]

/-- The atoms of the program depend on the same atoms. -/
theorem dependsOn_iff (h : p.Beside s s') (hextra : p.Unrelated extra) {a dep : Term} (ha : a ∈ s) :
    (p ++ Program.mk extra []).DependsOn s' a dep ↔ p.DependsOn s a dep := by
  rw [← mem_dependencies_ofRules, ← mem_dependencies_ofRules,
    h.dependencies_eq hextra (h.over_of_mem a ha).headOver]

/-! ## Queries -/

/-- Queries that are no bare variables ask for the same atoms. -/
theorem queryAtoms_eq (h : p.Beside s s') (hqueries : ∀ q ∈ p.queries, ∀ x, q ≠ var x) :
    (p ++ Program.mk extra []).queryAtoms s' = p.queryAtoms s := by
  rw [queryAtoms, queryAtoms, queries_append, List.append_nil]
  congr 1
  apply List.flatMap_congr
  intro q hq
  cases hg : q.isGround with
  | true => rfl
  | false =>
    simp only [Bool.false_eq_true, if_false]
    rw [← Std.ExtTreeSet.toList_filter, ← Std.ExtTreeSet.toList_filter]
    congr 1
    apply Std.ExtTreeSet.ext_mem
    intro a
    have hfilter (t : TermSet) : a ∈ t.filter (fun a => (q.match? a ∅).isSome) ↔
        a ∈ t ∧ (q.match? a ∅).isSome = true := by
      rw [← Std.ExtTreeSet.mem_toList, Std.ExtTreeSet.toList_filter, List.mem_filter,
        Std.ExtTreeSet.mem_toList]
    rw [hfilter, hfilter]
    apply and_congr_left
    intro hmatch
    obtain ⟨σ, rfl⟩ := isSome_match?_iff.1 hmatch
    exact h.mem_iff ((over_of_mem_queries hq).headOver_instantiate (hqueries q hq))

/-- What the queries ask for are atoms of the program. -/
theorem headOver_of_mem_queryAtoms (h : p.Beside s s') {q : Term} (hq : q ∈ p.queryAtoms s) :
    q.HeadOver p.functors := by
  rcases mem_queryAtoms_iff.1 hq with ⟨hquery, -⟩ | ⟨hmem, -⟩
  · exact (over_of_mem_queries hquery).headOver
  · exact (h.over_of_mem q hmem).headOver

/-- The same atoms are relevant. -/
theorem relevant_eq (h : p.Beside s s') (hextra : p.Unrelated extra) :
    (Definitions.ofRules (p ++ Program.mk extra []).rules s').relevant s' (p.queryAtoms s) =
      (Definitions.ofRules p.rules s).relevant s (p.queryAtoms s) := by
  apply Std.ExtTreeSet.ext_mem
  intro a
  rw [mem_relevant_iff h.ground, mem_relevant_iff h.ground_left]
  apply exists_congr
  intro q
  apply and_congr_right
  intro hq
  rw [h.mem_iff (h.headOver_of_mem_queryAtoms hq)]
  apply and_congr_right
  intro hmem
  constructor
  · intro hreach
    have hstep : a ∈ s ∧ Relation.ReflTransGen (p.DependsOn s) q a := by
      induction hreach with
      | refl => exact ⟨hmem, .refl⟩
      | tail _ hdep ih =>
        have hdep' := (h.dependsOn_iff hextra ih.1).1 hdep
        exact ⟨hdep'.mem_possible h.ground_left, ih.2.tail hdep'⟩
    exact hstep.2
  · intro hreach
    have hstep : a ∈ s ∧ Relation.ReflTransGen ((p ++ Program.mk extra []).DependsOn s') q a := by
      induction hreach with
      | refl => exact ⟨hmem, .refl⟩
      | tail _ hdep ih =>
        exact ⟨hdep.mem_possible h.ground_left, ih.2.tail ((h.dependsOn_iff hextra ih.1).2 hdep)⟩
    exact hstep.2

/-! ## Ground programs -/

/-- The same declarations are kept. -/
theorem relevantChoices_eq (hextra : p.Unrelated extra) {relevant : TermSet}
    (hrelevant : ∀ a ∈ relevant, a.HeadOver p.functors) :
    (p ++ Program.mk extra []).relevantChoices relevant = p.relevantChoices relevant := by
  have hnone : (Program.mk extra []).chances.filter (fun c => relevant.contains c.1) = [] := by
    apply List.filter_eq_nil_iff.2
    intro c hc hkept
    apply hextra.not_headOver_of_mem Clause.chance? Prod.fst _ hc
    · exact hrelevant c.1 (Std.ExtTreeSet.mem_iff_contains.2 hkept)
    · intro c b hcb
      cases c <;> cases hcb
      rfl
  rw [relevantChoices, relevantChoices, chances_append, List.filter_append, hnone, List.append_nil]

/-- The same atoms are certain. -/
theorem contains_certainFacts (hextra : p.Unrelated extra) {a : Term} (ha : a.HeadOver p.functors) :
    (Std.ExtTreeSet.ofList (p ++ Program.mk extra []).certainFacts : TermSet).contains a =
      (Std.ExtTreeSet.ofList p.certainFacts : TermSet).contains a := by
  have hnot : a ∉ (Program.mk extra []).certainFacts := by
    intro hmem
    apply hextra.not_headOver_of_mem Clause.certainHead? id _ hmem ha
    intro c b hcb
    cases c <;> cases hcb
    rfl
  rw [Std.ExtTreeSet.contains_ofList, Std.ExtTreeSet.contains_ofList, certainFacts_append,
    Bool.eq_iff_iff, List.contains_iff_mem, List.contains_iff_mem, List.mem_append]
  exact or_iff_left hnot

/-- With unrelated clauses and their atoms added, a program is grounded as before, or fails as before. -/
theorem groundOver_eq (h : p.Beside s s') (hextra : p.Unrelated extra)
    (hqueries : ∀ q ∈ p.queries, ∀ x, q ≠ var x) :
    (p ++ Program.mk extra []).groundOver s' = p.groundOver s := by
  have hrelevant : ∀ a ∈ (Definitions.ofRules p.rules s).relevant s (p.queryAtoms s),
      a.HeadOver p.functors := by
    intro a ha
    exact (h.over_of_mem a (Std.ExtTreeSet.mem_diff_iff.1 ha).1).headOver
  have horder := Definitions.order_congr fun a ha => h.dependencies_eq hextra (hrelevant a ha)
  simp only [groundOver, h.queryAtoms_eq hqueries, h.relevant_eq hextra, horder,
    relevantChoices_eq hextra hrelevant]
  cases ho : (Definitions.ofRules p.rules s).order
      ((Definitions.ofRules p.rules s).relevant s (p.queryAtoms s)) with
  | error e => rfl
  | ok order =>
    simp only [bind, Except.bind, pure, Except.pure, Except.ok.injEq, GroundProgram.mk.injEq, true_and,
      and_true]
    apply List.map_congr_left
    intro a ha
    have hhead := hrelevant a ((Definitions.mem_order_iff ho).1 ha)
    rw [contains_certainFacts hextra hhead, h.bodies_eq hextra hhead]

end Beside

/-- Clauses about atoms whose functors do not occur in a program change nothing about how it is grounded, when
no query is a bare variable and the possible atoms stay within the limit: the choices, the atoms in their
order and with their numbers, and the queries are the same, and where grounding fails it fails in the same
way. -/
theorem ground_append_unrelated [Probability α] (hextra : p.Unrelated extra)
    (hqueries : ∀ q ∈ p.queries, ∀ x, q ≠ var x) (hcheck : (p ++ Program.mk extra []).check = .ok ())
    {limit limit' : Nat} {s s' : TermSet} (hs : p.possible limit = .ok s)
    (hs' : (p ++ Program.mk extra []).possible limit' = .ok s') :
    ((p ++ Program.mk extra []).ground limit').outcome = (p.ground limit).outcome := by
  have h := hextra.beside hcheck hs hs'
  rw [outcome_ground, outcome_ground, hcheck, hs', check_of_check_append hcheck, hs]
  exact h.groundOver_eq hextra hqueries

/-- One toss of a coin, with a query for whatever tails there are. -/
def anyTails : Program ℚ := { coin with queries := [.compound "tails" [.var "T"]] }

/-- A bet on the toss, and what the weather does to it. -/
def bet : List (Clause ℚ) :=
  [.chance (mkRat 1 4) (.atom "rain"), .fact (.compound "placed" [.compound "tails" [.int 0]]),
    .rule ⟨.compound "won" [.var "T"],
      [⟨.compound "tails" [.var "T"], true⟩, ⟨.atom "rain", false⟩]⟩]

/-- The bet uses the atoms of the toss and changes nothing about it. -/
theorem ground_append_unrelated_bet :
    anyTails.Unrelated bet ∧ (∀ q ∈ anyTails.queries, ∀ x, q ≠ var x) ∧
      (anyTails ++ Program.mk bet []).check = .ok () ∧
      ∃ s s', anyTails.possible 10 = .ok s ∧ (anyTails ++ Program.mk bet []).possible 10 = .ok s' ∧
        s.size < s'.size ∧
        ((anyTails ++ Program.mk bet []).ground 10).outcome = (anyTails.ground 10).outcome := by
  have hextra : anyTails.Unrelated bet := by
    intro c hc
    simp only [bet, List.mem_cons, List.not_mem_nil, or_false] at hc
    rcases hc with rfl | rfl | rfl
    · exact ⟨"rain", rfl, by decide⟩
    · exact ⟨"placed", rfl, by decide⟩
    · exact ⟨"won", rfl, by decide⟩
  have hqueries : ∀ q ∈ anyTails.queries, ∀ x, q ≠ var x := by
    intro q hq x
    obtain rfl := List.mem_singleton.1 hq
    simp
  have hcheck : (anyTails ++ Program.mk bet []).check = .ok () := by decide
  have hfound : ∃ s s', anyTails.possible 10 = .ok s ∧
      (anyTails ++ Program.mk bet []).possible 10 = .ok s' ∧ s.size < s'.size := by
    have hsizes : (anyTails.possible 10).toOption.map (·.size) = some 3 := by decide +kernel
    have hsizes' : ((anyTails ++ Program.mk bet []).possible 10).toOption.map (·.size) = some 6 := by
      decide +kernel
    obtain ⟨s, hs, hsize⟩ := Option.map_eq_some_iff.1 hsizes
    obtain ⟨s', hs', hsize'⟩ := Option.map_eq_some_iff.1 hsizes'
    exact ⟨s, s', eq_ok_of_toOption hs, eq_ok_of_toOption hs', by omega⟩
  obtain ⟨s, s', hs, hs', hlt⟩ := hfound
  exact ⟨hextra, hqueries, hcheck, s, s', hs, hs', hlt,
    ground_append_unrelated hextra hqueries hcheck hs hs'⟩

end Program

end TimedInference
