import Mathlib.Data.List.Nodup
import Mathlib.Data.List.Perm.Subperm
import TimedInference.Grounding.GroundProgram
import TimedInference.Proofs.Grounding.Join
import TimedInference.Proofs.Log.Success

/-!
# Possible atoms are the least model

An atom is derivable when it is the head of a fact or of a rule instance whose positive literals are
derivable, negated literals being ignored; the instances are taken by ground terms
(`Program.Derivable`).  For a safe program whose rules can be searched from left to right, as they can when
their positive literals are compounds, the possible atoms found in rounds are exactly the derivable ones
(`mem_possible_iff_of_searchable`).
-/

namespace TimedInference

open Term

variable {α : Type}

/-! ## Safe programs -/

/-- What the check of a program establishes. -/
structure Program.Safe (p : Program α) : Prop where
  fact_isGround : ∀ a ∈ p.factHeads, a.isGround = true
  bound_of_head : ∀ r ∈ p.rules, ∀ x ∈ r.head.occurrences, x ∈ r.bound
  bound_of_negative : ∀ r ∈ p.rules, ∀ l ∈ r.body, l.positive = false →
    ∀ x ∈ l.atom.occurrences, x ∈ r.bound

/-- Every positive literal of a rule body is a compound. -/
def Program.CompoundBodies (p : Program α) : Prop :=
  ∀ r ∈ p.rules, ∀ l ∈ r.body, l.positive = true → l.atom.functor?.isSome = true

/-- A search through the positive literals of a rule from left to right finds all their instances: none is a
bare variable when its turn comes, and the atoms to be found are compounds, since either all heads are, as in
every program that can be written, or all positive literals are. -/
structure Program.Searchable (p : Program α) : Prop where
  searchable : ∀ r ∈ p.rules, AtomIndex.searchable [] r.positives = true
  isCompound : (∀ c ∈ p.clauses, c.head.functor?.isSome = true) ∨ p.CompoundBodies

theorem Program.mem_rules {p : Program α} {r : Rule} : r ∈ p.rules ↔ .rule r ∈ p.clauses := by
  simp only [rules, List.mem_filterMap]
  constructor
  · rintro ⟨c, hc, h⟩
    cases c with
    | rule s =>
      obtain rfl : s = r := by simpa [Clause.rule?] using h
      exact hc
    | _ => simp [Clause.rule?] at h
  · intro h
    exact ⟨_, h, rfl⟩

/-- A program that passes the check is safe. -/
theorem Program.safe_of_check [Probability α] {p : Program α} (h : p.check = .ok ()) : p.Safe := by
  have hc := forM_eq_ok_iff.1 h
  have hrule {r : Rule} (hr : r ∈ p.rules) : ∀ x ∈ r.needed, x ∈ r.bound := by
    have := hc _ (mem_rules.1 hr)
    rw [← Rule.unbound?_eq_none_iff]
    simp only [Clause.check] at this
    split at this
    · simp at this
    · assumption
  refine ⟨fun a ha => ?_, fun r hr x hx => ?_, fun r hr l hl hn x hx => ?_⟩
  · simp only [factHeads, List.mem_filterMap] at ha
    obtain ⟨c, hmem, ha⟩ := ha
    have := hc c hmem
    cases c with
    | rule r => simp [Clause.factHead?] at ha
    | _ =>
      obtain rfl : _ = a := Option.some.inj ha
      by_contra hn
      simp [Clause.check, Clause.head, hn] at this
  · exact hrule hr x (List.mem_append_left _ (mem_variables.2 hx))
  · refine hrule hr x (List.mem_append_right _ ?_)
    rw [List.mem_flatMap]
    refine ⟨l.atom, ?_, mem_variables.2 hx⟩
    simp only [Rule.negatives, List.mem_map, List.mem_filter]
    exact ⟨l, ⟨hl, by simp [hn]⟩, rfl⟩

theorem Rule.mem_positives {r : Rule} {a : Term} :
    a ∈ r.positives ↔ ∃ l ∈ r.body, l.positive = true ∧ l.atom = a := by
  simp only [positives, List.mem_map, List.mem_filter, and_assoc]

theorem Program.CompoundBodies.searchable {p : Program α} (h : p.CompoundBodies) : p.Searchable where
  searchable r hr := by
    refine AtomIndex.searchable_of_isCompound (fun a ha => ?_) []
    obtain ⟨l, hl, hpos, rfl⟩ := Rule.mem_positives.1 ha
    exact h r hr l hl hpos
  isCompound := .inr h

/-! ## Rule instances -/

/-- A function that replaces every variable by a ground term. -/
def IsGrounding (σ : String → Term) : Prop := ∀ x, (σ x).isGround = true

/-- Ground bindings are part of a grounding. -/
theorem Bindings.exists_grounding {b : Bindings} (h : b.Ground) :
    ∃ σ, IsGrounding σ ∧ b.Agrees σ := by
  refine ⟨fun x => b[x]?.getD (.atom ""), fun x => ?_, fun x t hx => by simp [hx]⟩
  show (b[x]?.getD (.atom "")).isGround = true
  cases hx : b[x]? with
  | none => rfl
  | some t => exact h x t hx

namespace Rule

/-- Every instance that a join finds is the instance by a grounding that takes the positive literals to
atoms, and the bindings reach all variables that matter. -/
theorem join_sound {atoms : List Term} (ha : GroundAtoms atoms) {r : Rule} {b : Bindings}
    (h : b ∈ (AtomIndex.ofList atoms).join r.positives) :
    ∃ σ, IsGrounding σ ∧ b.Agrees σ ∧ (∀ x ∈ r.bound, x ∈ b) ∧
      ∀ l ∈ r.body, l.positive = true → l.atom.instantiate σ ∈ atoms := by
  have hs := AtomIndex.join_sound ha h
  obtain ⟨σ, hσ, hb⟩ := Bindings.exists_grounding (hs.ground ha Bindings.ground_empty)
  refine ⟨σ, hσ, hb, fun x hxb => ?_, fun l hl hpos => ?_⟩
  · obtain ⟨l, hl, hpos, hxl⟩ := Rule.mem_bound.1 hxb
    exact hs.bound l.atom (mem_positives.2 ⟨l, hl, hpos, rfl⟩) x hxl
  · exact hs.instantiate_mem hb l.atom (mem_positives.2 ⟨l, hl, hpos, rfl⟩)

/-- Every grounding that takes the positive literals to compounds among the atoms is found by a join, when the
literals can be looked up. -/
theorem join_complete_of_searchable {atoms : List Term} (ha : GroundAtoms atoms) {r : Rule}
    (hr : AtomIndex.searchable [] r.positives = true) {σ : String → Term}
    (h : ∀ l ∈ r.body, l.positive = true →
      l.atom.instantiate σ ∈ atoms ∧ (l.atom.instantiate σ).functor?.isSome = true) :
    ∃ b ∈ (AtomIndex.ofList atoms).join r.positives, b.Agrees σ := by
  refine AtomIndex.joinFrom_complete ha Bindings.ground_empty (by simp) hr
    (Bindings.agrees_empty σ) (fun p hp => ?_)
  obtain ⟨l, hl, hpos, rfl⟩ := mem_positives.1 hp
  exact h l hl hpos

/-- Every grounding that takes the compound positive literals to atoms is found by a join. -/
theorem join_complete {atoms : List Term} (ha : GroundAtoms atoms) {r : Rule}
    (hc : ∀ l ∈ r.body, l.positive = true → l.atom.functor?.isSome = true) {σ : String → Term}
    (h : ∀ l ∈ r.body, l.positive = true → l.atom.instantiate σ ∈ atoms) :
    ∃ b ∈ (AtomIndex.ofList atoms).join r.positives, b.Agrees σ := by
  refine join_complete_of_searchable ha
    (AtomIndex.searchable_of_isCompound (fun p hp => ?_) []) fun l hl hpos =>
      ⟨h l hl hpos, isCompound_instantiate (hc l hl hpos) σ⟩
  obtain ⟨l, hl, hpos, rfl⟩ := mem_positives.1 hp
  exact hc l hl hpos

end Rule

/-- Bindings that reach the variables of a safe rule's body take the head to the instance by every function
that agrees with them. -/
theorem Program.Safe.substitute_head {p : Program α} (hp : p.Safe) {r : Rule} (hr : r ∈ p.rules)
    {b : Bindings} {σ : String → Term} (hσ : b.Agrees σ) (hb : ∀ x ∈ r.bound, x ∈ b) :
    r.head.substitute b = r.head.instantiate σ :=
  hσ.substitute_eq fun x hx => hb x (hp.bound_of_head r hr x hx)

/-- They also take the literals of the body to their instances. -/
theorem Program.Safe.substitute_body {p : Program α} (hp : p.Safe) {r : Rule} (hr : r ∈ p.rules)
    {b : Bindings} {σ : String → Term} (hσ : b.Agrees σ) (hb : ∀ x ∈ r.bound, x ∈ b) {l : Literal}
    (hl : l ∈ r.body) : l.atom.substitute b = l.atom.instantiate σ := by
  refine hσ.substitute_eq fun x hx => hb x ?_
  cases hpos : l.positive with
  | true => exact Rule.mem_bound.2 ⟨l, hl, hpos, hx⟩
  | false => exact hp.bound_of_negative r hr l hl hpos x hx

/-! ## Derivable atoms -/

/-- The least model of a program in which every fact is true and negated literals are ignored. -/
inductive Program.Derivable (p : Program α) : Term → Prop where
  /-- Facts are derivable. -/
  | fact {a : Term} (h : a ∈ p.factHeads) : Derivable p a
  /-- The head of a rule instance is derivable when its positive literals are. -/
  | rule {r : Rule} {σ : String → Term} (hr : r ∈ p.rules) (hσ : IsGrounding σ)
    (hb : ∀ l ∈ r.body, l.positive = true → Derivable p (l.atom.instantiate σ)) :
    Derivable p (r.head.instantiate σ)

theorem Program.Derivable.isGround {p : Program α} (hp : p.Safe) {a : Term} (h : p.Derivable a) :
    a.isGround = true := by
  cases h with
  | fact h => exact hp.fact_isGround a h
  | rule hr hσ hb => exact isGround_instantiate fun x _ => hσ x

/-- When all heads are compounds, so are the derivable atoms. -/
theorem Program.Derivable.isCompound {p : Program α}
    (hp : ∀ c ∈ p.clauses, c.head.functor?.isSome = true) {a : Term} (h : p.Derivable a) :
    a.functor?.isSome = true := by
  cases h with
  | fact h =>
    obtain ⟨c, hc, hhead⟩ := List.mem_filterMap.1 h
    have hcompound := hp c hc
    cases c with
    | rule r => simp [Clause.factHead?] at hhead
    | _ =>
      obtain rfl := Option.some.inj hhead
      exact hcompound
  | rule hr hσ hb => exact isCompound_instantiate (hp _ (Program.mem_rules.1 hr)) _

/-- The instances of positive literals are found as compounds when they are derivable. -/
theorem Program.Searchable.isCompound_instantiate {p : Program α} (hs : p.Searchable) {r : Rule}
    (hr : r ∈ p.rules) {l : Literal} (hl : l ∈ r.body) (hpos : l.positive = true)
    {σ : String → Term} (h : p.Derivable (l.atom.instantiate σ)) :
    (l.atom.instantiate σ).functor?.isSome = true := by
  rcases hs.isCompound with hheads | hbodies
  · exact h.isCompound hheads
  · exact Term.isCompound_instantiate (hbodies r hr l hl hpos) σ

/-! ## Rounds -/

namespace Rule

theorem mem_round {rules : List Rule} {atoms : TermSet} {a : Term} :
    a ∈ round rules atoms ↔
      a ∈ atoms ∨ ∃ r ∈ rules, a ∈ r.consequences (AtomIndex.ofList atoms.toList) := by
  simp [round, Std.ExtTreeSet.mem_insertMany_list]

theorem mem_consequences {index : AtomIndex} {r : Rule} {a : Term} :
    a ∈ r.consequences index ↔ ∃ b ∈ index.join r.positives, r.head.substitute b = a := by
  simp [consequences]

/-- A set that is no larger than one of its subsets is that subset. -/
theorem mem_of_size_le {s t : TermSet} (h : ∀ a ∈ s, a ∈ t) (hs : t.size ≤ s.size) {a : Term}
    (ha : a ∈ t) : a ∈ s := by
  have hsub : s.toList ⊆ t.toList := fun b hb =>
    Std.ExtTreeSet.mem_toList.2 (h b (Std.ExtTreeSet.mem_toList.1 hb))
  have hperm : s.toList.Perm t.toList :=
    (List.subperm_of_subset (TermSet.nodup_toList s) hsub).perm_of_length_le (by
      rwa [Std.ExtTreeSet.length_toList, Std.ExtTreeSet.length_toList])
  exact Std.ExtTreeSet.mem_toList.1 (hperm.mem_iff.2 (Std.ExtTreeSet.mem_toList.2 ha))

/-- What holds of the atoms a closure starts from and is kept by every round holds of the closure, to which
a further round adds nothing. -/
theorem closure_induction {rules : List Rule} {limit : Nat} {motive : TermSet → Prop}
    (step : ∀ atoms, motive atoms → motive (round rules atoms)) {atoms s : TermSet}
    (start : motive atoms) (h : closure rules limit atoms = .ok s) :
    motive s ∧ (round rules s).size ≤ s.size := by
  induction atoms using closure.induct rules limit with
  | case1 atoms next hsize =>
    rw [closure, if_pos hsize] at h
    obtain rfl : atoms = s := Except.ok.inj h
    exact ⟨start, hsize⟩
  | case2 atoms next hsize hlimit =>
    rw [closure, if_neg hsize, if_pos hlimit] at h
    simp at h
  | case3 atoms next hsize hlimit ih =>
    rw [closure, if_neg hsize, if_neg hlimit] at h
    exact ih (step atoms start) h

/-- The closure that is returned holds the atoms it starts from and all consequences of its own. -/
theorem closure_closed {rules : List Rule} {limit : Nat} {atoms s : TermSet}
    (h : closure rules limit atoms = .ok s) :
    (∀ a ∈ atoms, a ∈ s) ∧
      ∀ r ∈ rules, ∀ a ∈ r.consequences (AtomIndex.ofList s.toList), a ∈ s := by
  obtain ⟨hsub, hsize⟩ := closure_induction (motive := fun t => ∀ a ∈ atoms, a ∈ t)
    (fun t ht a ha => mem_round.2 (.inl (ht a ha))) (fun a ha => ha) h
  refine ⟨hsub, fun r hr a ha => ?_⟩
  -- a round that adds no atom has all consequences among those that it started from
  exact mem_of_size_le (fun b hb => mem_round.2 (.inl hb)) hsize (mem_round.2 (.inr ⟨r, hr, ha⟩))

/-- What holds of the atoms a closure starts from, and of the heads that rules give for atoms of which it
holds, holds of every atom of the closure. -/
theorem closure_forall {rules : List Rule} {limit : Nat} {motive : Term → Prop}
    (step : ∀ atoms : TermSet, (∀ a ∈ atoms, motive a) → ∀ r ∈ rules,
      ∀ b ∈ (AtomIndex.ofList atoms.toList).join r.positives, motive (r.head.substitute b))
    {atoms s : TermSet} (start : ∀ a ∈ atoms, motive a) (h : closure rules limit atoms = .ok s) :
    ∀ a ∈ s, motive a := by
  refine (closure_induction (motive := fun t => ∀ a ∈ t, motive a) ?_ start h).1
  intro t ht a ha
  rcases mem_round.1 ha with ha | ⟨r, hr, ha⟩
  · exact ht a ha
  · obtain ⟨b, hb, rfl⟩ := mem_consequences.1 ha
    exact step t ht r hr b hb

end Rule

/-! ## The possible atoms -/

namespace Program

theorem groundAtoms_of_derivable {p : Program α} (hp : p.Safe) {s : TermSet}
    (h : ∀ a ∈ s, p.Derivable a) : GroundAtoms s.toList := fun a ha =>
  (h a (Std.ExtTreeSet.mem_toList.1 ha)).isGround hp

theorem derivable_of_mem_factHeads {p : Program α} :
    ∀ a ∈ (Std.ExtTreeSet.ofList p.factHeads : TermSet), p.Derivable a := fun a ha =>
  .fact (by simpa using ha)

/-- A round over derivable atoms adds derivable atoms. -/
theorem derivable_of_mem_round {p : Program α} (hp : p.Safe) {atoms : TermSet}
    (hd : ∀ a ∈ atoms, p.Derivable a) : ∀ a ∈ Rule.round p.rules atoms, p.Derivable a := by
  intro a ha
  rcases Rule.mem_round.1 ha with ha | ⟨r, hr, ha⟩
  · exact hd a ha
  · obtain ⟨b, hb, rfl⟩ := Rule.mem_consequences.1 ha
    obtain ⟨σ, hσ, hbσ, hbound, hpos⟩ := Rule.join_sound (groundAtoms_of_derivable hp hd) hb
    rw [hp.substitute_head hr hbσ hbound]
    exact .rule hr hσ fun l hl hl' => hd _ (Std.ExtTreeSet.mem_toList.1 (hpos l hl hl'))

/-- Every atom that is found is derivable. -/
theorem derivable_of_mem_possible {p : Program α} (hp : p.Safe) {limit : Nat} {s : TermSet}
    (h : p.possible limit = .ok s) : ∀ a ∈ s, p.Derivable a :=
  (Rule.closure_induction (motive := fun s => ∀ a ∈ s, p.Derivable a)
    (fun _ hd => derivable_of_mem_round hp hd) derivable_of_mem_factHeads h).1

/-- The possible atoms are in every set of ground atoms that holds the facts and is closed under the rules. -/
theorem mem_of_mem_possible {p : Program α} {t : TermSet} (hground : GroundAtoms t.toList)
    (hfacts : ∀ a ∈ p.factHeads, a ∈ t)
    (hclosed : ∀ r ∈ p.rules, ∀ b ∈ (AtomIndex.ofList t.toList).join r.positives,
      r.head.substitute b ∈ t)
    {limit : Nat} {s : TermSet} (h : p.possible limit = .ok s) : ∀ a ∈ s, a ∈ t := by
  refine Rule.closure_forall (motive := (· ∈ t)) ?_ ?_ h
  · intro atoms hatoms r hr b hb
    apply hclosed r hr b (AtomIndex.join_mono hground _ hb)
    intro a ha
    rw [Std.ExtTreeSet.mem_toList] at ha ⊢
    exact hatoms a ha
  · intro a ha
    exact hfacts a (by simpa using ha)

/-- Every derivable atom is found. -/
theorem mem_possible_of_derivable {p : Program α} (hp : p.Safe) (hs : p.Searchable)
    {limit : Nat} {s : TermSet} (h : p.possible limit = .ok s) {a : Term} (ha : p.Derivable a) :
    a ∈ s := by
  obtain ⟨hfacts, hclosed⟩ := Rule.closure_closed h
  have hground := groundAtoms_of_derivable hp (derivable_of_mem_possible hp h)
  induction ha with
  | fact ha => exact hfacts _ (by simpa using ha)
  | @rule r σ hr hσ hb ih =>
    obtain ⟨b, hjoin, hbσ⟩ := Rule.join_complete_of_searchable hground (hs.searchable r hr)
      fun l hl hpos => ⟨Std.ExtTreeSet.mem_toList.2 (ih l hl hpos),
        hs.isCompound_instantiate hr hl hpos (hb l hl hpos)⟩
    obtain ⟨-, -, -, hbound, -⟩ := Rule.join_sound hground hjoin
    exact hclosed r hr _ (Rule.mem_consequences.2 ⟨b, hjoin, hp.substitute_head hr hbσ hbound⟩)

/-- The possible atoms are the derivable ones, when the rules can be searched. -/
theorem mem_possible_iff_of_searchable {p : Program α} (hp : p.Safe) (hs : p.Searchable)
    {limit : Nat} {s : TermSet} (h : p.possible limit = .ok s) {a : Term} : a ∈ s ↔ p.Derivable a :=
  ⟨derivable_of_mem_possible hp h a, mem_possible_of_derivable hp hs h⟩

/-- The possible atoms are the derivable ones. -/
theorem mem_possible_iff {p : Program α} (hp : p.Safe) (hc : p.CompoundBodies) {limit : Nat}
    {s : TermSet} (h : p.possible limit = .ok s) {a : Term} : a ∈ s ↔ p.Derivable a :=
  mem_possible_iff_of_searchable hp hc.searchable h

end Program

end TimedInference
