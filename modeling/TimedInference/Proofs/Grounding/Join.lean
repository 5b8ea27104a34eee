import Mathlib.Data.List.Nodup
import TimedInference.Grounding.Join
import TimedInference.Proofs.Term.Matching

/-!
# Joins are exact

A join takes its patterns from left to right.  A pattern that is a bare variable can be looked up only when
an earlier pattern has bound the variable (`AtomIndex.searchable`).  Over ground atoms, and for patterns
that can be looked up, a join returns exactly the bindings of the patterns' variables under which every
pattern becomes a compound among the atoms (`AtomIndex.mem_join_iff`), whatever the order of the patterns.
Every function that takes such patterns to atoms agrees with returned bindings (`joinFrom_complete`).
Compound patterns can always be looked up, and no bindings are returned twice (`AtomIndex.join_exact`).
-/

namespace TimedInference

open Term

/-- What is needed of the atoms of an index: they are ground. -/
def GroundAtoms (atoms : List Term) : Prop := ∀ a ∈ atoms, a.isGround = true

/-! ## Signatures -/

theorem Term.signature?_instantiate {t : Term} {s : String × Nat} (h : t.signature? = some s)
    (σ : String → Term) : (t.instantiate σ).signature? = some s := by
  cases t with
  | compound f ts =>
    rw [← h]
    simp [signature?, functor?, arity, args, instantiate]
  | _ => simp [signature?, functor?] at h

theorem Term.exists_signature?_iff {t : Term} :
    (∃ s, t.signature? = some s) ↔ t.functor?.isSome = true := by
  cases h : t.functor? <;> simp [signature?, h]

theorem Term.isCompound_instantiate {t : Term} (h : t.functor?.isSome = true) (σ : String → Term) :
    (t.instantiate σ).functor?.isSome = true := by
  obtain ⟨s, hs⟩ := exists_signature?_iff.2 h
  exact exists_signature?_iff.1 ⟨s, signature?_instantiate hs σ⟩

/-- Whether a term can be looked up when some variables are bound: a bare variable must be one of them. -/
def Term.isKnown (known : List String) : Term → Bool
  | var x => known.contains x
  | _ => true

/-- A pattern that bindings turn into a compound is one before its variables are bound, unless it is a bare
variable that is bound only then. -/
theorem Term.isKnown_and_signature?_iff {known : List String} {b c : Bindings}
    (hk : ∀ x, x ∈ known ↔ x ∈ b) (hbc : b.Extends c) {t : Term} {s : String × Nat} :
    t.isKnown known = true ∧ (t.substitute c).signature? = some s ↔
      (t.substitute b).signature? = some s := by
  cases t with
  | var x =>
    simp only [isKnown, List.contains_iff_mem, hk, substitute]
    cases hx : b[x]? with
    | none => simp [Bindings.mem_iff_exists, hx, signature?, functor?]
    | some u =>
      simp only [hbc x u hx, Bindings.mem_iff_exists.2 ⟨u, hx⟩, Option.getD_some, true_and]
  | int n => simp [substitute, signature?, functor?]
  | compound f ts => simp [isKnown, substitute, signature?, functor?, arity, args]

/-! ## Bindings of the variables of patterns -/

/-- The second bindings add to the first ones the variables of some patterns, so that every pattern becomes a
compound among some atoms. -/
structure Bindings.Solves (b : Bindings) (atoms patterns : List Term) (c : Bindings) : Prop where
  extends_ : b.Extends c
  mem_iff : ∀ x, x ∈ c ↔ x ∈ b ∨ ∃ p ∈ patterns, x ∈ p.occurrences
  mem_atoms : ∀ p ∈ patterns, p.substitute c ∈ atoms
  isCompound : ∀ p ∈ patterns, (p.substitute c).functor?.isSome = true

namespace Bindings.Solves

variable {atoms patterns : List Term} {b c d : Bindings}

theorem ground (h : b.Solves atoms patterns c) (ha : GroundAtoms atoms) (hb : b.Ground) :
    c.Ground := by
  intro x t hx
  rcases (h.mem_iff x).1 (Bindings.mem_iff_exists.2 ⟨t, hx⟩) with hxb | ⟨p, hp, hxp⟩
  · obtain ⟨u, hu⟩ := Bindings.mem_iff_exists.1 hxb
    obtain rfl := Option.some.inj ((h.extends_ x u hu).symm.trans hx)
    exact hb x u hu
  · have hg := ha _ (h.mem_atoms p hp)
    rw [substitute_eq_instantiate] at hg
    have hlookup := isGround_of_mem_occurrences hg x hxp
    rwa [lookup, hx] at hlookup

theorem bound (h : b.Solves atoms patterns c) : ∀ p ∈ patterns, ∀ x ∈ p.occurrences, x ∈ c :=
  fun p hp x hx => (h.mem_iff x).2 (.inr ⟨p, hp, hx⟩)

/-- Every function that agrees takes the patterns to atoms. -/
theorem instantiate_mem (h : b.Solves atoms patterns c) {σ : String → Term} (hσ : c.Agrees σ) :
    ∀ p ∈ patterns, p.instantiate σ ∈ atoms := by
  intro p hp
  rw [← hσ.substitute_eq (h.bound p hp)]
  exact h.mem_atoms p hp

theorem cons {p : Term} {ps : List Term} (h : b.Solves atoms [p] d) (h' : d.Solves atoms ps c) :
    b.Solves atoms (p :: ps) c where
  extends_ := h.extends_.trans h'.extends_
  mem_iff x := by
    rw [h'.mem_iff, h.mem_iff]
    simp only [List.mem_cons, List.not_mem_nil, or_false, exists_eq_left, exists_eq_or_imp,
      or_assoc]
  mem_atoms := by
    rw [List.forall_mem_cons, ← h'.extends_.substitute_eq (h.bound p (by simp))]
    exact ⟨h.mem_atoms p (by simp), h'.mem_atoms⟩
  isCompound := by
    rw [List.forall_mem_cons, ← h'.extends_.substitute_eq (h.bound p (by simp))]
    exact ⟨h.isCompound p (by simp), h'.isCompound⟩

/-- The bindings of some patterns extend bindings of the first pattern alone. -/
theorem exists_head (hb : b.Ground) {p : Term} {ps : List Term} (h : b.Solves atoms (p :: ps) c) :
    ∃ d, b.Solves atoms [p] d ∧ d.Solves atoms ps c := by
  obtain ⟨d, hd, hdc⟩ := exists_match?_substitute hb h.extends_ (h.bound p List.mem_cons_self)
  obtain ⟨hbd, hmem, hinstance⟩ := match?_substitute_sound hb hd
  obtain ⟨hp, hps⟩ := List.forall_mem_cons.1 h.mem_atoms
  obtain ⟨hp', hps'⟩ := List.forall_mem_cons.1 h.isCompound
  refine ⟨d, ⟨hbd, fun x => by simpa using hmem x, ?_, ?_⟩, ⟨hdc, fun x => ?_, hps, hps'⟩⟩
  · simpa [hinstance] using hp
  · simpa [hinstance] using hp'
  · rw [h.mem_iff, hmem]
    simp only [List.mem_cons, exists_eq_or_imp, or_assoc]

/-- Which bindings solve some patterns does not depend on the order of the patterns. -/
theorem perm {qs : List Term} (h : b.Solves atoms patterns c) (hperm : patterns.Perm qs) :
    b.Solves atoms qs c where
  extends_ := h.extends_
  mem_iff x := by simp only [h.mem_iff, hperm.mem_iff]
  mem_atoms p hp := h.mem_atoms p (hperm.mem_iff.2 hp)
  isCompound p hp := h.isCompound p (hperm.mem_iff.2 hp)

/-- Bindings that solve patterns over some atoms solve them over more atoms. -/
theorem mono {atoms' : List Term} (h : b.Solves atoms patterns c) (hsub : ∀ a ∈ atoms, a ∈ atoms') :
    b.Solves atoms' patterns c where
  extends_ := h.extends_
  mem_iff := h.mem_iff
  mem_atoms p hp := hsub _ (h.mem_atoms p hp)
  isCompound := h.isCompound

end Bindings.Solves

/-! ## Joins -/

namespace AtomIndex

theorem mem_candidates_ofList {atoms : List Term} {pattern atom : Term} :
    atom ∈ (ofList atoms).candidates pattern ↔
      atom ∈ atoms ∧ ∃ s, pattern.signature? = some s ∧ atom.signature? = some s := by
  cases h : pattern.signature? with
  | none => simp [candidates, h]
  | some s => simp [candidates_ofList atoms h]

/-- Extending bindings by one pattern is exact. -/
theorem mem_extend_iff {atoms : List Term} {pattern : Term} {b c : Bindings} (hb : b.Ground)
    {known : List String} (hk : ∀ x, x ∈ known ↔ x ∈ b) :
    c ∈ (ofList atoms).extend pattern b ↔
      pattern.isKnown known = true ∧ b.Solves atoms [pattern] c := by
  simp only [extend, List.mem_filterMap, mem_candidates_ofList]
  constructor
  · rintro ⟨atom, ⟨hatom, s, hs, hs'⟩, hm⟩
    obtain ⟨hextends, hmem, hinstance⟩ := match?_substitute_sound hb hm
    have hknown := (isKnown_and_signature?_iff hk hextends).2 hs
    refine ⟨hknown.1, hextends, fun x => by simpa using hmem x, ?_, ?_⟩
    · simpa [hinstance] using hatom
    · simpa using exists_signature?_iff.1 ⟨s, hknown.2⟩
  · rintro ⟨hknown, h⟩
    obtain ⟨s, hs⟩ := exists_signature?_iff.2 (h.isCompound pattern (by simp))
    obtain ⟨d, hd, hdc⟩ := exists_match?_substitute hb h.extends_ (h.bound pattern (by simp))
    have hmem := (match?_substitute_sound hb hd).2.1
    obtain rfl : d = c := hdc.eq_of_mem fun x hx => by
      rw [hmem]
      simpa using (h.mem_iff x).1 hx
    exact ⟨pattern.substitute d, ⟨h.mem_atoms pattern (by simp), s,
      (isKnown_and_signature?_iff hk h.extends_).1 ⟨hknown, hs⟩, hs⟩, hd⟩

theorem solves_of_mem_extend {atoms : List Term} {pattern : Term} {b c : Bindings} (hb : b.Ground)
    (h : c ∈ (ofList atoms).extend pattern b) : b.Solves atoms [pattern] c := by
  have hk (x : String) : x ∈ b.keys ↔ x ∈ b := Std.ExtTreeMap.mem_keys
  exact ((mem_extend_iff hb hk).1 h).2

/-- Extending bindings by one pattern that can be looked up is complete. -/
theorem extend_complete {atoms : List Term} {pattern : Term} {b : Bindings} (hb : b.Ground)
    {known : List String} (hk : ∀ x, x ∈ known ↔ x ∈ b) (hp : pattern.isKnown known = true)
    {σ : String → Term} (hσ : b.Agrees σ) (h : pattern.instantiate σ ∈ atoms)
    (hc : (pattern.instantiate σ).functor?.isSome = true) :
    ∃ c ∈ (ofList atoms).extend pattern b, c.Agrees σ := by
  obtain ⟨c, hm, hcσ⟩ := match?_complete (pattern.substitute b) hσ
  rw [hσ.instantiate_substitute hb] at hm
  obtain ⟨hextends, hmem, hinstance⟩ := match?_substitute_sound hb hm
  refine ⟨c, (mem_extend_iff hb hk).2 ⟨hp, hextends, fun x => by simpa using hmem x, ?_, ?_⟩, hcσ⟩
  · simpa [hinstance] using h
  · simpa [hinstance] using hc

/-- Whether patterns can be looked up one after the other when some variables are bound at first: a bare
variable must be one of these or occur in an earlier pattern. -/
def searchable (known : List String) : List Term → Bool
  | [] => true
  | p :: ps => p.isKnown known && searchable (known ++ p.occurrences) ps

/-- Compound patterns can be looked up in any order. -/
theorem searchable_of_isCompound {patterns : List Term}
    (h : ∀ p ∈ patterns, p.functor?.isSome = true) (known : List String) :
    searchable known patterns = true := by
  induction patterns generalizing known with
  | nil => rfl
  | cons p ps ih =>
    rw [List.forall_mem_cons] at h
    have hknown : p.isKnown known = true := by
      cases p with
      | var x => simp [functor?] at h
      | _ => rfl
    rw [searchable, hknown, ih h.2, Bool.and_self]

/-- Joining further patterns is exact. -/
theorem mem_joinFrom_iff {atoms : List Term} (ha : GroundAtoms atoms) {patterns : List Term}
    {b c : Bindings} (hb : b.Ground) {known : List String} (hk : ∀ x, x ∈ known ↔ x ∈ b) :
    c ∈ (ofList atoms).joinFrom patterns b ↔
      searchable known patterns = true ∧ b.Solves atoms patterns c := by
  induction patterns generalizing b known with
  | nil =>
    simp only [joinFrom, List.mem_singleton, searchable, true_and]
    constructor
    · rintro rfl
      exact ⟨Bindings.Extends.refl c, by simp, by simp, by simp⟩
    · intro h
      exact (h.extends_.eq_of_mem fun x hx => by simpa using (h.mem_iff x).1 hx).symm
  | cons p ps ih =>
    have hstep {d : Bindings} (hd : b.Solves atoms [p] d) :
        c ∈ (ofList atoms).joinFrom ps d ↔
          searchable (known ++ p.occurrences) ps = true ∧ d.Solves atoms ps c :=
      ih (hd.ground ha hb) fun x => by simp [hk, hd.mem_iff x]
    simp only [joinFrom, List.mem_flatMap, mem_extend_iff hb hk, searchable, Bool.and_eq_true]
    constructor
    · rintro ⟨d, ⟨hknown, hd⟩, hc⟩
      obtain ⟨hrest, hdc⟩ := (hstep hd).1 hc
      exact ⟨⟨hknown, hrest⟩, hd.cons hdc⟩
    · rintro ⟨⟨hknown, hrest⟩, h⟩
      -- the bindings of the first pattern are those of all patterns, restricted to its variables
      obtain ⟨d, hd, hdc⟩ := h.exists_head hb
      exact ⟨d, ⟨hknown, hd⟩, (hstep hd).2 ⟨hrest, hdc⟩⟩

/-- A join returns exactly the bindings of the patterns' variables under which every pattern becomes a
compound among the atoms, if the patterns can be looked up from left to right, and nothing otherwise. -/
theorem mem_join_iff {atoms : List Term} (ha : GroundAtoms atoms) {patterns : List Term}
    {c : Bindings} :
    c ∈ (ofList atoms).join patterns ↔
      searchable [] patterns = true ∧ Bindings.Solves ∅ atoms patterns c :=
  mem_joinFrom_iff ha Bindings.ground_empty (by simp)

/-- Joining patterns is sound. -/
theorem join_sound {atoms : List Term} (ha : GroundAtoms atoms) {patterns : List Term}
    {c : Bindings} (h : c ∈ (ofList atoms).join patterns) : Bindings.Solves ∅ atoms patterns c :=
  ((mem_join_iff ha).1 h).2

/-- A join over more atoms finds more. -/
theorem join_mono {atoms atoms' patterns : List Term} (ha' : GroundAtoms atoms')
    (hsub : ∀ a ∈ atoms, a ∈ atoms') {b : Bindings} (h : b ∈ (ofList atoms).join patterns) :
    b ∈ (ofList atoms').join patterns := by
  obtain ⟨hsearch, hs⟩ := (mem_join_iff fun a ha => ha' a (hsub a ha)).1 h
  exact (mem_join_iff ha').2 ⟨hsearch, hs.mono hsub⟩

/-- Joining further patterns that can be looked up is complete. -/
theorem joinFrom_complete {atoms : List Term} (ha : GroundAtoms atoms) {patterns : List Term}
    {b : Bindings} (hb : b.Ground) {known : List String} (hk : ∀ x, x ∈ known ↔ x ∈ b)
    (hsearch : searchable known patterns = true) {σ : String → Term} (hσ : b.Agrees σ)
    (h : ∀ p ∈ patterns, p.instantiate σ ∈ atoms ∧ (p.instantiate σ).functor?.isSome = true) :
    ∃ c ∈ (ofList atoms).joinFrom patterns b, c.Agrees σ := by
  induction patterns generalizing b known with
  | nil => exact ⟨b, by simp [joinFrom], hσ⟩
  | cons p ps ih =>
    rw [List.forall_mem_cons] at h
    rw [searchable, Bool.and_eq_true] at hsearch
    obtain ⟨d, hd, hdσ⟩ := extend_complete hb hk hsearch.1 hσ h.1.1 h.1.2
    have hsolves := solves_of_mem_extend hb hd
    have hknown (x : String) : x ∈ known ++ p.occurrences ↔ x ∈ d := by simp [hk, hsolves.mem_iff x]
    obtain ⟨c, hc, hcσ⟩ := ih (hsolves.ground ha hb) hknown hsearch.2 hdσ h.2
    refine ⟨c, ?_, hcσ⟩
    simp only [joinFrom, List.mem_flatMap]
    exact ⟨d, hd, hc⟩

/-! ## No repetition -/

/-- Different atoms extend bindings in different ways. -/
theorem nodup_extend {atoms : List Term} (h : atoms.Nodup) (pattern : Term) (b : Bindings) :
    ((ofList atoms).extend pattern b).Nodup := by
  have hcandidates : ((ofList atoms).candidates (pattern.substitute b)).Nodup := by
    cases hs : (pattern.substitute b).signature? with
    | none => simp [candidates, hs]
    | some s =>
      rw [candidates_ofList atoms hs]
      exact h.filter _
  refine List.Nodup.filterMap (fun atom atom' c hc hc' => ?_) hcandidates
  -- both atoms are what the bindings turn the pattern into
  exact (match?_sound hc).turnsInto.substitute_eq.symm.trans (match?_sound hc').turnsInto.substitute_eq

/-- A join over atoms without repetition returns no bindings twice. -/
theorem nodup_joinFrom {atoms : List Term} (ha : GroundAtoms atoms) (h : atoms.Nodup)
    {patterns : List Term} {b : Bindings} (hb : b.Ground) :
    ((ofList atoms).joinFrom patterns b).Nodup := by
  induction patterns generalizing b with
  | nil => exact List.nodup_singleton b
  | cons p ps ih =>
    have hsolves {d : Bindings} (hd : d ∈ (ofList atoms).extend p b) : b.Solves atoms [p] d :=
      solves_of_mem_extend hb hd
    have hrest {c d : Bindings} (hd : d ∈ (ofList atoms).extend p b)
        (hc : c ∈ (ofList atoms).joinFrom ps d) : d.Extends c := by
      have hk (x : String) : x ∈ d.keys ↔ x ∈ d := Std.ExtTreeMap.mem_keys
      exact ((mem_joinFrom_iff ha ((hsolves hd).ground ha hb) hk).1 hc).2.extends_
    rw [joinFrom, List.nodup_flatMap]
    refine ⟨fun d hd => ih ((hsolves hd).ground ha hb), ?_⟩
    refine (nodup_extend h p b).pairwise_of_forall_ne fun d hd d' hd' hne => ?_
    -- what goes on from two bindings of the same variables extends both of them
    intro c hc hc'
    apply hne
    refine (hrest hd hc).eq_of_extends (hrest hd' hc') fun x => ?_
    rw [(hsolves hd).mem_iff, (hsolves hd').mem_iff]

/-- A join of compound patterns over a set of ground atoms returns, each once, exactly the bindings of the
variables of the patterns under which every pattern becomes one of the atoms. -/
theorem join_exact {atoms : TermSet} (ha : ∀ a ∈ atoms, a.isGround = true) {patterns : List Term}
    (hp : ∀ p ∈ patterns, p.functor?.isSome = true) :
    ((ofList atoms.toList).join patterns).Nodup ∧
      ∀ b, b ∈ (ofList atoms.toList).join patterns ↔
        (∀ x, x ∈ b ↔ ∃ p ∈ patterns, x ∈ p.occurrences) ∧
          ∀ p ∈ patterns, p.substitute b ∈ atoms := by
  have hground : GroundAtoms atoms.toList := fun a hmem => ha a (Std.ExtTreeSet.mem_toList.1 hmem)
  refine ⟨nodup_joinFrom hground atoms.nodup_toList Bindings.ground_empty, fun b => ?_⟩
  rw [mem_join_iff hground]
  constructor
  · rintro ⟨-, hb⟩
    exact ⟨fun x => by simpa using hb.mem_iff x,
      fun p hmem => Std.ExtTreeSet.mem_toList.1 (hb.mem_atoms p hmem)⟩
  · rintro ⟨hmem, hatoms⟩
    refine ⟨searchable_of_isCompound hp [], fun x t hx => by simp at hx, fun x => by simpa using hmem x,
      fun p hmem => Std.ExtTreeSet.mem_toList.2 (hatoms p hmem), fun p hmem => ?_⟩
    rw [substitute_eq_instantiate]
    exact isCompound_instantiate (hp p hmem) _

/-- Roads between places, and a place with an inn. -/
def roads : TermSet :=
  Std.ExtTreeSet.ofList [compound "road" [int 1, int 2], compound "road" [int 2, int 2],
    compound "road" [int 2, int 3], compound "inn" [compound "place" [int 2]]]

/-- The ways to a place with an inn and on from there. -/
def stopover : List Term :=
  [compound "road" [var "X", var "Y"], compound "inn" [compound "place" [var "Y"]],
    compound "road" [var "Y", var "Z"]]

/-- There are four of them, two ways to the place with two ways on. -/
theorem join_exact_stopover :
    ((ofList roads.toList).join stopover).Nodup ∧ ((ofList roads.toList).join stopover).length = 4 ∧
      ∀ b, b ∈ (ofList roads.toList).join stopover ↔
        (∀ x, x ∈ b ↔ ∃ p ∈ stopover, x ∈ p.occurrences) ∧
          ∀ p ∈ stopover, p.substitute b ∈ roads := by
  have hroads : ∀ a ∈ roads, a.isGround = true := by
    have hlist : ∀ a ∈ roads.toList, a.isGround = true := by decide +kernel
    exact fun a ha => hlist a (Std.ExtTreeSet.mem_toList.2 ha)
  have hstopover : ∀ p ∈ stopover, p.functor?.isSome = true := by decide
  obtain ⟨hnodup, hmem⟩ := join_exact hroads hstopover
  exact ⟨hnodup, by decide +kernel, hmem⟩

end AtomIndex

end TimedInference
