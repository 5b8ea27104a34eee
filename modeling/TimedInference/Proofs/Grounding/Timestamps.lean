import TimedInference.Proofs.Grounding.Relevance
import TimedInference.Proofs.Program.Integers
import TimedInference.Proofs.Syntax.Programs

/-!
# Integers of ground programs

Rules have no arithmetic: an instance has the integers of the rule and of the terms that its variables
stand for.  So all integers of derivable atoms are integers of the program
(`Program.mem_integers_of_derivable`), and so are those of a ground program
(`Program.mem_integers_of_ground`).  Those of a readable program are timestamps.
-/

namespace TimedInference

theorem Term.mem_integers_instantiate {σ : String → Term} {t : Term} {n : Int} :
    n ∈ (t.instantiate σ).integers ↔ n ∈ t.integers ∨ ∃ x ∈ t.occurrences, n ∈ (σ x).integers := by
  induction t with
  | var x => simp [instantiate, integers, occurrences]
  | int k => simp [instantiate, integers, occurrences]
  | compound f ts ih =>
    simp only [instantiate, instantiateAll_eq_map, integers, allIntegers_eq_flatMap, occurrences,
      allOccurrences_eq_flatMap, List.mem_flatMap, List.mem_map]
    constructor
    · rintro ⟨_, ⟨t, ht, rfl⟩, hn⟩
      rcases (ih t ht).1 hn with hn | ⟨x, hx, hn⟩
      · exact .inl ⟨t, ht, hn⟩
      · exact .inr ⟨x, ⟨t, ht, hx⟩, hn⟩
    · rintro (⟨t, ht, hn⟩ | ⟨x, ⟨t, ht, hx⟩, hn⟩)
      · exact ⟨_, ⟨t, ht, rfl⟩, (ih t ht).2 (.inl hn)⟩
      · exact ⟨_, ⟨t, ht, rfl⟩, (ih t ht).2 (.inr ⟨x, hx, hn⟩)⟩

namespace Program

variable {α : Type} {p : Program α}

/-! ## Integers of the program -/

theorem mem_integers_of_mem_factHeads {a : Term} (ha : a ∈ p.factHeads) {n : Int}
    (hn : n ∈ a.integers) : n ∈ p.integers := by
  obtain ⟨c, hc, ha⟩ := List.mem_filterMap.1 ha
  refine mem_integers.2 (.inl ⟨c, hc, ?_⟩)
  cases c with
  | rule r => simp [Clause.factHead?] at ha
  | _ =>
    obtain rfl := Option.some.inj ha
    exact hn

/-- Derivable atoms have no integers but those of the program. -/
theorem mem_integers_of_derivable (hs : p.Safe) {a : Term} (ha : p.Derivable a) :
    ∀ n ∈ a.integers, n ∈ p.integers := by
  induction ha with
  | fact ha => exact fun n hn => mem_integers_of_mem_factHeads ha hn
  | @rule r σ hr hσ _ ih =>
    intro n hn
    rcases Term.mem_integers_instantiate.1 hn with hn | ⟨x, hx, hn⟩
    · exact mem_integers.2 (.inl ⟨_, mem_rules.1 hr, List.mem_append_left _ hn⟩)
    · -- a variable of the head stands for a part of a derivable atom
      obtain ⟨l, hl, hpos, hxl⟩ := Rule.mem_bound.1 (hs.bound_of_head r hr x hx)
      exact ih l hl hpos n (Term.mem_integers_instantiate.2 (.inr ⟨x, hxl, hn⟩))

variable [Probability α]

/-- Ground programs have no integers but those of the program. -/
theorem mem_integers_of_ground {limit : Nat} {g : GroundProgram α}
    (h : (p.ground limit).outcome = .ok g) : ∀ n ∈ g.integers, n ∈ p.integers := by
  obtain ⟨hcheck, possible, order, hpossible, hg⟩ := groundsTo_of_ground h
  have hs := safe_of_check hcheck
  have hpossible {a : Term} (ha : a ∈ possible) : ∀ n ∈ a.integers, n ∈ p.integers :=
    mem_integers_of_derivable hs (derivable_of_mem_possible hs hpossible a ha)
  intro n hn
  rcases GroundProgram.mem_integers.1 hn with ⟨c, hc, hn⟩ | ⟨d, hd, hn⟩ | ⟨q, hq, hn⟩
  · exact mem_integers.2 (.inl ⟨_, mem_chances_of_mem_choices h hc, hn⟩)
  · have hmem : d.atom ∈ order := by
      rw [← hg.map_atom_eq]
      exact List.mem_map_of_mem hd
    exact hpossible (hg.mem_possible_of_mem_order hmem) n hn
  · have hmem : q.1 ∈ p.queryAtoms possible := by
      rw [← hg.map_query_eq]
      exact List.mem_map_of_mem hq
    rcases mem_queryAtoms_iff.1 hmem with ⟨hquery, -⟩ | ⟨hposs, -⟩
    · exact mem_integers.2 (.inr ⟨q.1, hquery, hn⟩)
    · exact hpossible hposs n hn

/-! ## Timestamps -/

theorem Readable.fits (hp : p.Readable) : ∀ n ∈ p.integers, Time.Fits n := by
  intro n hn
  rcases mem_integers.1 hn with ⟨c, hc, hn⟩ | ⟨q, hq, hn⟩
  · have hread := hp.clauses c hc
    cases c with
    | fact a => exact hread.fits n hn
    | chance w a => exact hread.2.fits n hn
    | rule r =>
      rcases List.mem_append.1 hn with hn | hn
      · exact hread.1.fits n hn
      · obtain ⟨l, hl, hn⟩ := List.mem_flatMap.1 hn
        exact (hread.2 l hl).fits n hn
  · exact (hp.queries q hq).fits n hn

/-- The integers of the atoms that queries ask for are timestamps. -/
theorem fits_of_mem_queries (hp : p.Readable) {limit : Nat} {g : GroundProgram α}
    (h : (p.ground limit).outcome = .ok g) {q : Term} (hq : q ∈ g.queries.map (·.1)) :
    ∀ n ∈ q.integers, Time.Fits n := by
  intro n hn
  obtain ⟨r, hr, rfl⟩ := List.mem_map.1 hq
  refine hp.fits n (mem_integers_of_ground h n ?_)
  exact GroundProgram.mem_integers.2 (.inr (.inr ⟨r, hr, hn⟩))

end Program

end TimedInference
