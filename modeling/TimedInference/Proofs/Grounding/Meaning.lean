import Mathlib.Data.Set.Insert
import TimedInference.Number.Rational
import TimedInference.Proofs.Grounding.GroundProgram

/-!
# Ground programs keep the meaning of queries

Once it is chosen which declarations of probabilistic facts hold, a supported model of a program is an
interpretation whose atoms are derivable and are exactly the immediate consequences of itself
(`Program.Supported`).  In every such model a query holds exactly when the ground program, in the world
that the choice gives, makes its atom true (`mem_iff_truthValue`).  Rule instances of the program are
first turned into the bodies of definitions (`exists_body_iff`); then the truth values are followed along
the dependency order (`truthValue_iff_mem`).
-/

namespace TimedInference

open Term

variable {α : Type}

/-! ## Supported models -/

/-- Whether the literals of an instance of a body are true in an interpretation. -/
def BodyHolds (I : Set Term) (σ : String → Term) (body : List Literal) : Prop :=
  ∀ l ∈ body, l.atom.instantiate σ ∈ I ↔ l.positive = true

namespace Program

/-- The immediate consequences of an interpretation, when the declarations of probabilistic facts with
chosen numbers hold. -/
inductive Consequence (p : Program α) (chosen : Nat → Bool) (I : Set Term) : Term → Prop where
  /-- Certain facts. -/
  | certain {a : Term} (h : a ∈ p.certainFacts) : Consequence p chosen I a
  /-- Probabilistic facts with a declaration that is chosen. -/
  | chance {a : Term} {prob : α} {i : Nat} (h : p.chances[i]? = some (a, prob))
    (hi : chosen i = true) : Consequence p chosen I a
  /-- Heads of rule instances whose literals are true. -/
  | rule {r : Rule} {σ : String → Term} (hr : r ∈ p.rules) (hσ : IsGrounding σ)
    (hb : BodyHolds I σ r.body) : Consequence p chosen I (r.head.instantiate σ)

theorem consequence_iff {p : Program α} {chosen : Nat → Bool} {I : Set Term} {a : Term} :
    p.Consequence chosen I a ↔
      a ∈ p.certainFacts ∨ (∃ i prob, p.chances[i]? = some (a, prob) ∧ chosen i = true) ∨
        ∃ r ∈ p.rules, ∃ σ, IsGrounding σ ∧ BodyHolds I σ r.body ∧ r.head.instantiate σ = a := by
  constructor
  · intro h
    cases h with
    | certain h => exact .inl h
    | chance h hi => exact .inr (.inl ⟨_, _, h, hi⟩)
    | rule hr hσ hb => exact .inr (.inr ⟨_, hr, _, hσ, hb, rfl⟩)
  · rintro (h | ⟨i, prob, h, hi⟩ | ⟨r, hr, σ, hσ, hb, rfl⟩)
    · exact .certain h
    · exact .chance h hi
    · exact .rule hr hσ hb

/-- Interpretations of derivable atoms that are the immediate consequences of themselves. -/
structure Supported (p : Program α) (chosen : Nat → Bool) (I : Set Term) : Prop where
  derivable : ∀ a ∈ I, p.Derivable a
  mem_iff : ∀ a, a ∈ I ↔ p.Consequence chosen I a

/-! ## Rule instances and bodies -/

/-- The body that is kept of a rule instance is true when the whole body is: the literals that are left
out are negated literals of atoms that are not possible. -/
theorem instanceBody_iff {p : Program α} (hp : p.Safe) {possible : TermSet} {I : Set Term}
    (hI : ∀ a ∈ I, a ∈ possible) {r : Rule} (hr : r ∈ p.rules) {b : Bindings} {σ : String → Term}
    (hσ : b.Agrees σ) (hb : ∀ x ∈ r.bound, x ∈ b) :
    (∀ l ∈ r.instanceBody possible b, l.atom ∈ I ↔ l.positive = true) ↔ BodyHolds I σ r.body := by
  have hsub (l : Literal) (hl : l ∈ r.body) : l.atom.substitute b = l.atom.instantiate σ :=
    hp.substitute_body hr hσ hb hl
  constructor
  · intro h l hl
    by_cases hkeep : (l.positive || possible.contains (l.atom.substitute b)) = true
    · have hmem : l.substitute b ∈ r.instanceBody possible b :=
        List.mem_filter.2 ⟨List.mem_map.2 ⟨l, hl, rfl⟩, hkeep⟩
      rw [← hsub l hl]
      exact h _ hmem
    · simp only [Bool.or_eq_true, not_or, Bool.not_eq_true, hsub l hl] at hkeep
      rw [hkeep.1]
      refine ⟨fun ha => ?_, by simp⟩
      have := Std.ExtTreeSet.mem_iff_contains.1 (hI _ ha)
      simp [hkeep.2] at this
  · intro h l' hl'
    obtain ⟨hmem, -⟩ := List.mem_filter.1 hl'
    obtain ⟨l, hl, rfl⟩ := List.mem_map.1 hmem
    show l.atom.substitute b ∈ I ↔ l.positive = true
    rw [hsub l hl]
    exact h l hl

/-- An atom is the head of a true rule instance exactly when one of its bodies is true. -/
theorem exists_body_iff {p : Program α} (hp : p.Safe) (hc : p.CompoundBodies) {possible : TermSet}
    (hground : GroundAtoms possible.toList) {I : Set Term} (hI : ∀ a ∈ I, a ∈ possible) {a : Term} :
    (∃ body ∈ (Definitions.ofRules p.rules possible).bodies a,
        ∀ l ∈ body, l.atom ∈ I ↔ l.positive = true) ↔
      ∃ r ∈ p.rules, ∃ σ, IsGrounding σ ∧ BodyHolds I σ r.body ∧ r.head.instantiate σ = a := by
  constructor
  · rintro ⟨body, hbody, htrue⟩
    obtain ⟨r, hr, b, hb, rfl, rfl⟩ := Definitions.mem_bodies_ofRules.1 hbody
    obtain ⟨σ, hσ, hbσ, hbound, -⟩ := Rule.join_sound hground hb
    exact ⟨r, hr, σ, hσ, (instanceBody_iff hp hI hr hbσ hbound).1 htrue,
      (hp.substitute_head hr hbσ hbound).symm⟩
  · rintro ⟨r, hr, σ, hσ, htrue, rfl⟩
    have hpos (l : Literal) (hl : l ∈ r.body) (hlp : l.positive = true) :
        l.atom.instantiate σ ∈ possible.toList :=
      Std.ExtTreeSet.mem_toList.2 (hI _ ((htrue l hl).2 hlp))
    obtain ⟨b, hb, hbσ⟩ := Rule.join_complete hground (hc r hr) hpos
    obtain ⟨-, -, -, hbound, -⟩ := Rule.join_sound hground hb
    exact ⟨r.instanceBody possible b, Definitions.mem_bodies_ofRules.2
      ⟨r, hr, b, hb, hp.substitute_head hr hbσ hbound, rfl⟩,
      (instanceBody_iff hp hI hr hbσ hbound).2 htrue⟩

/-! ## Choices and worlds -/

/-- In the world of a choice of declarations, an atom that is kept has a true choice exactly when one of
its declarations is chosen. -/
theorem any_testBit_iff {p : Program α} {possible : TermSet} {order : List Term}
    {g : GroundProgram α} (hg : p.GroundsTo possible order g) (chosen : Nat → Bool) {a : Term}
    (ha : a ∈ order) :
    ((choicesByAtom g.choices).getD a []).any (p.restrict g chosen).testBit = true ↔
      ∃ i prob, p.chances[i]? = some (a, prob) ∧ chosen i = true := by
  simp only [List.any_eq_true, mem_choicesByAtom, restrict, testBit_worldOf, hg.choices_eq,
    List.getElem?_map, Option.any_eq_true]
  constructor
  · rintro ⟨j, ⟨c, hc, rfl⟩, d, hd, hi⟩
    rw [hd] at hc
    obtain rfl := Option.some.inj hc
    have hmem := (List.mem_filter.1 (List.mem_of_getElem? hd)).1
    exact ⟨d.2, d.1.2, List.mem_zipIdx_iff_getElem?.1 hmem, hi⟩
  · rintro ⟨i, prob, hi, hchosen⟩
    have hmem : ((a, prob), i) ∈ p.keptDeclarations g := by
      refine List.mem_filter.2 ⟨List.mem_zipIdx_iff_getElem?.2 hi, ?_⟩
      rw [hg.map_atom_eq]
      exact List.contains_iff_mem.2 ha
    obtain ⟨j, hj⟩ := List.mem_iff_getElem?.1 hmem
    exact ⟨j, ⟨⟨a, prob⟩, by rw [hj]; rfl, rfl⟩, ((a, prob), i), hj, hchosen⟩

/-! ## Truth values along the order -/

/-- The bodies of an atom are true as a ground program evaluates them exactly when they are true in an
interpretation, if the values of the atoms before it are those of the interpretation. -/
theorem GroundsTo.any_bodies_iff {p : Program α} {possible : TermSet} {order : List Term}
    {g : GroundProgram α} (hg : p.GroundsTo possible order g) {i : Nat} {d : AtomDefinition}
    (hd : g.atoms[i]? = some d) {values : Array Bool} {I : Set Term}
    (hvalues : ∀ j < i, ∀ a, order[j]? = some a → (values.getD j false = true ↔ a ∈ I)) :
    (d.bodies.any fun body => body.all fun l => values.getD l.atom false == l.positive) = true ↔
      ∃ body ∈ (Definitions.ofRules p.rules possible).bodies d.atom,
        ∀ l ∈ body, l.atom ∈ I ↔ l.positive = true := by
  obtain ⟨ha, -, -, hbodies⟩ := hg.exists_of_getElem?_atoms hd
  rw [hbodies, List.any_map, List.any_eq_true]
  refine exists_congr fun body => and_congr_right fun hbody => ?_
  rw [Function.comp_apply, List.all_map, List.all_eq_true]
  refine forall₂_congr fun l hl => ?_
  obtain ⟨hlt, hat⟩ := hg.position_lt ha hbody hl
  rw [Function.comp_apply, beq_iff_eq, Bool.eq_iff_iff, hvalues _ hlt _ hat]

/-- An atom of the ground program is true exactly when it is in the supported model. -/
theorem truthValue_iff_mem {p : Program α} (hp : p.Safe) (hc : p.CompoundBodies)
    {possible : TermSet} (hpossible : ∀ a, a ∈ possible ↔ p.Derivable a) {order : List Term}
    {g : GroundProgram α} (hg : p.GroundsTo possible order g) {chosen : Nat → Bool} {I : Set Term}
    (hI : p.Supported chosen I) (i : Nat) {a : Term} (ha : order[i]? = some a) :
    (g.truthValues (p.restrict g chosen)).getD i false = true ↔ a ∈ I := by
  have hsub (a : Term) (h : a ∈ I) : a ∈ possible := (hpossible a).2 (hI.derivable a h)
  have hground := groundAtoms_of_derivable hp fun a h => (hpossible a).1 h
  -- by induction along the order: the atoms in the bodies of an atom stand before it
  induction i using Nat.strongRecOn generalizing a with
  | ind i ih =>
    obtain ⟨d, hd⟩ : ∃ d, g.atoms[i]? = some d := by
      rw [hg.atoms_eq, List.getElem?_map, ha]
      exact ⟨_, rfl⟩
    obtain ⟨ha', hcertain, hchoices, -⟩ := hg.exists_of_getElem?_atoms hd
    obtain rfl : d.atom = a := Option.some.inj (ha'.symm.trans ha)
    have hbodies := hg.any_bodies_iff hd fun j hj b hb => ih j hj hb
    rw [GroundProgram.truthValues_eq_holds (p.restrict g chosen) hd (hg.bodies_lt hd), hI.mem_iff,
      consequence_iff, AtomDefinition.holds, Bool.or_eq_true, Bool.or_eq_true, hcertain, hchoices,
      any_testBit_iff hg chosen (List.mem_of_getElem? ha), hbodies,
      exists_body_iff hp hc hground hsub, or_assoc]

/-! ## Queries -/

/-- In every supported model, a query holds exactly when the ground program has its atom and makes it
true in the world that the choice of declarations gives. -/
theorem mem_iff_truthValue [Probability α] {p : Program α} {limit : Nat} {g : GroundProgram α}
    (h : (p.ground limit).outcome = .ok g) (hc : p.CompoundBodies) {chosen : Nat → Bool}
    {I : Set Term} (hI : p.Supported chosen I) {q : Term × Option Nat} (hq : q ∈ g.queries) :
    q.1 ∈ I ↔
      ∃ i, q.2 = some i ∧ (g.truthValues (p.restrict g chosen))[i]? = some true := by
  obtain ⟨hcheck, possible, order, hpossible, hg⟩ := groundsTo_of_ground h
  have hp := safe_of_check hcheck
  have hderivable (a : Term) : a ∈ possible ↔ p.Derivable a := mem_possible_iff hp hc hpossible
  rw [hg.queries_eq, List.mem_map] at hq
  obtain ⟨a, ha, rfl⟩ := hq
  have hvalue (i : Nat) (hi : order[i]? = some a) :
      (g.truthValues (p.restrict g chosen))[i]? = some true ↔ a ∈ I := by
    rw [← truthValue_iff_mem hp hc hderivable hg hI i hi, Array.getD_eq_getD_getElem?]
    cases (g.truthValues (p.restrict g chosen))[i]? <;> simp
  constructor
  · intro hmem
    -- a possible atom that is asked for is relevant, so the ground program has it
    have hrelevant := Definitions.mem_relevant_of_mem_queried
      (d := Definitions.ofRules p.rules possible) ((hderivable a).2 (hI.derivable a hmem)) ha
    have hin := (Definitions.mem_order_iff hg.order_eq).2 hrelevant
    have hpos : (positions order)[a]? = some (order.idxOf a) := by
      rw [positions_eq, if_pos hin]
    exact ⟨order.idxOf a, hpos, (hvalue _ (getElem?_of_positions hpos)).2 hmem⟩
  · rintro ⟨i, hi, htrue⟩
    exact (hvalue i (getElem?_of_positions hi)).1 htrue

/-- One toss of a coin: what does not show heads shows tails. -/
def coin : Program Rat where
  clauses := [.chance (mkRat 1 2) (.compound "heads" [.int 0]), .fact (.compound "tossed" [.int 0]),
    .rule ⟨.compound "tails" [.var "T"],
      [⟨.compound "tossed" [.var "T"], true⟩, ⟨.compound "heads" [.var "T"], false⟩]⟩]
  queries := [.compound "tails" [.int 0]]

/-- When the coin does not show heads, what holds is that it is tossed and shows tails. -/
theorem supported_coin :
    coin.Supported (fun _ => false) {.compound "tossed" [.int 0], .compound "tails" [.int 0]} := by
  have htossed : coin.Derivable (.compound "tossed" [.int 0]) := .fact (by decide)
  have hzero : IsGrounding fun _ => .int 0 := fun _ => rfl
  have hrule : (⟨.compound "tails" [.var "T"],
      [⟨.compound "tossed" [.var "T"], true⟩, ⟨.compound "heads" [.var "T"], false⟩]⟩ : Rule) ∈
        coin.rules := by decide
  refine ⟨?_, fun a => ⟨?_, fun h => ?_⟩⟩
  · rintro a (rfl | rfl)
    · exact htossed
    · refine .rule hrule hzero fun l hl hpos => ?_
      obtain rfl : l = ⟨.compound "tossed" [.var "T"], true⟩ := by
        simp only [List.mem_cons, List.not_mem_nil, or_false] at hl
        rcases hl with rfl | rfl
        · rfl
        · simp at hpos
      exact htossed
  · rintro (rfl | rfl)
    · exact .certain (by decide)
    · refine .rule hrule hzero fun l hl => ?_
      simp only [List.mem_cons, List.not_mem_nil, or_false] at hl
      rcases hl with rfl | rfl <;> simp [instantiate]
  · cases h with
    | certain h =>
      obtain rfl : .compound "tossed" [.int 0] = a := by
        simpa [certainFacts, coin, Clause.certainHead?] using h
      exact .inl rfl
    | chance hi hchosen => simp at hchosen
    | @rule r σ hr hσ hb =>
      obtain rfl : ⟨.compound "tails" [.var "T"],
          [⟨.compound "tossed" [.var "T"], true⟩, ⟨.compound "heads" [.var "T"], false⟩]⟩ = r := by
        simpa [rules, coin, Clause.rule?] using hr
      have ht := (hb ⟨.compound "tossed" [.var "T"], true⟩ (by simp)).2 rfl
      have hzero : σ "T" = .int 0 := by simpa [instantiate] using ht
      simp [instantiate, hzero]

/-- What the coin program says about tails, without variables. -/
def groundCoin : GroundProgram Rat where
  choices := [⟨.compound "heads" [.int 0], mkRat 1 2⟩]
  atoms := [⟨.compound "tossed" [.int 0], true, [], []⟩,
    ⟨.compound "heads" [.int 0], false, [0], []⟩,
    ⟨.compound "tails" [.int 0], false, [], [[⟨0, true⟩, ⟨1, false⟩]]⟩]
  queries := [(.compound "tails" [.int 0], some 2)]

theorem mem_iff_truthValue_coin :
    .compound "tails" [.int 0] ∈
        ({.compound "tossed" [.int 0], .compound "tails" [.int 0]} : Set Term) ↔
      ∃ i, some 2 = some i ∧
        (groundCoin.truthValues (coin.restrict groundCoin fun _ => false))[i]? = some true :=
  have grounds : (coin.ground 10).outcome = .ok groundCoin := by decide +kernel
  have hbodies : coin.CompoundBodies := by
    show ∀ r ∈ coin.rules, ∀ l ∈ r.body, l.positive = true → l.atom.functor?.isSome = true
    decide
  mem_iff_truthValue (q := (.compound "tails" [.int 0], some 2)) grounds hbodies supported_coin
    (by decide)

end Program

end TimedInference
