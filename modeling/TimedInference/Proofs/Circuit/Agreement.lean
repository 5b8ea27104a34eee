import TimedInference.Circuit.Diagrams
import TimedInference.Proofs.Diagram.Counting
import TimedInference.Proofs.Diagram.Operations

/-!
# Diagrams and worlds agree

Compiling a ground program to diagrams and enumerating its worlds answer alike.  In every world the
diagram of an atom is true exactly when the atom holds (`atomDiagrams_holds`): this is followed through
the choices and bodies of one atom and then along the list of atoms.  Weighted counting then turns the
probability of a query's diagram into the sum that the enumeration computes
(`evaluate_diagrams_eq_worlds`).
-/

namespace TimedInference

open Diagram Diagram.Store

variable {α : Type}

/-! ## The diagram of an atom -/

/-- The diagrams of some atoms: references to a well-formed store which are true in every world in
which the atoms hold, and in no other. -/
structure Represents (s : Store) (known : Array Nat) (truth : Nat → Array Bool) : Prop where
  wellFormed : s.WellFormed
  lt_size : ∀ i, known.getD i falseRef < s.size
  eval_eq : ∀ world i, s.eval world.testBit (known.getD i falseRef) = (truth world).getD i false

/-- References keep what they represent when the store grows. -/
theorem Represents.grow {s t : Store} {known : Array Nat} {truth : Nat → Array Bool}
    (h : Represents s known truth) (ht : t.WellFormed) (hx : s.Extends t) :
    Represents t known truth where
  wellFormed := ht
  lt_size i := Nat.lt_of_lt_of_le (h.lt_size i) hx.size_le
  eval_eq world i := by rw [hx.eval_eq _ (h.lt_size i), h.eval_eq]

/-- What a computation on a store does that represents some atoms: it returns the diagram of a
statement about worlds, in a store that still represents them. -/
structure Tells (s : Store) (statement : Nat → Bool) (out : Nat × Store) : Prop where
  wellFormed : out.2.WellFormed
  extends_ : s.Extends out.2
  lt_size : out.1 < out.2.size
  eval_eq : ∀ world, out.2.eval world.testBit out.1 = statement world

theorem Diagram.Store.Makes.tells {s : Store} {meaning : (Nat → Bool) → Bool} {bound : Nat → Prop}
    {out : Nat × Store} (h : Makes s meaning bound out) :
    Tells s (fun world => meaning world.testBit) out :=
  ⟨h.wellFormed, h.extends_, h.lt_size, fun world => h.eval_eq world.testBit⟩

/-- A connective of a diagram that is there and one that is computed first. -/
theorem Tells.combine {s : Store} {statement : Nat → Bool} {out : Nat × Store}
    (h : Tells s statement out) (c : Connective) {f : Nat} (hf : f < s.size) {b : Nat → Bool}
    (he : ∀ world, s.eval world.testBit f = b world) :
    Tells s (fun world => c.eval (b world) (statement world))
      ((Store.combine c f out.1).run out.2) := by
  have hm := combine_makes h.wellFormed c (Nat.lt_of_lt_of_le hf h.extends_.size_le) h.lt_size
  refine ⟨hm.wellFormed, h.extends_.trans hm.extends_, hm.lt_size, fun world => ?_⟩
  rw [hm.eval_eq, h.extends_.eval_eq _ hf, he, h.eval_eq]

namespace GroundProgram

theorem literalDiagram_tells {s : Store} {known : Array Nat} {truth : Nat → Array Bool}
    (h : Represents s known truth) (l : GroundLiteral) :
    Tells s (fun world => (truth world).getD l.atom false == l.positive)
      ((literalDiagram known l).run s) := by
  have hl := h.lt_size l.atom
  unfold literalDiagram
  cases hp : l.positive with
  | true =>
    refine ⟨h.wellFormed, Extends.refl s, hl, fun world => ?_⟩
    rw [beq_true]
    exact h.eval_eq world l.atom
  | false =>
    have hm := negate_makes h.wellFormed hl
    refine ⟨hm.wellFormed, hm.extends_, hm.lt_size, fun world => ?_⟩
    rw [beq_false, ← h.eval_eq]
    exact hm.eval_eq world.testBit

/-- The conjunction of a diagram with the literals of a body. -/
theorem foldlM_literals_tells {known : Array Nat} {truth : Nat → Array Bool}
    (body : List GroundLiteral) {s : Store} (h : Represents s known truth) {f : Nat}
    (hf : f < s.size) {b : Nat → Bool}
    (he : ∀ world, s.eval world.testBit f = b world) :
    Tells s
      (fun world => b world &&
        body.all fun l => (truth world).getD l.atom false == l.positive)
      ((body.foldlM (fun f l => do conjoin f (← literalDiagram known l)) f).run s) := by
  induction body generalizing s f b with
  | nil => exact ⟨h.wellFormed, Extends.refl s, hf, fun world => by simp [← he]; rfl⟩
  | cons l body ih =>
    have hl := (literalDiagram_tells h l).combine .and hf he
    have hb := ih (h.grow hl.wellFormed hl.extends_) hl.lt_size hl.eval_eq
    refine ⟨hb.wellFormed, hl.extends_.trans hb.extends_, hb.lt_size, fun world => ?_⟩
    rw [List.all_cons, ← Bool.and_assoc]
    exact hb.eval_eq world

theorem bodyDiagram_tells {s : Store} {known : Array Nat} {truth : Nat → Array Bool}
    (h : Represents s known truth) (body : List GroundLiteral) :
    Tells s
      (fun world => body.all fun l => (truth world).getD l.atom false == l.positive)
      ((bodyDiagram known body).run s) := by
  have ht : trueRef < s.size := by
    unfold trueRef size
    omega
  have hb := foldlM_literals_tells body h ht (b := fun _ => true) fun world => eval_trueRef s _
  unfold bodyDiagram
  exact ⟨hb.wellFormed, hb.extends_, hb.lt_size, fun world => by
    simpa only [Bool.true_and] using hb.eval_eq world⟩

/-- The disjunction of a diagram with choices. -/
theorem foldlM_choices_tells {known : Array Nat} {truth : Nat → Array Bool} (choices : List Nat)
    {s : Store} (h : Represents s known truth) {f : Nat} (hf : f < s.size) {b : Nat → Bool}
    (he : ∀ world, s.eval world.testBit f = b world) :
    Tells s (fun world => b world || choices.any world.testBit)
      ((choices.foldlM (fun f choice => do disjoin f (← ofVar choice)) f).run s) := by
  induction choices generalizing s f b with
  | nil => exact ⟨h.wellFormed, Extends.refl s, hf, fun world => by simp [← he]; rfl⟩
  | cons choice choices ih =>
    have hc := (ofVar_makes h.wellFormed choice).tells.combine .or hf he
    have hr := ih (h.grow hc.wellFormed hc.extends_) hc.lt_size hc.eval_eq
    refine ⟨hr.wellFormed, hc.extends_.trans hr.extends_, hr.lt_size, fun world => ?_⟩
    rw [List.any_cons, ← Bool.or_assoc]
    exact hr.eval_eq world

/-- The disjunction of a diagram with bodies. -/
theorem foldlM_bodies_tells {known : Array Nat} {truth : Nat → Array Bool}
    (bodies : List (List GroundLiteral)) {s : Store} (h : Represents s known truth) {f : Nat}
    (hf : f < s.size) {b : Nat → Bool}
    (he : ∀ world, s.eval world.testBit f = b world) :
    Tells s
      (fun world => b world || bodies.any fun body =>
        body.all fun l => (truth world).getD l.atom false == l.positive)
      ((bodies.foldlM (fun f body => do disjoin f (← bodyDiagram known body)) f).run s) := by
  induction bodies generalizing s f b with
  | nil => exact ⟨h.wellFormed, Extends.refl s, hf, fun world => by simp [← he]; rfl⟩
  | cons body bodies ih =>
    have hb := (bodyDiagram_tells h body).combine .or hf he
    have hr := ih (h.grow hb.wellFormed hb.extends_) hb.lt_size hb.eval_eq
    refine ⟨hr.wellFormed, hb.extends_.trans hr.extends_, hr.lt_size, fun world => ?_⟩
    rw [List.any_cons, ← Bool.or_assoc]
    exact hr.eval_eq world

/-- The diagram of an atom is true in the worlds in which the atom holds. -/
theorem atomDiagram_tells {s : Store} {known : Array Nat} {truth : Nat → Array Bool}
    (h : Represents s known truth) (d : AtomDefinition) :
    Tells s (fun world => d.holds world (truth world)) ((atomDiagram known d).run s) := by
  have hstart : (if d.certain then trueRef else falseRef) < s.size := by
    unfold trueRef falseRef size
    split <;> omega
  have hc := foldlM_choices_tells d.choices h hstart (b := fun _ => d.certain)
    fun world => by cases d.certain <;> simp
  have hb := foldlM_bodies_tells d.bodies (h.grow hc.wellFormed hc.extends_) hc.lt_size hc.eval_eq
  exact ⟨hb.wellFormed, hc.extends_.trans hb.extends_, hb.lt_size, hb.eval_eq⟩

/-! ## The diagrams of all atoms -/

/-- What is known of one more atom. -/
theorem Represents.push {s t : Store} {known : Array Nat} {truth : Nat → Array Bool} {f : Nat}
    {statement : Nat → Bool} (h : Represents s known truth)
    (hsize : ∀ world, (truth world).size = known.size) (ht : Tells s statement (f, t)) :
    Represents t (known.push f) fun world => (truth world).push (statement world) := by
  have hg := h.grow ht.wellFormed ht.extends_
  refine ⟨ht.wellFormed, fun i => ?_, fun world i => ?_⟩
  · rw [Array.getD_eq_getD_getElem?, Array.getElem?_push]
    split
    · exact ht.lt_size
    · simpa only [Array.getD_eq_getD_getElem?] using hg.lt_size i
  · rw [Array.getD_eq_getD_getElem?, Array.getElem?_push, Array.getD_eq_getD_getElem?,
      Array.getElem?_push, hsize]
    split
    · exact ht.eval_eq world
    · simpa only [Array.getD_eq_getD_getElem?] using hg.eval_eq world i

/-- Along a list of atoms, the diagrams that are known represent the atoms that hold. -/
theorem foldlM_atoms_represents (atoms : List AtomDefinition) {s : Store} {known : Array Nat}
    {truth : Nat → Array Bool} (h : Represents s known truth)
    (hsize : ∀ world, (truth world).size = known.size) :
    let out := (atoms.foldlM (fun known d => do return known.push (← atomDiagram known d))
      known : StateM Store (Array Nat)).run s
    Represents out.2 out.1 fun world =>
      atoms.foldl (fun known d => known.push (d.holds world known)) (truth world) := by
  induction atoms generalizing s known truth with
  | nil => exact h
  | cons d atoms ih =>
    have hd := Represents.push h hsize (atomDiagram_tells h d)
    exact ih hd fun world => by rw [Array.size_push, Array.size_push, hsize]

/-- In every world, the diagrams of the atoms are true exactly for the atoms that hold. -/
theorem atomDiagrams_holds (g : GroundProgram α) :
    Represents (g.atomDiagrams.run Store.empty).2 (g.atomDiagrams.run Store.empty).1
      g.truthValues := by
  have h : Represents Store.empty #[] fun _ => #[] :=
    ⟨wellFormed_empty, fun i => by simp [falseRef, size], fun world i => by simp⟩
  exact foldlM_atoms_represents g.atoms h fun world => rfl

end GroundProgram

/-! ## The probabilities of queries -/

namespace WorldCircuit

/-- The sum of the masses of the worlds below a bound in which the atom of a query holds. -/
def massBelow (g : GroundProgram ℚ) (w : Weights ℚ) (bound : Nat) (q : Term × Option Nat) : ℚ :=
  ∑ world ∈ Finset.range bound,
    if q.2.any ((g.truthValues world).getD · false) then w.mass world else 0

theorem addWorld_eq (g : GroundProgram ℚ) (w : Weights ℚ) (world : Nat) :
    addWorld g w (g.queries.map (massBelow g w world)) world =
      g.queries.map (massBelow g w (world + 1)) := by
  unfold addWorld
  by_cases hz : Probability.isZero (w.mass world) = true
  · -- a world without mass adds nothing, so passing over it changes no total
    have h0 : w.mass world = 0 := of_decide_eq_true hz
    rw [if_pos hz]
    refine List.map_congr_left fun q _ => ?_
    rw [massBelow, massBelow, Finset.sum_range_succ, h0, ite_self, add_zero]
  · rw [if_neg hz, List.zipWith_map_left, List.zipWith_self]
    refine List.map_congr_left fun q _ => ?_
    rw [massBelow, massBelow, Finset.sum_range_succ]
    split
    · rfl
    · rw [add_zero]

/-- The enumeration computes, for each query, the mass of the worlds in which its atom holds. -/
theorem totals_eq (g : GroundProgram ℚ) (w : Weights ℚ) :
    totals g w = g.queries.map (massBelow g w (2 ^ g.choices.length)) := by
  unfold totals
  rw [Nat.pow_eq]
  generalize 2 ^ g.choices.length = bound
  induction bound with
  | zero =>
    refine List.map_congr_left fun q _ => ?_
    rw [massBelow, Finset.range_zero, Finset.sum_empty]
  | succ bound ih => rw [Nat.fold_succ, ih, addWorld_eq]

end WorldCircuit

namespace DiagramCircuit

/-- Weighted counting gives, for each query, the mass of the worlds in which its atom holds. -/
theorem probability_query (g : GroundProgram ℚ) (w : Weights ℚ) (q : Term × Option Nat) :
    ((compile g).store.probabilities w.values).getD
        (q.2.elim falseRef fun i => (g.atomDiagrams.run Store.empty).1.getD i falseRef) 0 =
      WorldCircuit.massBelow g w (2 ^ w.size) q := by
  have h := g.atomDiagrams_holds
  have hs : (compile g).store = (g.atomDiagrams.run Store.empty).2 := rfl
  have hlt : (q.2.elim falseRef fun i => (g.atomDiagrams.run Store.empty).1.getD i falseRef) <
      (g.atomDiagrams.run Store.empty).2.size := by
    cases q.2 with
    | none => exact Nat.lt_of_lt_of_le (show 0 < 2 by decide) (Nat.le_add_left _ _)
    | some i => exact h.lt_size i
  rw [hs]
  refine (h.wellFormed.getD_probabilities_eq_expect w.values hlt).trans ?_
  rw [expect_eq_sum_worlds, WorldCircuit.massBelow]
  refine Finset.sum_congr rfl fun world _ => ?_
  have he : (g.atomDiagrams.run Store.empty).2.eval world.testBit
      (q.2.elim falseRef fun i => (g.atomDiagrams.run Store.empty).1.getD i falseRef) =
        q.2.any ((g.truthValues world).getD · false) := by
    cases q.2 with
    | none => exact eval_falseRef _ _
    | some i => exact h.eval_eq world i
  unfold indicator
  rw [he]
  split
  · rw [mul_one]
  · rw [mul_zero]

end DiagramCircuit

/-- The two circuits of a ground program have the same named nodes and the same baseline, and with exact
numbers they answer every weight vector alike, with the same probabilities or with the same error. -/
theorem evaluate_diagrams_eq_worlds {g : GroundProgram ℚ} {limit : Nat} {c : WorldCircuit ℚ}
    (h : WorldCircuit.compile g limit = .ok c) :
    (DiagramCircuit.compile g).toCircuit.named = c.toCircuit.named ∧
      (DiagramCircuit.compile g).toCircuit.baseline = c.toCircuit.baseline ∧
      ∀ w, (DiagramCircuit.compile g).toCircuit.evaluate w = c.toCircuit.evaluate w := by
  obtain rfl : (⟨g, g.named⟩ : WorldCircuit ℚ) = c := by
    simp only [WorldCircuit.compile] at h
    split at h
    · simp at h
    · exact Except.ok.inj h
  refine ⟨rfl, rfl, fun w => ?_⟩
  have hn : (DiagramCircuit.compile g).baseline.size = g.choices.length := by
    show (g.choices.map (·.probability)).toArray.size = _
    rw [List.size_toArray, List.length_map]
  show (DiagramCircuit.compile g).evaluate w = WorldCircuit.evaluate _ w
  unfold DiagramCircuit.evaluate WorldCircuit.evaluate
  rw [hn]
  cases hw : w.check g.choices.length with
  | error e => rfl
  | ok u =>
    have hsize : w.size = g.choices.length := (Weights.check_eq_ok_iff.1 hw).1
    have hpairs : (DiagramCircuit.compile g).queries.map
        (fun q => (q.1, ((DiagramCircuit.compile g).store.probabilities w.values).getD q.2 0)) =
        (g.queries.map (·.1)).zip (WorldCircuit.totals g w) := by
      rw [WorldCircuit.totals_eq, List.zip_map', ← hsize]
      show (g.queries.map _).map _ = _
      rw [List.map_map]
      refine List.map_congr_left fun q _ => ?_
      exact Prod.ext rfl (DiagramCircuit.probability_query g w q)
    exact congrArg
      (fun l => (Except.ok (Std.ExtTreeMap.ofList l) : Except EngineError (Evaluation ℚ))) hpairs

/-- Two independent choices of one atom, and a second atom that holds when the first does not. -/
def GroundProgram.twoChoices : GroundProgram ℚ where
  choices := [⟨.atom "a", mkRat 1 2⟩, ⟨.atom "a", mkRat 1 4⟩]
  atoms := [⟨.atom "a", false, [0, 1], []⟩, ⟨.atom "b", false, [], [[⟨0, false⟩]]⟩]
  queries := [(.atom "b", some 1), (.atom "a", some 0), (.atom "c", none)]

theorem evaluate_twoChoices :
    WorldCircuit.compile GroundProgram.twoChoices 20 =
        .ok ⟨GroundProgram.twoChoices, GroundProgram.twoChoices.named⟩ ∧
      ∀ w, (DiagramCircuit.compile GroundProgram.twoChoices).toCircuit.evaluate w =
        (WorldCircuit.mk GroundProgram.twoChoices GroundProgram.twoChoices.named).toCircuit.evaluate
          w :=
  have compiled : WorldCircuit.compile GroundProgram.twoChoices 20 = .ok _ := rfl
  ⟨compiled, (evaluate_diagrams_eq_worlds compiled).2.2⟩

end TimedInference
