import Mathlib.Algebra.Order.BigOperators.Group.Finset
import TimedInference.Proofs.Circuit.Agreement
import TimedInference.Proofs.Circuit.Shape

/-!
# The values of circuits

A circuit answers the weight vectors that have a probability for every choice, and no others
(`Circuit.Answers.evaluate_eq_ok_iff`).  An answer has a value for every query of the program and for
nothing else (`Circuit.Answers.mem_iff`).  With exact numbers these values are the masses of sets of
worlds, and all worlds together have mass one, so they are probabilities (`Engine.inUnit_of_evaluate`).
-/

namespace TimedInference

variable {α : Type} [Probability α]

/-! ## Answers -/

namespace Circuit.Answers

variable {c : Circuit α} {count : Nat} {queries : List Term} {values : Weights α → List α}
  (h : c.Answers count queries values)
include h

theorem evaluate_eq_ok_iff {w : Weights α} {r : Evaluation α} :
    c.evaluate w = .ok r ↔
      w.check count = .ok () ∧ Std.ExtTreeMap.ofList (queries.zip (values w)) = r := by
  rw [h w, map_eq_ok]
  constructor
  · rintro ⟨⟨⟩, hcheck, hr⟩
    exact ⟨hcheck, hr⟩
  · rintro ⟨hcheck, hr⟩
    exact ⟨(), hcheck, hr⟩

/-- An answer has a value for every query, and for nothing else. -/
theorem mem_iff (hlength : ∀ w, (values w).length = queries.length) {w : Weights α}
    {r : Evaluation α} (hr : c.evaluate w = .ok r) {q : Term} : q ∈ r ↔ q ∈ queries := by
  obtain ⟨-, rfl⟩ := h.evaluate_eq_ok_iff.1 hr
  rw [Std.ExtTreeMap.mem_ofList, List.contains_iff_mem, List.map_fst_zip (hlength w).ge]

end Circuit.Answers

/-! ## Engines -/

theorem WorldCircuit.length_totals (g : GroundProgram α) (w : Weights α) :
    (totals g w).length = g.queries.length := by
  unfold totals
  generalize Nat.pow 2 g.choices.length = bound
  -- adding the mass of a world leaves as many totals as there are queries
  induction bound with
  | zero => exact List.length_map _
  | succ bound ih =>
    rw [Nat.fold_succ, addWorld]
    split
    · exact ih
    · rw [List.length_zipWith, ih, Nat.min_self]

/-- An engine computes one value for each query. -/
theorem Engine.length_values (kind : EngineKind) (g : GroundProgram α) (w : Weights α) :
    (values kind g w).length = (g.queries.map (·.1)).length := by
  rw [List.length_map]
  cases kind with
  | diagrams =>
    show ((DiagramCircuit.compile g).values w).length = _
    rw [DiagramCircuit.values_compile, List.length_map]
  | worlds => exact WorldCircuit.length_totals g w

/-! ## Masses -/

theorem massOf_nonneg {ws : List ℚ} (hws : ∀ w ∈ ws, 0 ≤ w ∧ w ≤ 1) (v : Nat → Bool) :
    0 ≤ massOf ws v := by
  induction ws generalizing v with
  | nil => exact zero_le_one
  | cons w ws ih =>
    rw [List.forall_mem_cons] at hws
    rw [massOf]
    refine mul_nonneg ?_ (ih hws.2 _)
    split
    · exact hws.1.1
    · exact sub_nonneg.2 hws.1.2

namespace Weights

variable {w : Weights ℚ}

theorem mem_unit_of_inUnit (hw : ∀ p ∈ w.values, Probability.inUnit p = true) :
    ∀ p ∈ w.values.toList, 0 ≤ p ∧ p ≤ 1 := by
  intro p hp
  exact of_decide_eq_true (hw p (Array.mem_toList_iff.1 hp))

/-- All worlds together have mass one. -/
theorem sum_mass (w : Weights ℚ) : ∑ world ∈ Finset.range (2 ^ w.size), w.mass world = 1 := by
  calc ∑ world ∈ Finset.range (2 ^ w.size), w.mass world
      = ∑ world ∈ Finset.range (2 ^ w.size), w.mass world * 1 := by simp only [mul_one]
    _ = expect w.values.toList fun _ => 1 := (expect_eq_sum_worlds w fun _ => 1).symm
    _ = 1 := expect_const _ 1

end Weights

/-- The mass of some worlds is a probability. -/
theorem WorldCircuit.massBelow_mem_unit {w : Weights ℚ}
    (hw : ∀ p ∈ w.values, Probability.inUnit p = true) (g : GroundProgram ℚ) (q : Term × Option Nat) :
    0 ≤ massBelow g w (2 ^ w.size) q ∧ massBelow g w (2 ^ w.size) q ≤ 1 := by
  have hmass (world : Nat) : 0 ≤ w.mass world := by
    rw [mass_eq_massOf]
    exact massOf_nonneg (Weights.mem_unit_of_inUnit hw) _
  unfold massBelow
  constructor
  · refine Finset.sum_nonneg fun world _ => ?_
    split
    · exact hmass world
    · exact le_refl 0
  · rw [← Weights.sum_mass w]
    refine Finset.sum_le_sum fun world _ => ?_
    split
    · exact le_refl _
    · exact hmass world

namespace Engine

/-- With exact numbers the value of a query is the mass of the worlds in which its atom holds. -/
theorem values_eq_masses (kind : EngineKind) {g : GroundProgram ℚ} {w : Weights ℚ}
    (hw : w.size = g.choices.length) :
    values kind g w = g.queries.map (WorldCircuit.massBelow g w (2 ^ w.size)) := by
  cases kind with
  | diagrams =>
    show (DiagramCircuit.compile g).values w = _
    rw [DiagramCircuit.values_compile]
    exact List.map_congr_left fun q _ => DiagramCircuit.probability_query g w q
  | worlds =>
    show WorldCircuit.totals g w = _
    rw [WorldCircuit.totals_eq, hw]

/-- With exact numbers the values of queries are probabilities. -/
theorem inUnit_of_evaluate {kind : EngineKind} {maxChoices : Nat} {g : GroundProgram ℚ}
    {c : Circuit ℚ} (hc : circuit kind maxChoices g = .ok c) {w : Weights ℚ} {r : Evaluation ℚ}
    (hr : c.evaluate w = .ok r) {q : Term} {p : ℚ} (hq : r[q]? = some p) :
    Probability.inUnit p = true := by
  obtain ⟨hcheck, rfl⟩ := (isCircuitOf_values hc).answers.evaluate_eq_ok_iff.1 hr
  obtain ⟨hsize, hunit⟩ := Weights.check_eq_ok_iff.1 hcheck
  have hp := (List.of_mem_zip (mem_of_getElem?_ofList hq)).2
  rw [values_eq_masses kind hsize] at hp
  obtain ⟨q', -, rfl⟩ := List.mem_map.1 hp
  exact decide_eq_true (WorldCircuit.massBelow_mem_unit hunit g q')

end Engine

end TimedInference
