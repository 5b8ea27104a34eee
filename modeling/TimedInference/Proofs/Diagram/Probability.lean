import TimedInference.Proofs.Diagram.Counting
import TimedInference.Proofs.Diagram.Reached

/-!
# The probability of a diagram

The probability of a diagram is computed downward, and decisions that were met before are looked up.  What
is remembered is what the upward computation gives (`WellFormed.probabilityWithin_spec`), in whatever
arithmetic.  With exact numbers it is an expectation, and so a sum over the assignments of the variables
that have a weight: of the product, over these variables, of the weight of a true one and of what remains
of the weight of a false one (`expect_eq_sum_assignments`, `Reached.probability_eq_sum`).
-/

namespace TimedInference.Diagram

open Store

/-! ## Remembered probabilities -/

namespace Store

variable {α : Type} [Probability α] {s : Store} {w : Array α}

/-- Every remembered probability is that of its node. -/
def Remembers (s : Store) (w : Array α) (met : Std.HashMap Nat α) : Prop :=
  ∀ f p, met[f]? = some p → p = (s.probabilities w).getD f 0

/-- A table without entries remembers nothing wrong. -/
theorem remembers_empty (s : Store) (w : Array α) : s.Remembers w ∅ := by
  intro f p h
  simp at h

/-- A probability that is right may be remembered. -/
theorem Remembers.insert {met : Std.HashMap Nat α} (h : s.Remembers w met) (f : Nat) :
    s.Remembers w (met.insert f ((s.probabilities w).getD f 0)) := by
  intro g p hp
  rw [Std.HashMap.getElem?_insert] at hp
  by_cases hfg : f = g
  · subst hfg
    simpa [eq_comm] using hp
  · exact h g p (by simpa [hfg] using hp)

/-- One step of the recursion: constants, what is remembered, or the mean of the parts. -/
theorem probabilityWithin_succ (s : Store) (w : Array α) (fuel f : Nat) (met : Std.HashMap Nat α) :
    (s.probabilityWithin w (fuel + 1) f).run met =
      if f = falseRef then (0, met)
      else if f = trueRef then (1, met)
      else
        match met[f]? with
        | some p => (p, met)
        | none =>
          let n := (s.node? f).getD default
          let high := (s.probabilityWithin w fuel n.high).run met
          let low := (s.probabilityWithin w fuel n.low).run high.2
          let p := weigh (w.getD n.var 0) low.1 high.1
          (p, low.2.insert f p) := by
  by_cases hf : f = falseRef
  · simp only [probabilityWithin, hf, if_true]
    rfl
  by_cases ht : f = trueRef
  · simp only [probabilityWithin, ht, if_true]
    rfl
  simp only [probabilityWithin, hf, ht, if_false, bind_pure_comp, StateT.run_bind, StateT.run_get,
    pure_bind]
  cases hp : met[f]? with
  | some p => rfl
  | none => rfl

/-- Looking up what was met before gives the probability that is computed upward, and remembers nothing
else. -/
theorem WellFormed.probabilityWithin_spec (h : s.WellFormed) {fuel f : Nat} (hfuel : f < fuel)
    (hf : f < s.size) {met : Std.HashMap Nat α} (hmet : s.Remembers w met) :
    ((s.probabilityWithin w fuel f).run met).1 = (s.probabilities w).getD f 0 ∧
      s.Remembers w ((s.probabilityWithin w fuel f).run met).2 := by
  induction fuel generalizing f met with
  | zero => omega
  | succ fuel ih =>
    rw [probabilityWithin_succ]
    by_cases h0 : f = falseRef
    · rw [if_pos h0, h0]
      exact ⟨(upward_falseRef 0 1 _ s).symm, hmet⟩
    by_cases h1 : f = trueRef
    · rw [if_neg h0, if_pos h1, h1]
      exact ⟨(upward_trueRef 0 1 _ s).symm, hmet⟩
    rw [if_neg h0, if_neg h1]
    cases hp : met[f]? with
    | some p => exact ⟨hmet f p hp, hmet⟩
    | none =>
      obtain ⟨n, hn⟩ := ((falseRef_or_trueRef_or_node hf).resolve_left h0).resolve_left h1
      have hlow := h.low_lt hn
      have hhigh := h.high_lt hn
      -- the high part is computed first, and the low part with what is remembered then
      obtain ⟨highValue, highMet⟩ := ih (f := n.high) (by omega) (h.high_lt_size hn) hmet
      obtain ⟨lowValue, lowMet⟩ := ih (f := n.low) (by omega) (h.low_lt_size hn) highMet
      simp only [hn, Option.getD_some, highValue, lowValue, ← h.getD_probabilities_node w hn,
        true_and]
      exact lowMet.insert f

/-- The probability of a diagram is the one that is computed upward, in whatever arithmetic. -/
theorem WellFormed.probability_eq (h : s.WellFormed) (w : Array α) {f : Nat} (hf : f < s.size) :
    s.probability w f = (s.probabilities w).getD f 0 :=
  (h.probabilityWithin_spec (Nat.lt_succ_self f) hf (remembers_empty s w)).1

/-! ## The variables of a diagram -/

/-- A variable that some decision of a diagram is on. -/
inductive Occurs (s : Store) (i : Nat) : Nat → Prop where
  | here {f : Nat} {n : Node} (hn : s.node? f = some n) (hi : n.var = i) : Occurs s i f
  | low {f : Nat} {n : Node} (hn : s.node? f = some n) (h : Occurs s i n.low) : Occurs s i f
  | high {f : Nat} {n : Node} (hn : s.node? f = some n) (h : Occurs s i n.high) : Occurs s i f

/-- A diagram holds no variable that no decision of the store has. -/
theorem Occurs.lt_of_nodes {i f k : Nat} (h : s.Occurs i f) (hk : ∀ n ∈ s.nodes, n.var < k) :
    i < k := by
  induction h with
  | @here f n hn hi =>
    rw [node?] at hn
    split at hn
    · simp at hn
    · rw [← hi]
      exact hk n (Array.mem_of_getElem? hn)
  | low _ _ ih => exact ih
  | high _ _ ih => exact ih

/-- The truth value of a diagram follows from the values of the variables that occur in it. -/
theorem WellFormed.eval_congr (h : s.WellFormed) {f : Nat} (hf : f < s.size) {v u : Nat → Bool}
    (hvu : ∀ i, s.Occurs i f → v i = u i) : s.eval v f = s.eval u f := by
  induction f, hf using h.induct with
  | atFalse => rw [eval_falseRef, eval_falseRef]
  | atTrue => rw [eval_trueRef, eval_trueRef]
  | decision f hf n hn ihl ihh =>
    have hvar : v n.var = u n.var := hvu n.var (.here hn rfl)
    have hlow : s.eval v n.low = s.eval u n.low := ihl fun i hi => hvu i (.low hn hi)
    have hhigh : s.eval v n.high = s.eval u n.high := ihh fun i hi => hvu i (.high hn hi)
    rw [h.eval_node hn, h.eval_node hn, hvar, hlow, hhigh]

end Store

/-! ## Weighted counting -/

/-- A sum weighted by truth is a sum over the assignments that make the diagram true. -/
theorem sum_indicator {n : Nat} (s : Store) (f : Nat) (mass : (Fin n → Bool) → ℚ)
    (rest : Nat → Bool) :
    ∑ a, mass a * s.indicator f (completed a rest) =
      ∑ a with s.eval (completed a rest) f = true, mass a := by
  rw [Finset.sum_filter]
  refine Finset.sum_congr rfl fun a _ => ?_
  unfold indicator
  split
  · rw [mul_one]
  · rw [mul_zero]

theorem indicator_mem_unit (s : Store) (f : Nat) (v : Nat → Bool) :
    0 ≤ s.indicator f v ∧ s.indicator f v ≤ 1 := by
  unfold indicator
  split
  · exact ⟨zero_le_one, le_refl 1⟩
  · exact ⟨le_refl 0, zero_le_one⟩

namespace Reached

/-- When every variable of an issued diagram has a weight, the probability of the diagram is the sum, over
the assignments of the variables that have a weight under which it is true, of the product of the weights
of the true variables and of what remains of the weights of the false ones.  Variables without a weight do
not matter.  So the probability is between zero and one when all weights are. -/
theorem probability_eq_sum {s : Store} {issued : List Nat} (h : Reached s issued) {f : Nat}
    (hf : f ∈ issued) {w : Array ℚ} (hw : ∀ i, s.Occurs i f → i < w.size) :
    (∀ rest : Nat → Bool, s.probability w f =
      ∑ a : Fin w.size → Bool with s.eval (completed a rest) f = true,
        ∏ i : Fin w.size, if a i then w[i] else 1 - w[i]) ∧
      ((∀ p ∈ w, 0 ≤ p ∧ p ≤ 1) → 0 ≤ s.probability w f ∧ s.probability w f ≤ 1) := by
  have hlt := h.lt_size hf
  have hexpect : s.probability w f = expect w.toList (s.indicator f) := by
    rw [h.wellFormed.probability_eq w hlt, h.wellFormed.getD_probabilities_eq_expect w hlt]
  rw [hexpect]
  constructor
  · intro rest
    -- no variable of the diagram is among those that `rest` decides
    have hrest (a : Fin w.size → Bool) :
        s.eval (completed a rest) f = s.eval (completed a fun _ => false) f := by
      apply h.wellFormed.eval_congr hlt
      intro i hi
      unfold completed
      rw [dif_pos (hw i hi), dif_pos (hw i hi)]
    simp only [hrest]
    rw [expect_eq_sum_assignments]
    exact sum_indicator s f _ _
  · intro hunit
    apply expect_mem_unit
    · intro p hp
      exact hunit p (Array.mem_toList_iff.1 hp)
    · exact indicator_mem_unit s f

theorem nodes_either :
    eitherStore.nodes = #[⟨1, falseRef, trueRef⟩, ⟨0, falseRef, trueRef⟩, ⟨0, 2, trueRef⟩] := by
  rw [eitherStore, Operation.run, disjoin, combine, combineWithin_succ]
  simp [Connective.shortcut?, twoVariables, Store.empty, Store.push, size, falseRef, trueRef, node?,
    cofactors, combineWithin_succ, finishCombination, rememberCombination, make_eq]

/-- The probability of the disjunction is the mass of the assignments of two variables under which it is
true, and lies between zero and one. -/
theorem probability_eq_sum_either :
    Reached eitherStore [4, 3, 2, falseRef, trueRef] ∧ 4 ∈ [4, 3, 2, falseRef, trueRef] ∧
      (∀ i, eitherStore.Occurs i 4 → i < (#[1 / 3, 1 / 4] : Array ℚ).size) ∧
      (∀ p ∈ (#[1 / 3, 1 / 4] : Array ℚ), 0 ≤ p ∧ p ≤ 1) ∧
      (∀ rest : Nat → Bool, eitherStore.probability #[1 / 3, 1 / 4] 4 =
        ∑ a : Fin 2 → Bool with eitherStore.eval (completed a rest) 4 = true,
          ∏ i : Fin 2, if a i then (#[1 / 3, 1 / 4] : Array ℚ)[i] else 1 - #[1 / 3, 1 / 4][i]) ∧
      0 ≤ eitherStore.probability (#[1 / 3, 1 / 4] : Array ℚ) 4 ∧
      eitherStore.probability (#[1 / 3, 1 / 4] : Array ℚ) 4 ≤ 1 := by
  have hw : ∀ i, eitherStore.Occurs i 4 → i < (#[1 / 3, 1 / 4] : Array ℚ).size := by
    intro i hi
    apply hi.lt_of_nodes
    rw [nodes_either]
    decide
  have hunit : ∀ p ∈ (#[1 / 3, 1 / 4] : Array ℚ), 0 ≤ p ∧ p ≤ 1 := by
    decide +kernel
  obtain ⟨hsum, hbounds⟩ := probability_eq_sum reached_either (by decide) hw
  exact ⟨reached_either, by decide, hw, hunit, hsum, hbounds hunit⟩

end Reached

end TimedInference.Diagram
