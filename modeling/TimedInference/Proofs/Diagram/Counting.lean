import Mathlib.Algebra.BigOperators.Fin
import Mathlib.Algebra.BigOperators.Ring.Finset
import Mathlib.Algebra.Order.Ring.Rat
import Mathlib.Data.Fintype.BigOperators
import Mathlib.Tactic.Ring
import TimedInference.Circuit.Worlds
import TimedInference.Diagram.Measure
import TimedInference.Number.Rational
import TimedInference.Proofs.Diagram.WellFormed

/-!
# Weighted counting

With exact numbers, the probability of a node is the expectation of its truth value when every
variable is true independently with its weight (`getD_probabilities_eq_expect`), and that expectation is
a sum over worlds (`expect_eq_sum_worlds`), or over the assignments of the variables that have a weight
(`expect_eq_sum_assignments`).  Between the two stands `expect`, which decides the variables one after the
other, so that both sides are followed by induction on the list of weights.
-/

namespace TimedInference

open Diagram Diagram.Store

/-! ## Expectations -/

/-- The assignment that gives a truth value to the first variable and passes the others on. -/
def consValue (b : Bool) (v : Nat → Bool) : Nat → Bool
  | 0 => b
  | i + 1 => v i

/-- The expectation of a number that depends on variables which are true independently with given
weights.  Variables without a weight are false. -/
def expect : List ℚ → ((Nat → Bool) → ℚ) → ℚ
  | [], F => F fun _ => false
  | w :: ws, F =>
    weigh w (expect ws fun v => F (consValue false v)) (expect ws fun v => F (consValue true v))

/-- A number that does not depend on the variable `k`. -/
def Ignores (k : Nat) (F : (Nat → Bool) → ℚ) : Prop :=
  ∀ v b, F (Function.update v k b) = F v

theorem update_consValue_succ (b c : Bool) (v : Nat → Bool) (k : Nat) :
    Function.update (consValue b v) (k + 1) c = consValue b (Function.update v k c) := by
  funext i
  cases i with
  | zero => simp [consValue, Function.update]
  | succ i => simp [consValue, Function.update]

theorem update_consValue_zero (b c : Bool) (v : Nat → Bool) :
    Function.update (consValue b v) 0 c = consValue c v := by
  funext i
  cases i with
  | zero => simp [consValue]
  | succ i => simp [consValue]

/-- With the first value given, the ignored variable is counted one earlier. -/
theorem Ignores.consValue {k : Nat} {F : (Nat → Bool) → ℚ} (h : Ignores (k + 1) F) (b : Bool) :
    Ignores k fun v => F (consValue b v) := by
  intro v c
  show F _ = F _
  rw [← update_consValue_succ, h]

/-- What ignores the first variable does not change with its value. -/
theorem Ignores.consValue_eq {F : (Nat → Bool) → ℚ} (h : Ignores 0 F) (b c : Bool)
    (v : Nat → Bool) : F (TimedInference.consValue b v) = F (TimedInference.consValue c v) := by
  rw [← update_consValue_zero c b, h]

theorem weigh_self (w x : ℚ) : weigh w x x = x := by
  unfold weigh
  ring

/-- A constant is its own mean. -/
theorem expect_const (ws : List ℚ) (c : ℚ) : expect ws (fun _ => c) = c := by
  induction ws with
  | nil => rfl
  | cons w ws ih => rw [expect, ih, weigh_self]

/-- Deciding any one variable first gives the same expectation. -/
theorem expect_decide (ws : List ℚ) {k : Nat} {F L H : (Nat → Bool) → ℚ}
    (hF : ∀ v, F v = if v k then H v else L v) (hL : Ignores k L) (hH : Ignores k H) :
    expect ws F = weigh (ws.getD k 0) (expect ws L) (expect ws H) := by
  induction ws generalizing k F L H with
  | nil =>
    simp only [expect, hF, List.getD_nil, weigh, Bool.false_eq_true, if_false]
    ring
  | cons w ws ih =>
    cases k with
    | zero =>
      have hl (v : Nat → Bool) : L (consValue true v) = L (consValue false v) :=
        hL.consValue_eq true false v
      have hh (v : Nat → Bool) : H (consValue true v) = H (consValue false v) :=
        hH.consValue_eq true false v
      have ht (v : Nat → Bool) : F (consValue true v) = H (consValue false v) := by
        rw [hF, consValue, if_pos rfl, hh]
      have hf (v : Nat → Bool) : F (consValue false v) = L (consValue false v) := by
        rw [hF, consValue, if_neg (by decide)]
      simp only [expect, ht, hf, hl, hh, weigh_self, List.getD_cons_zero]
    | succ k =>
      have step (b : Bool) : expect ws (fun v => F (consValue b v)) =
          weigh (ws.getD k 0) (expect ws fun v => L (consValue b v))
            (expect ws fun v => H (consValue b v)) :=
        ih (fun v => hF (consValue b v)) (hL.consValue b) (hH.consValue b)
      simp only [expect, step, List.getD_cons_succ, weigh]
      ring

/-! ## The probability of a node -/

/-- One when a diagram is true and zero when it is false. -/
def Diagram.Store.indicator (s : Store) (f : Nat) (v : Nat → Bool) : ℚ :=
  if s.eval v f then 1 else 0

/-- A diagram that begins after a variable does not change with its value. -/
theorem Diagram.Store.WellFormed.eval_update {s : Store} (h : s.WellFormed) (v : Nat → Bool)
    (k : Nat) (b : Bool) {f : Nat} (hf : f < s.size) (hk : s.From (k + 1) f) :
    s.eval (Function.update v k b) f = s.eval v f := by
  induction f, hf using h.induct with
  | atFalse => rw [eval_falseRef, eval_falseRef]
  | atTrue => rw [eval_trueRef, eval_trueRef]
  | decision f hf n hn ihl ihh =>
    have hv : k + 1 ≤ n.var := hk n hn
    have hl := ihl ((h.from_low hn).mono (by omega))
    have hh := ihh ((h.from_high hn).mono (by omega))
    rw [h.eval_node hn, h.eval_node hn, hl, hh, Function.update_of_ne (by omega)]

/-- The probability of a decision follows from those of its parts. -/
theorem Diagram.Store.WellFormed.getD_probabilities_node {α : Type} [Probability α] {s : Store}
    (h : s.WellFormed) (w : Array α) {f : Nat} {n : Node} (hn : s.node? f = some n) :
    (s.probabilities w).getD f 0 =
      weigh (w.getD n.var 0) ((s.probabilities w).getD n.low 0) ((s.probabilities w).getD n.high 0) :=
  upward_node 0 1 _ s hn (h.low_lt hn) (h.high_lt hn)

/-- The probability of a node is the expectation of its truth value. -/
theorem Diagram.Store.WellFormed.getD_probabilities_eq_expect {s : Store} (h : s.WellFormed)
    (w : Array ℚ) {f : Nat} (hf : f < s.size) :
    (s.probabilities w).getD f 0 = expect w.toList (s.indicator f) := by
  induction f, hf using h.induct with
  | atFalse =>
    have hi : s.indicator falseRef = fun _ => 0 := by
      funext v
      simp [indicator]
    rw [hi, expect_const]
    exact upward_falseRef 0 1 _ s
  | atTrue =>
    have hi : s.indicator trueRef = fun _ => 1 := by
      funext v
      simp [indicator]
    rw [hi, expect_const]
    exact upward_trueRef 0 1 _ s
  | decision f hf n hn hl hh =>
    have hw : w.getD n.var 0 = w.toList.getD n.var 0 := by
      simp [Array.getD_eq_getD_getElem?, List.getD_eq_getElem?_getD]
    rw [h.getD_probabilities_node w hn, hl, hh, hw]
    -- the parts decide later variables, so they ignore the one of the decision
    refine (expect_decide _ (fun v => ?_) (fun v b => ?_) (fun v b => ?_)).symm
    · unfold indicator
      rw [h.eval_node hn]
      split <;> rfl
    · unfold indicator
      rw [h.eval_update v _ b (h.low_lt_size hn) (h.from_low hn)]
    · unfold indicator
      rw [h.eval_update v _ b (h.high_lt_size hn) (h.from_high hn)]

/-! ## Sums over worlds -/

/-- The mass of an assignment: the product of what the weights give to each of its values. -/
def massOf : List ℚ → (Nat → Bool) → ℚ
  | [], _ => 1
  | w :: ws, v => (if v 0 then w else 1 - w) * massOf ws fun i => v (i + 1)

/-- The mass of a world is the product of the masses of its choices. -/
theorem foldl_mass_eq (ws : List ℚ) (v : Nat → Bool) (m : ℚ) :
    ws.zipIdx.foldl (fun m x => m * if v x.2 then x.1 else 1 - x.1) m = m * massOf ws v := by
  induction ws generalizing v m with
  | nil => simp [massOf]
  | cons w ws ih =>
    rw [List.zipIdx_cons', List.foldl_cons, List.foldl_map, massOf, ← mul_assoc, ← ih]
    rfl

theorem mass_eq_massOf (w : Weights ℚ) (world : Nat) :
    w.mass world = massOf w.values.toList world.testBit := by
  rw [Weights.mass]
  exact (foldl_mass_eq w.values.toList world.testBit 1).trans (one_mul _)

/-- A sum over twice a range goes over even and odd numbers. -/
theorem sum_range_two_mul (f : Nat → ℚ) (m : Nat) :
    ∑ i ∈ Finset.range (2 * m), f i = ∑ i ∈ Finset.range m, (f (2 * i) + f (2 * i + 1)) := by
  induction m with
  | zero => simp
  | succ m ih =>
    rw [show 2 * (m + 1) = 2 * m + 1 + 1 by omega, Finset.sum_range_succ, Finset.sum_range_succ, ih,
      Finset.sum_range_succ, add_assoc]

/-- Doubling a number puts a false bit in front of its bits. -/
theorem testBit_two_mul_eq (n : Nat) : (2 * n).testBit = consValue false n.testBit := by
  funext i
  cases i with
  | zero => simp [consValue]
  | succ i => rw [Nat.testBit_succ, Nat.mul_div_cancel_left _ (by decide), consValue]

/-- Doubling a number and adding one puts a true bit in front of its bits. -/
theorem testBit_two_mul_add_one (n : Nat) : (2 * n + 1).testBit = consValue true n.testBit := by
  funext i
  cases i with
  | zero => simp [consValue]
  | succ i => rw [Nat.testBit_succ, show (2 * n + 1) / 2 = n by omega, consValue]

/-- The mean is the sum over all worlds of a function's values, weighted by their masses. -/
theorem expect_eq_sum_massOf (ws : List ℚ) (F : (Nat → Bool) → ℚ) :
    expect ws F =
      ∑ world ∈ Finset.range (2 ^ ws.length), massOf ws world.testBit * F world.testBit := by
  induction ws generalizing F with
  | nil => simp [expect, massOf, funext Nat.zero_testBit]
  | cons w ws ih =>
    rw [List.length_cons, pow_succ', sum_range_two_mul, expect, ih, ih, weigh, Finset.mul_sum,
      Finset.mul_sum, ← Finset.sum_add_distrib]
    refine Finset.sum_congr rfl fun n _ => ?_
    rw [testBit_two_mul_eq, testBit_two_mul_add_one, massOf, massOf]
    simp only [consValue, if_true, Bool.false_eq_true, if_false]
    ring

/-- An expectation is the sum over worlds of mass times value. -/
theorem expect_eq_sum_worlds (w : Weights ℚ) (F : (Nat → Bool) → ℚ) :
    expect w.values.toList F =
      ∑ world ∈ Finset.range (2 ^ w.size), w.mass world * F world.testBit := by
  rw [expect_eq_sum_massOf, Array.length_toList]
  refine Finset.sum_congr rfl fun world _ => ?_
  rw [mass_eq_massOf]

/-! ## Sums over assignments -/

/-- The assignment that gives the first variables their values and the others those of a second
assignment. -/
def completed {n : Nat} (a : Fin n → Bool) (rest : Nat → Bool) (i : Nat) : Bool :=
  if h : i < n then a ⟨i, h⟩ else rest i

theorem completed_cons {n : Nat} (b : Bool) (a : Fin n → Bool) :
    completed (Fin.cons b a : Fin (n + 1) → Bool) (fun _ => false) =
      consValue b (completed a fun _ => false) := by
  funext i
  cases i with
  | zero => rfl
  | succ i =>
    show completed (Fin.cons b a : Fin (n + 1) → Bool) (fun _ => false) (i + 1) =
      completed a (fun _ => false) i
    unfold completed
    by_cases hi : i < n
    · rw [dif_pos hi, dif_pos (Nat.succ_lt_succ hi)]
      rfl
    · rw [dif_neg hi, dif_neg (by omega)]

/-- A sum over the assignments of one variable more splits by the value of the first. -/
theorem sum_assignments_succ {n : Nat} (F : (Fin (n + 1) → Bool) → ℚ) :
    ∑ a, F a = ∑ a : Fin n → Bool, (F (Fin.cons false a) + F (Fin.cons true a)) := by
  rw [← (Fin.consEquiv fun _ : Fin (n + 1) => Bool).sum_comp, Fintype.sum_prod_type,
    Fintype.sum_bool, ← Finset.sum_add_distrib]
  refine Finset.sum_congr rfl fun a _ => ?_
  exact add_comm _ _

/-- The mass of an assignment of the variables that have a weight: the product of the weights of the true
variables and of what remains of the weights of the false ones. -/
def assignmentMass (ws : List ℚ) (a : Fin ws.length → Bool) : ℚ :=
  ∏ i, if a i then ws[i] else 1 - ws[i]

/-- The mass of an assignment is that of its first value times that of the others. -/
theorem assignmentMass_cons (w : ℚ) (ws : List ℚ) (b : Bool) (a : Fin ws.length → Bool) :
    assignmentMass (w :: ws) (Fin.cons b a : Fin (ws.length + 1) → Bool) =
      (if b then w else 1 - w) * assignmentMass ws a :=
  Fin.prod_univ_succ _

/-- An expectation is a sum over the assignments of the variables that have a weight. -/
theorem expect_eq_sum_assignments (ws : List ℚ) (F : (Nat → Bool) → ℚ) :
    expect ws F =
      ∑ a : Fin ws.length → Bool, assignmentMass ws a * F (completed a fun _ => false) := by
  induction ws generalizing F with
  | nil =>
    have hnone (a : Fin 0 → Bool) : completed a (fun _ => false) = fun _ => false := by
      funext i
      exact dif_neg (Nat.not_lt_zero i)
    simp [expect, assignmentMass, hnone]
  | cons w ws ih =>
    refine Eq.trans ?_ (sum_assignments_succ (n := ws.length) _).symm
    rw [expect, ih, ih, weigh, Finset.mul_sum, Finset.mul_sum, ← Finset.sum_add_distrib]
    refine Finset.sum_congr rfl fun a _ => ?_
    rw [assignmentMass_cons, assignmentMass_cons, completed_cons, completed_cons]
    simp only [if_true, Bool.false_eq_true, if_false]
    ring

/-! ## Expectations of probabilities -/

/-- The weighted mean of probabilities is a probability. -/
theorem weigh_mem_unit {w low high : ℚ} (hw : 0 ≤ w ∧ w ≤ 1) (hl : 0 ≤ low ∧ low ≤ 1)
    (hh : 0 ≤ high ∧ high ≤ 1) : 0 ≤ weigh w low high ∧ weigh w low high ≤ 1 := by
  have hrest : 0 ≤ 1 - w := sub_nonneg.2 hw.2
  unfold weigh
  constructor
  · exact add_nonneg (mul_nonneg hw.1 hh.1) (mul_nonneg hrest hl.1)
  · calc w * high + (1 - w) * low
        ≤ w * 1 + (1 - w) * 1 :=
          add_le_add (mul_le_mul_of_nonneg_left hh.2 hw.1) (mul_le_mul_of_nonneg_left hl.2 hrest)
      _ = 1 := by ring

/-- The expectation of a number between zero and one is between zero and one. -/
theorem expect_mem_unit {ws : List ℚ} (hws : ∀ w ∈ ws, 0 ≤ w ∧ w ≤ 1) {F : (Nat → Bool) → ℚ}
    (hF : ∀ v, 0 ≤ F v ∧ F v ≤ 1) : 0 ≤ expect ws F ∧ expect ws F ≤ 1 := by
  induction ws generalizing F with
  | nil => exact hF _
  | cons w ws ih =>
    rw [List.forall_mem_cons] at hws
    exact weigh_mem_unit hws.1 (ih hws.2 fun v => hF _) (ih hws.2 fun v => hF _)

end TimedInference
