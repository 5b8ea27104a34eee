import TimedInference.Proofs.Diagram.Counting
import TimedInference.Proofs.Diagram.Reached

/-!
# Diagrams are canonical

In a well-formed store, diagrams of one Boolean function are one node (`WellFormed.eq_of_eval_eq`).  Of
two diagrams, take a first variable.  When only one of them decides it, the function does not depend on
it, so the two parts of that decision mean the same (`eval_parts_eq`).  When both decide it, their parts
mean the same in pairs (`eval_low_eq`, `eval_high_eq`).  The parts have smaller numbers, so in the first
case the decision would be between equal diagrams, and in the second both decisions are one and the same.
The comparison of two diagrams holds for diagrams of different stores as well.
-/

namespace TimedInference.Diagram

open Store

namespace Store.WellFormed

variable {s t : Store} {f g : Nat} {n m : Node}

/-! ## The parts of a decision -/

/-- The part of a decision for a false variable is the diagram where the variable is false. -/
theorem eval_low (h : s.WellFormed) (hn : s.node? f = some n) (v : Nat → Bool) :
    s.eval v n.low = s.eval (Function.update v n.var false) f := by
  rw [h.eval_node hn, Function.update_self, if_neg (by decide),
    h.eval_update v n.var false (h.low_lt_size hn) (h.from_low hn)]

/-- The part of a decision for a true variable is the diagram where the variable is true. -/
theorem eval_high (h : s.WellFormed) (hn : s.node? f = some n) (v : Nat → Bool) :
    s.eval v n.high = s.eval (Function.update v n.var true) f := by
  rw [h.eval_node hn, Function.update_self, if_pos rfl,
    h.eval_update v n.var true (h.high_lt_size hn) (h.from_high hn)]

/-- A decision that means what a diagram of later variables means is between parts that mean it too. -/
theorem eval_parts_eq (h : s.WellFormed) (ht : t.WellFormed) (hn : s.node? f = some n)
    (hg : g < t.size) (hlater : t.From (n.var + 1) g) (he : ∀ v, s.eval v f = t.eval v g)
    (v : Nat → Bool) : s.eval v n.low = s.eval v n.high := by
  calc s.eval v n.low
      = t.eval (Function.update v n.var false) g := by rw [h.eval_low hn, he]
    _ = t.eval v g := ht.eval_update v n.var false hg hlater
    _ = t.eval (Function.update v n.var true) g := (ht.eval_update v n.var true hg hlater).symm
    _ = s.eval v n.high := by rw [h.eval_high hn, he]

theorem eval_low_eq (h : s.WellFormed) (ht : t.WellFormed) (hn : s.node? f = some n)
    (hm : t.node? g = some m) (hvar : n.var = m.var) (he : ∀ v, s.eval v f = t.eval v g)
    (v : Nat → Bool) : s.eval v n.low = t.eval v m.low := by
  rw [h.eval_low hn, ht.eval_low hm, hvar, he]

theorem eval_high_eq (h : s.WellFormed) (ht : t.WellFormed) (hn : s.node? f = some n)
    (hm : t.node? g = some m) (hvar : n.var = m.var) (he : ∀ v, s.eval v f = t.eval v g)
    (v : Nat → Bool) : s.eval v n.high = t.eval v m.high := by
  rw [h.eval_high hn, ht.eval_high hm, hvar, he]

/-- A decision is known by what it decides. -/
theorem eq_of_node? (h : s.WellFormed) (hf : s.node? f = some n) (hg : s.node? g = some n) :
    f = g := by
  have hu := h.unique_iff.2 hf
  rw [h.unique_iff.2 hg] at hu
  exact (Option.some.inj hu).symm

/-! ## Canonicity -/

/-- How the first variables of two diagrams compare: none is decided, only one of them decides the least
one, or both do. -/
theorem compare_first (hf : f < s.size) (hg : g < t.size) :
    ((f = falseRef ∨ f = trueRef) ∧ (g = falseRef ∨ g = trueRef)) ∨
      (∃ n, s.node? f = some n ∧ t.From (n.var + 1) g) ∨
      (∃ m, t.node? g = some m ∧ s.From (m.var + 1) f) ∨
      ∃ n m, s.node? f = some n ∧ t.node? g = some m ∧ n.var = m.var := by
  have from_const {u : Store} {e k : Nat} (he : e = falseRef ∨ e = trueRef) : u.From k e := by
    apply from_of_lt_two
    rcases he with rfl | rfl <;> decide
  have from_node {u : Store} {e k : Nat} {d : Node} (hd : u.node? e = some d) (hk : k ≤ d.var) :
      u.From k e := by
    intro d' hd'
    obtain rfl : d = d' := Option.some.inj (hd.symm.trans hd')
    exact hk
  rcases or_assoc.2 (falseRef_or_trueRef_or_node hf) with hf' | ⟨n, hn⟩
  · rcases or_assoc.2 (falseRef_or_trueRef_or_node hg) with hg' | ⟨m, hm⟩
    · exact .inl ⟨hf', hg'⟩
    · exact .inr (.inr (.inl ⟨m, hm, from_const hf'⟩))
  · rcases or_assoc.2 (falseRef_or_trueRef_or_node hg) with hg' | ⟨m, hm⟩
    · exact .inr (.inl ⟨n, hn, from_const hg'⟩)
    · rcases Nat.lt_trichotomy n.var m.var with hlt | heq | hgt
      · exact .inr (.inl ⟨n, hn, from_node hm hlt⟩)
      · exact .inr (.inr (.inr ⟨n, m, hn, hm, heq⟩))
      · exact .inr (.inr (.inl ⟨m, hm, from_node hn hgt⟩))

theorem eq_of_eval_eq_of_const (hf : f = falseRef ∨ f = trueRef) (hg : g = falseRef ∨ g = trueRef)
    (he : ∀ v, s.eval v f = t.eval v g) : f = g := by
  have hconst := he fun _ => false
  rcases hf with rfl | rfl <;> rcases hg with rfl | rfl
  · rfl
  · simp at hconst
  · simp at hconst
  · rfl

/-- Diagrams of one Boolean function are one node. -/
theorem eq_of_eval_eq (h : s.WellFormed) (hf : f < s.size) (hg : g < s.size)
    (he : ∀ v, s.eval v f = s.eval v g) : f = g := by
  -- the parts of a decision have smaller numbers than it, so the larger of the two numbers decreases
  induction hk : max f g using Nat.strong_induction_on generalizing f g with
  | _ k ih =>
    subst hk
    -- a decision on a variable that the other diagram does not depend on would be between equal parts
    have undecided {e d : Nat} {n : Node} (hn : s.node? e = some n) (hd : d < s.size)
        (hlater : s.From (n.var + 1) d) (hmax : e ≤ max f g)
        (hed : ∀ v, s.eval v e = s.eval v d) : False := by
      have hparts := h.eval_parts_eq h hn hd hlater hed
      have hlow := h.low_lt hn
      have hhigh := h.high_lt hn
      have hsame : n.low = n.high :=
        ih _ (by omega) (h.low_lt_size hn) (h.high_lt_size hn) hparts rfl
      exact h.low_ne_high hn hsame
    rcases compare_first hf hg with ⟨hf', hg'⟩ | ⟨n, hn, hlater⟩ | ⟨m, hm, hlater⟩ |
      ⟨n, m, hn, hm, hvar⟩
    · exact eq_of_eval_eq_of_const hf' hg' he
    · exact (undecided hn hg hlater (Nat.le_max_left f g) he).elim
    · exact (undecided hm hf hlater (Nat.le_max_right f g) fun v => (he v).symm).elim
    · -- both decide the variable, and their parts are the same in pairs
      have hnlow := h.low_lt hn
      have hnhigh := h.high_lt hn
      have hmlow := h.low_lt hm
      have hmhigh := h.high_lt hm
      have hlow : n.low = m.low :=
        ih _ (by omega) (h.low_lt_size hn) (h.low_lt_size hm) (h.eval_low_eq h hn hm hvar he) rfl
      have hhigh : n.high = m.high :=
        ih _ (by omega) (h.high_lt_size hn) (h.high_lt_size hm) (h.eval_high_eq h hn hm hvar he) rfl
      obtain ⟨var, low, high⟩ := n
      obtain ⟨var', low', high'⟩ := m
      obtain rfl : var = var' := hvar
      obtain rfl : low = low' := hlow
      obtain rfl : high = high' := hhigh
      exact h.eq_of_node? hn hm

end Store.WellFormed

namespace Reached

/-- Two issued references are equal exactly when they mean the same Boolean function.  In particular only
one of them means what is always false, and only one what is always true. -/
theorem eq_iff_eval_eq {s : Store} {issued : List Nat} (h : Reached s issued) {f g : Nat}
    (hf : f ∈ issued) (hg : g ∈ issued) :
    (f = g ↔ ∀ v, s.eval v f = s.eval v g) ∧
      ((∀ v, s.eval v f = false) → f = falseRef) ∧
      ((∀ v, s.eval v f = true) → f = trueRef) := by
  have canonical {e : Nat} (hmem : e ∈ issued) (he : ∀ v, s.eval v f = s.eval v e) : f = e :=
    h.wellFormed.eq_of_eval_eq (h.lt_size hf) (h.lt_size hmem) he
  refine ⟨⟨?_, canonical hg⟩, ?_, ?_⟩
  · rintro rfl v
    rfl
  · intro hfalse
    apply canonical h.falseRef_mem
    intro v
    rw [hfalse, eval_falseRef]
  · intro htrue
    apply canonical h.trueRef_mem
    intro v
    rw [htrue, eval_trueRef]

/-- The negation of the disjunction. -/
def notEither : Nat × Store := (Operation.negate 4).run.run eitherStore

/-- The negation of the negation of the disjunction. -/
def notNotEither : Nat × Store := (Operation.negate notEither.1).run.run notEither.2

theorem reached_notNotEither :
    Reached notNotEither.2 [notNotEither.1, notEither.1, 4, 3, 2, falseRef, trueRef] :=
  (reached_either.run (.negate 4) (by decide)).run (.negate notEither.1)
    (by simp [Operation.operands, notEither])

/-- Negating the disjunction twice gives its reference back. -/
theorem eq_iff_eval_eq_notNotEither :
    Reached notNotEither.2 [notNotEither.1, notEither.1, 4, 3, 2, falseRef, trueRef] ∧
      notNotEither.1 ∈ [notNotEither.1, notEither.1, 4, 3, 2, falseRef, trueRef] ∧
      4 ∈ [notNotEither.1, notEither.1, 4, 3, 2, falseRef, trueRef] ∧ notNotEither.1 = 4 := by
  have hmem : notNotEither.1 ∈ [notNotEither.1, notEither.1, 4, 3, 2, falseRef, trueRef] := by simp
  have hmem' : 4 ∈ [notNotEither.1, notEither.1, 4, 3, 2, falseRef, trueRef] := by simp
  refine ⟨reached_notNotEither, hmem, hmem', ?_⟩
  apply (eq_iff_eval_eq reached_notNotEither hmem hmem').1.2
  intro v
  have honce := Operation.run_makes reached_either.wellFormed (.negate 4) fun f hf =>
    reached_either.lt_size (by simp_all [Operation.operands])
  have htwice := Operation.run_makes honce.wellFormed (.negate notEither.1) fun f hf => by
    obtain rfl : f = notEither.1 := by simpa [Operation.operands] using hf
    exact honce.lt_size
  have hfour : 4 < eitherStore.size := reached_either.lt_size (by decide)
  calc notNotEither.2.eval v notNotEither.1
      = !notEither.2.eval v notEither.1 := htwice.eval_eq v
    _ = !!eitherStore.eval v 4 := congrArg _ (honce.eval_eq v)
    _ = eitherStore.eval v 4 := Bool.not_not _
    _ = notNotEither.2.eval v 4 := ((honce.extends_.trans htwice.extends_).eval_eq v hfour).symm

end Reached

end TimedInference.Diagram
