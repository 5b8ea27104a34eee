import Mathlib.Data.Set.Card
import TimedInference.Proofs.Diagram.Canonicity
import TimedInference.Proofs.Diagram.Probability

/-!
# Diagrams do not depend on how they were made

Two diagrams, perhaps of different stores, are isomorphic when they take the same decisions
(`Isomorphic`).  In well-formed stores they are when they mean the same Boolean function
(`WellFormed.isomorphic_of_eval_eq`), however the nodes of the stores are numbered.  Isomorphic diagrams have
the same value under every rule that goes by variables (`Isomorphic.upward_eq`), and so the same probability
in every arithmetic.  The size of a diagram is the number of its decisions (`WellFormed.diagramSize_eq_ncard`),
which mean different functions each, and isomorphic diagrams are made up of the same functions
(`Isomorphic.diagramSize_eq`).
-/

namespace TimedInference.Diagram

open Relation

namespace Store

variable {s t : Store} {f g : Nat}

/-! ## Isomorphic diagrams -/

/-- The diagram of one store takes the same decisions as that of another one. -/
inductive Isomorphic (s t : Store) : Nat → Nat → Prop where
  | atFalse : Isomorphic s t falseRef falseRef
  | atTrue : Isomorphic s t trueRef trueRef
  | decision {f g : Nat} {n m : Node} (hn : s.node? f = some n) (hm : t.node? g = some m)
      (hvar : n.var = m.var) (low : Isomorphic s t n.low m.low)
      (high : Isomorphic s t n.high m.high) : Isomorphic s t f g

/-- Being isomorphic does not depend on which store comes first. -/
theorem Isomorphic.symm (h : Isomorphic s t f g) : Isomorphic t s g f := by
  induction h with
  | atFalse => exact .atFalse
  | atTrue => exact .atTrue
  | decision hn hm hvar _ _ low high => exact .decision hm hn hvar.symm low high

/-- Isomorphic diagrams have the same value under a rule that goes by the variables of decisions. -/
theorem Isomorphic.upward_eq (hi : Isomorphic s t f g) (hs : s.WellFormed) (ht : t.WellFormed)
    {β : Type} (atFalse atTrue : β) (rule : Nat → β → β → β) :
    (s.upward atFalse atTrue fun n => rule n.var).getD f atFalse =
      (t.upward atFalse atTrue fun n => rule n.var).getD g atFalse := by
  induction hi with
  | atFalse => rw [upward_falseRef, upward_falseRef]
  | atTrue => rw [upward_trueRef, upward_trueRef]
  | decision hn hm hvar _ _ low high =>
    rw [upward_node _ _ _ _ hn (hs.low_lt hn) (hs.high_lt hn),
      upward_node _ _ _ _ hm (ht.low_lt hm) (ht.high_lt hm), low, high, hvar]

/-- Isomorphic diagrams have one truth value under every assignment. -/
theorem Isomorphic.eval_eq (hi : Isomorphic s t f g) (hs : s.WellFormed) (ht : t.WellFormed)
    (v : Nat → Bool) : s.eval v f = t.eval v g :=
  hi.upward_eq hs ht false true fun i low high => if v i then high else low

/-- A decision does not mean what a diagram of later variables means. -/
theorem WellFormed.not_eval_eq_of_from (hs : s.WellFormed) (ht : t.WellFormed) {n : Node}
    (hn : s.node? f = some n) (hg : g < t.size) (hlater : t.From (n.var + 1) g) :
    ¬ ∀ v, s.eval v f = t.eval v g := by
  intro he
  apply hs.low_ne_high hn
  apply hs.eq_of_eval_eq (hs.low_lt_size hn) (hs.high_lt_size hn)
  exact hs.eval_parts_eq ht hn hg hlater he

/-- Diagrams of the same Boolean function are isomorphic. -/
theorem WellFormed.isomorphic_of_eval_eq (hs : s.WellFormed) (ht : t.WellFormed) (hf : f < s.size)
    (hg : g < t.size) (he : ∀ v, s.eval v f = t.eval v g) : Isomorphic s t f g := by
  induction f using Nat.strong_induction_on generalizing g with
  | _ f ih =>
    -- the function tells which variable is decided first, so both diagrams decide it
    rcases WellFormed.compare_first hf hg with ⟨hf', hg'⟩ | ⟨n, hn, hlater⟩ | ⟨m, hm, hlater⟩ |
      ⟨n, m, hn, hm, hvar⟩
    · obtain rfl := WellFormed.eq_of_eval_eq_of_const hf' hg' he
      rcases hf' with rfl | rfl
      · exact .atFalse
      · exact .atTrue
    · exact absurd he (hs.not_eval_eq_of_from ht hn hg hlater)
    · exact absurd (fun v => (he v).symm) (ht.not_eval_eq_of_from hs hm hf hlater)
    · have hlow := ih n.low (hs.low_lt hn) (hs.low_lt_size hn) (ht.low_lt_size hm)
        (hs.eval_low_eq ht hn hm hvar he)
      have hhigh := ih n.high (hs.high_lt hn) (hs.high_lt_size hn) (ht.high_lt_size hm)
        (hs.eval_high_eq ht hn hm hvar he)
      exact .decision hn hm hvar hlow hhigh

/-- Isomorphic diagrams have the same probability, in whatever arithmetic. -/
theorem Isomorphic.probability_eq (hi : Isomorphic s t f g) (hs : s.WellFormed) (ht : t.WellFormed)
    (hf : f < s.size) (hg : g < t.size) {α : Type} [Probability α] (w : Array α) :
    s.probability w f = t.probability w g := by
  rw [hs.probability_eq w hf, ht.probability_eq w hg]
  exact hi.upward_eq hs ht 0 1 fun i => weigh (w.getD i 0)

/-! ## The decisions of a diagram -/

/-- A diagram is one of the two parts of a decision. -/
def PartOf (s : Store) (f d : Nat) : Prop := ∃ n, s.node? f = some n ∧ (d = n.low ∨ d = n.high)

/-- The decisions that a diagram consists of. -/
def decisions (s : Store) (f : Nat) : Set Nat :=
  {d | ReflTransGen s.PartOf f d ∧ ∃ n, s.node? d = some n}

/-- The decisions of a diagram do not come after it. -/
theorem WellFormed.le_of_mem_decisions (h : s.WellFormed) {d : Nat} (hd : d ∈ s.decisions f) :
    d ≤ f := by
  obtain ⟨hreach, -⟩ := hd
  induction hreach with
  | refl => exact Nat.le_refl f
  | tail _ hpart ih =>
    obtain ⟨n, hn, rfl | rfl⟩ := hpart
    · exact Nat.le_trans (Nat.le_of_lt (h.low_lt hn)) ih
    · exact Nat.le_trans (Nat.le_of_lt (h.high_lt hn)) ih

/-- The decisions of a diagram are its first one and those of its parts. -/
theorem decisions_of_node? {n : Node} (hn : s.node? f = some n) :
    s.decisions f = insert f (s.decisions n.low ∪ s.decisions n.high) := by
  ext d
  simp only [decisions, Set.mem_insert_iff, Set.mem_union, Set.mem_ofPred_eq]
  constructor
  · rintro ⟨hreach, hnode⟩
    rcases ReflTransGen.cases_head hreach with rfl | ⟨c, ⟨m, hm, hc⟩, hrest⟩
    · exact .inl rfl
    · obtain rfl : n = m := Option.some.inj (hn.symm.trans hm)
      rcases hc with rfl | rfl
      · exact .inr (.inl ⟨hrest, hnode⟩)
      · exact .inr (.inr ⟨hrest, hnode⟩)
  · rintro (rfl | ⟨hreach, hnode⟩ | ⟨hreach, hnode⟩)
    · exact ⟨.refl, n, hn⟩
    · exact ⟨hreach.head ⟨n, hn, .inl rfl⟩, hnode⟩
    · exact ⟨hreach.head ⟨n, hn, .inr rfl⟩, hnode⟩

theorem decisions_of_node?_eq_none (hn : s.node? f = none) : s.decisions f = ∅ := by
  ext d
  simp only [decisions, Set.mem_ofPred_eq, Set.mem_empty_iff_false, iff_false]
  rintro ⟨hreach, n, hd⟩
  rcases ReflTransGen.cases_head hreach with rfl | ⟨c, ⟨m, hm, -⟩, -⟩
  · rw [hn] at hd
    cases hd
  · rw [hn] at hm
    cases hm

/-! ## The size of a diagram -/

/-- The decisions of the marked diagrams below a bound. -/
def markedDecisions (s : Store) (k : Nat) (marked : Std.HashSet Nat) : Set Nat :=
  {d | ∃ m ∈ marked, m < k ∧ d ∈ s.decisions m}

theorem WellFormed.lt_of_mem_markedDecisions (h : s.WellFormed) {k d : Nat}
    {marked : Std.HashSet Nat} (hd : d ∈ s.markedDecisions k marked) : d < k := by
  obtain ⟨m, -, hm, hd⟩ := hd
  exact Nat.lt_of_le_of_lt (h.le_of_mem_decisions hd) hm

/-- A diagram has finitely many decisions. -/
theorem WellFormed.finite_markedDecisions (h : s.WellFormed) (k : Nat) (marked : Std.HashSet Nat) :
    (s.markedDecisions k marked).Finite :=
  (Set.finite_lt_nat k).subset fun _ hd => h.lt_of_mem_markedDecisions hd

/-- A marked decision below the bound counts, and marks its parts in its place. -/
theorem WellFormed.markedDecisions_node (h : s.WellFormed) {n : Node} (hn : s.node? f = some n)
    {marked : Std.HashSet Nat} (hmarked : f ∈ marked) :
    s.markedDecisions (f + 1) marked =
      insert f (s.markedDecisions f ((marked.insert n.low).insert n.high)) := by
  have hlow := h.low_lt hn
  have hhigh := h.high_lt hn
  ext d
  simp only [markedDecisions, Set.mem_insert_iff, Set.mem_ofPred_eq, Std.HashSet.mem_insert,
    beq_iff_eq]
  constructor
  · rintro ⟨m, hm, hlt, hd⟩
    -- what the decision reaches is itself and what its parts reach, which get marked
    by_cases hmf : m = f
    · subst hmf
      rw [decisions_of_node? hn] at hd
      rcases hd with rfl | hd | hd
      · exact .inl rfl
      · exact .inr ⟨n.low, .inr (.inl rfl), hlow, hd⟩
      · exact .inr ⟨n.high, .inl rfl, hhigh, hd⟩
    · exact .inr ⟨m, .inr (.inr hm), by omega, hd⟩
  · rintro (rfl | ⟨m, rfl | rfl | hm, hlt, hd⟩)
    · refine ⟨d, hmarked, Nat.lt_succ_self d, ?_⟩
      rw [decisions_of_node? hn]
      exact Set.mem_insert d _
    · refine ⟨f, hmarked, Nat.lt_succ_self f, ?_⟩
      rw [decisions_of_node? hn]
      exact .inr (.inr hd)
    · refine ⟨f, hmarked, Nat.lt_succ_self f, ?_⟩
      rw [decisions_of_node? hn]
      exact .inr (.inl hd)
    · exact ⟨m, hm, Nat.lt_succ_of_lt hlt, hd⟩

/-- What is not marked, or is no decision, does not count. -/
theorem markedDecisions_succ {marked : Std.HashSet Nat}
    (hskip : f ∈ marked → s.node? f = none) :
    s.markedDecisions (f + 1) marked = s.markedDecisions f marked := by
  ext d
  simp only [markedDecisions, Set.mem_ofPred_eq]
  constructor
  · rintro ⟨m, hm, hlt, hd⟩
    have hne : m ≠ f := by
      rintro rfl
      rw [decisions_of_node?_eq_none (hskip hm)] at hd
      exact hd
    exact ⟨m, hm, by omega, hd⟩
  · rintro ⟨m, hm, hlt, hd⟩
    exact ⟨m, hm, Nat.lt_succ_of_lt hlt, hd⟩

/-- Marking downward counts the decisions of the marked diagrams. -/
theorem WellFormed.countMarked_eq_ncard (h : s.WellFormed) (k : Nat) (marked : Std.HashSet Nat) :
    s.countMarked k marked = (s.markedDecisions k marked).ncard := by
  induction k generalizing marked with
  | zero =>
    have hempty : s.markedDecisions 0 marked = ∅ := by
      ext d
      simp [markedDecisions]
    rw [hempty, Set.ncard_empty]
    rfl
  | succ f ih =>
    rw [countMarked]
    by_cases hmarked : f ∈ marked
    · rw [if_pos (Std.HashSet.mem_iff_contains.1 hmarked)]
      cases hn : s.node? f with
      | some n =>
        -- parts come before their decision, so what they reach does not contain it
        have hfresh : f ∉ s.markedDecisions f ((marked.insert n.low).insert n.high) := fun hf =>
          Nat.lt_irrefl f (h.lt_of_mem_markedDecisions hf)
        rw [h.markedDecisions_node hn hmarked,
          Set.ncard_insert_of_notMem hfresh (h.finite_markedDecisions _ _), ← ih]
      | none => rw [markedDecisions_succ fun _ => hn, ih]
    · rw [if_neg fun hc => hmarked (Std.HashSet.mem_iff_contains.2 hc),
        markedDecisions_succ fun hm => absurd hm hmarked, ih]

/-- The size of a diagram is the number of its decisions. -/
theorem WellFormed.diagramSize_eq_ncard (h : s.WellFormed) (f : Nat) :
    s.diagramSize f = (s.decisions f).ncard := by
  have hone : s.markedDecisions (f + 1) (Std.HashSet.ofList [f]) = s.decisions f := by
    ext d
    simp [markedDecisions]
  rw [diagramSize, h.countMarked_eq_ncard, hone]

/-! ## Decisions of isomorphic diagrams -/

/-- What an isomorphic diagram leads to has its counterpart. -/
theorem Isomorphic.exists_counterpart (hi : Isomorphic s t f g) {d : Nat}
    (hd : ReflTransGen s.PartOf f d) : ∃ e, ReflTransGen t.PartOf g e ∧ Isomorphic s t d e := by
  induction hd with
  | refl => exact ⟨g, .refl, hi⟩
  | tail _ hpart ih =>
    obtain ⟨e, hreach, hde⟩ := ih
    obtain ⟨n, hn, hd⟩ := hpart
    -- a constant has no parts, so the path goes on from a decision on either side
    cases hde with
    | atFalse => cases hn
    | atTrue => cases hn
    | @decision _ _ n' m hn' hm _ low high =>
      obtain rfl : n = n' := Option.some.inj (hn.symm.trans hn')
      rcases hd with rfl | rfl
      · exact ⟨m.low, hreach.tail ⟨m, hm, .inl rfl⟩, low⟩
      · exact ⟨m.high, hreach.tail ⟨m, hm, .inr rfl⟩, high⟩

/-- The Boolean functions that the decisions of a diagram mean. -/
def functions (s : Store) (f : Nat) : Set ((Nat → Bool) → Bool) :=
  (fun d v => s.eval v d) '' s.decisions f

/-- The decisions of a diagram mean different functions each. -/
theorem WellFormed.ncard_functions (h : s.WellFormed) (f : Nat) :
    (s.functions f).ncard = (s.decisions f).ncard := by
  apply Set.InjOn.ncard_image
  rintro d ⟨-, n, hd⟩ e ⟨-, m, he⟩ heval
  exact h.eq_of_eval_eq (lt_size_of_node? hd).2 (lt_size_of_node? he).2 fun v => congrFun heval v

/-- Every function that a decision of the one diagram means, a decision of the other means. -/
theorem Isomorphic.functions_subset (hi : Isomorphic s t f g) (hs : s.WellFormed)
    (ht : t.WellFormed) : s.functions f ⊆ t.functions g := by
  rintro _ ⟨d, ⟨hreach, n, hn⟩, rfl⟩
  obtain ⟨e, hreach', hde⟩ := hi.exists_counterpart hreach
  refine ⟨e, ⟨hreach', ?_⟩, ?_⟩
  · cases hde with
    | atFalse => cases hn
    | atTrue => cases hn
    | decision _ hm => exact ⟨_, hm⟩
  · funext v
    exact (hde.eval_eq hs ht v).symm

/-- Isomorphic diagrams have the same size. -/
theorem Isomorphic.diagramSize_eq (hi : Isomorphic s t f g) (hs : s.WellFormed) (ht : t.WellFormed) :
    s.diagramSize f = t.diagramSize g := by
  have hfunctions : s.functions f = t.functions g :=
    Set.Subset.antisymm (hi.functions_subset hs ht) (hi.symm.functions_subset ht hs)
  rw [hs.diagramSize_eq_ncard, ht.diagramSize_eq_ncard, ← hs.ncard_functions, hfunctions,
    ht.ncard_functions]

end Store

/-! ## Reached stores -/

open Store

namespace Reached

/-- References of the same Boolean function have the same size and, in every arithmetic, the same
probability, whatever operations led to the stores that issued them. -/
theorem size_and_probability_eq {s t : Store} {issued issued' : List Nat} (hs : Reached s issued)
    (ht : Reached t issued') {f g : Nat} (hf : f ∈ issued) (hg : g ∈ issued')
    (he : ∀ v, s.eval v f = t.eval v g) :
    s.diagramSize f = t.diagramSize g ∧
      ∀ {α : Type} [Probability α] (w : Array α), s.probability w f = t.probability w g := by
  have hi := hs.wellFormed.isomorphic_of_eval_eq ht.wellFormed (hs.lt_size hf) (ht.lt_size hg) he
  constructor
  · exact hi.diagramSize_eq hs.wellFormed ht.wellFormed
  · intro α _ w
    exact hi.probability_eq hs.wellFormed ht.wellFormed (hs.lt_size hf) (ht.lt_size hg) w

/-- The store of three variables, of which the last one was made first. -/
def threeVariables : Store :=
  ((Store.empty.push ⟨2, falseRef, trueRef⟩).push ⟨0, falseRef, trueRef⟩).push ⟨1, falseRef, trueRef⟩

theorem reached_threeVariables : Reached threeVariables [4, 3, 2, falseRef, trueRef] := by
  have hlast : (Operation.ofVar 2).run.run Store.empty =
      (2, Store.empty.push ⟨2, falseRef, trueRef⟩) := by
    rw [Operation.run, Store.ofVar, make_eq]
    simp [Store.empty, size, falseRef, trueRef]
  have hfirst : (Operation.ofVar 0).run.run (Store.empty.push ⟨2, falseRef, trueRef⟩) =
      (3, (Store.empty.push ⟨2, falseRef, trueRef⟩).push ⟨0, falseRef, trueRef⟩) := by
    rw [Operation.run, Store.ofVar, make_eq]
    simp [Store.empty, Store.push, size, falseRef, trueRef]
  have hsecond : (Operation.ofVar 1).run.run
      ((Store.empty.push ⟨2, falseRef, trueRef⟩).push ⟨0, falseRef, trueRef⟩) =
        (4, threeVariables) := by
    rw [Operation.run, Store.ofVar, make_eq]
    simp [threeVariables, Store.empty, Store.push, size, falseRef, trueRef]
  have h := ((Reached.empty.run (.ofVar 2) (by simp [Operation.operands])).run (.ofVar 0)
    (by simp [Operation.operands])).run (.ofVar 1) (by simp [Operation.operands])
  rw [hlast, hfirst, hsecond] at h
  exact h

/-- The store of three variables after the disjunction of the first two. -/
def firstOrSecond : Nat × Store := (Operation.disjoin 4 3).run.run threeVariables

theorem reached_firstOrSecond :
    Reached firstOrSecond.2 [firstOrSecond.1, 4, 3, 2, falseRef, trueRef] :=
  reached_threeVariables.run (.disjoin 4 3) (by decide)

theorem eval_firstOrSecond (v : Nat → Bool) :
    eitherStore.eval v 4 = firstOrSecond.2.eval v firstOrSecond.1 := by
  have hcombined : firstOrSecond.2.eval v firstOrSecond.1 =
      (threeVariables.eval v 4 || threeVariables.eval v 3) := by
    have hmem : ∀ f ∈ (Operation.disjoin 4 3).operands, f ∈ [4, 3, 2, falseRef, trueRef] := by decide
    have hlt : ∀ f ∈ (Operation.disjoin 4 3).operands, f < threeVariables.size :=
      fun f hf => reached_threeVariables.lt_size (hmem f hf)
    exact ((Operation.disjoin 4 3).run_makes reached_threeVariables.wellFormed hlt).eval_eq v
  have hfirst : threeVariables.eval v 3 = v 0 := by
    simp [Store.eval, upward, addValue, threeVariables, Store.empty, Store.push, falseRef, trueRef]
  have hsecond : threeVariables.eval v 4 = v 1 := by
    simp [Store.eval, upward, addValue, threeVariables, Store.empty, Store.push, falseRef, trueRef]
  have heither : eitherStore.eval v 4 = (v 1 || v 0) := by
    rw [Store.eval, upward, nodes_either]
    simp [addValue, falseRef, trueRef, Bool.or_comm]
  rw [hcombined, hfirst, hsecond, heither]

/-- The disjunction of two variables has other numbers in a store that has a third one, and the same size and
probability. -/
theorem size_and_probability_eq_firstOrSecond :
    Reached eitherStore [4, 3, 2, falseRef, trueRef] ∧
      Reached firstOrSecond.2 [firstOrSecond.1, 4, 3, 2, falseRef, trueRef] ∧
      (∀ v, eitherStore.eval v 4 = firstOrSecond.2.eval v firstOrSecond.1) ∧
      eitherStore.diagramSize 4 = firstOrSecond.2.diagramSize firstOrSecond.1 ∧
      ∀ w : Array Float, eitherStore.probability w 4 = firstOrSecond.2.probability w firstOrSecond.1 := by
  obtain ⟨hsize, hprobability⟩ := size_and_probability_eq reached_either reached_firstOrSecond
    (f := 4) (g := firstOrSecond.1) (by decide) List.mem_cons_self eval_firstOrSecond
  exact ⟨reached_either, reached_firstOrSecond, eval_firstOrSecond, hsize, hprobability⟩

end Reached

end TimedInference.Diagram
