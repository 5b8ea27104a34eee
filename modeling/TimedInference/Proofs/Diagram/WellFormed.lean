import TimedInference.Diagram.Meaning

/-!
# Well-formed stores

A store is well formed when the parts of every decision come before it and decide later variables
only, when no decision is made between equal parts or made twice, and when every remembered result of
an operation is right.  The empty store is well formed, and each operation keeps a store well formed,
extends it, and returns a reference whose truth value is the intended one:

* `make_makes` : a decision;
* `negate_makes` : a negation;
* `combine_makes` : a connective.

All three statements have one shape, `Makes`, so that a compiler that issues operations one after
another is followed by chaining them.
-/

namespace TimedInference.Diagram.Store

/-! ## References and their first variables -/

/-- Every variable that the diagram decides first is at least `k`.  False and true decide nothing. -/
def From (s : Store) (k f : Nat) : Prop := ∀ n, s.node? f = some n → k ≤ n.var

/-- False and true are no decisions. -/
theorem node?_eq_none {s : Store} {f : Nat} (h : f < 2) : s.node? f = none := by
  simp [node?, h]

/-- Decisions come after false and true. -/
theorem lt_size_of_node? {s : Store} {f : Nat} {n : Node} (h : s.node? f = some n) :
    2 ≤ f ∧ f < s.size := by
  unfold node? at h
  split at h
  · simp at h
  · have := (Array.getElem?_eq_some_iff.1 h).1
    unfold size
    omega

/-- Every other reference of a store is a decision. -/
theorem exists_node? {s : Store} {f : Nat} (h : 2 ≤ f) (hf : f < s.size) :
    ∃ n, s.node? f = some n := by
  unfold size at hf
  have hi : f - 2 < s.nodes.size := by omega
  exact ⟨s.nodes[f - 2], by simp [node?, show ¬f < 2 by omega, hi]⟩

/-- A reference is false, true or a decision. -/
theorem falseRef_or_trueRef_or_node {s : Store} {f : Nat} (hf : f < s.size) :
    f = falseRef ∨ f = trueRef ∨ ∃ n, s.node? f = some n := by
  unfold falseRef trueRef
  by_cases h : 2 ≤ f
  · exact .inr (.inr (exists_node? h hf))
  · omega

/-- False and true decide no variable. -/
theorem from_of_lt_two {s : Store} {k f : Nat} (h : f < 2) : s.From k f := by
  intro n hn
  simp [node?_eq_none h] at hn

/-- A bound on the first variable may be lowered. -/
theorem From.mono {s : Store} {j k f : Nat} (h : s.From k f) (hj : j ≤ k) : s.From j f :=
  fun n hn => Nat.le_trans hj (h n hn)

/-! ## Stores that grow -/

/-- The second store holds the decisions of the first, with the same numbers. -/
def Extends (s t : Store) : Prop := ∃ more, t.nodes.toList = s.nodes.toList ++ more

theorem Extends.refl (s : Store) : s.Extends s := ⟨[], by simp⟩

theorem Extends.trans {s t u : Store} (h : s.Extends t) (h' : t.Extends u) : s.Extends u := by
  obtain ⟨xs, hx⟩ := h
  obtain ⟨ys, hy⟩ := h'
  exact ⟨xs ++ ys, by rw [hy, hx, List.append_assoc]⟩

/-- A store that grows has no fewer references. -/
theorem Extends.size_le {s t : Store} (h : s.Extends t) : s.size ≤ t.size := by
  obtain ⟨more, hm⟩ := h
  have := congrArg List.length hm
  simp only [Array.length_toList, List.length_append] at this
  unfold size
  omega

/-- References keep their decisions when a store grows. -/
theorem Extends.node?_eq {s t : Store} (h : s.Extends t) {f : Nat} (hf : f < s.size) :
    t.node? f = s.node? f := by
  obtain ⟨more, hm⟩ := h
  unfold size at hf
  unfold node?
  split
  · rfl
  · rw [← Array.getElem?_toList, ← Array.getElem?_toList, hm,
      List.getElem?_append_left (by rw [Array.length_toList]; omega)]

/-- References keep their first variables when a store grows. -/
theorem Extends.from_iff {s t : Store} (h : s.Extends t) {k f : Nat} (hf : f < s.size) :
    t.From k f ↔ s.From k f := by
  unfold From
  rw [h.node?_eq hf]

/-- References keep their values when a store grows. -/
theorem Extends.upward_eq {β : Type} (atFalse atTrue : β) (rule : Node → β → β → β) {s t : Store}
    (h : s.Extends t) {f : Nat} (hf : f < s.size) :
    (t.upward atFalse atTrue rule).getD f atFalse =
      (s.upward atFalse atTrue rule).getD f atFalse := by
  obtain ⟨more, hm⟩ := h
  have hs : f < (s.upward atFalse atTrue rule).size := by rwa [size_upward]
  have ht : t.upward atFalse atTrue rule =
      more.foldl (addValue atFalse rule) (s.upward atFalse atTrue rule) := by
    rw [upward, upward, ← Array.foldl_toList, ← Array.foldl_toList, hm, List.foldl_append]
  rw [ht]
  exact getD_addValues _ _ _ _ hs

/-- References keep their truth values when a store grows. -/
theorem Extends.eval_eq {s t : Store} (h : s.Extends t) (v : Nat → Bool) {f : Nat}
    (hf : f < s.size) : t.eval v f = s.eval v f :=
  h.upward_eq false true _ hf

/-! ## The invariant -/

/-- What every decision of a store satisfies, and what its tables hold. -/
structure WellFormed (s : Store) : Prop where
  low_lt : ∀ {f n}, s.node? f = some n → n.low < f
  high_lt : ∀ {f n}, s.node? f = some n → n.high < f
  low_ne_high : ∀ {f n}, s.node? f = some n → n.low ≠ n.high
  from_low : ∀ {f n}, s.node? f = some n → s.From (n.var + 1) n.low
  from_high : ∀ {f n}, s.node? f = some n → s.From (n.var + 1) n.high
  unique_iff : ∀ {n f}, s.unique[n]? = some f ↔ s.node? f = some n
  negated_lt : ∀ {f r}, s.negated[f]? = some r → f < s.size ∧ r < s.size
  negated_eval : ∀ {f r}, s.negated[f]? = some r → ∀ v, s.eval v r = !s.eval v f
  negated_from : ∀ {f r}, s.negated[f]? = some r → ∀ k, s.From k f → s.From k r
  combined_lt : ∀ {c f g r}, s.combined[((c, f, g) : Connective × Nat × Nat)]? = some r →
    f < s.size ∧ g < s.size ∧ r < s.size
  combined_eval : ∀ {c f g r}, s.combined[((c, f, g) : Connective × Nat × Nat)]? = some r →
    ∀ v, s.eval v r = c.eval (s.eval v f) (s.eval v g)
  combined_from : ∀ {c f g r}, s.combined[((c, f, g) : Connective × Nat × Nat)]? = some r →
    ∀ k, s.From k f → s.From k g → s.From k r

/-- In the empty store nothing is decided and nothing remembered. -/
theorem wellFormed_empty : empty.WellFormed := by
  have hn (f : Nat) (n : Node) : ¬ empty.node? f = some n := by simp [node?, empty]
  constructor
  case unique_iff =>
    intro n f
    simp [empty, node?]
  case negated_lt | negated_eval | negated_from =>
    intro f r h
    simp [empty] at h
  case combined_lt | combined_eval | combined_from =>
    intro c f g r h
    simp [empty] at h
  all_goals
    intro f n h
    exact absurd h (hn f n)

/-- The truth value of a decision follows from those of its parts. -/
theorem WellFormed.eval_node {s : Store} (h : s.WellFormed) {f : Nat} {n : Node}
    (hn : s.node? f = some n) (v : Nat → Bool) :
    s.eval v f = if v n.var then s.eval v n.high else s.eval v n.low :=
  Store.eval_node s v hn (h.low_lt hn) (h.high_lt hn)

theorem WellFormed.low_lt_size {s : Store} (h : s.WellFormed) {f : Nat} {n : Node}
    (hn : s.node? f = some n) : n.low < s.size :=
  Nat.lt_trans (h.low_lt hn) (lt_size_of_node? hn).2

theorem WellFormed.high_lt_size {s : Store} (h : s.WellFormed) {f : Nat} {n : Node}
    (hn : s.node? f = some n) : n.high < s.size :=
  Nat.lt_trans (h.high_lt hn) (lt_size_of_node? hn).2

/-- Induction along the decisions of a well-formed store, whose parts come before them. -/
theorem WellFormed.induct {s : Store} (h : s.WellFormed) {motive : (f : Nat) → f < s.size → Prop}
    (atFalse : ∀ hf, motive falseRef hf) (atTrue : ∀ hf, motive trueRef hf)
    (decision : ∀ f hf n (hn : s.node? f = some n), motive n.low (h.low_lt_size hn) →
      motive n.high (h.high_lt_size hn) → motive f hf) (f : Nat) (hf : f < s.size) :
    motive f hf := by
  induction f using Nat.strongRecOn with
  | ind f ih =>
    rcases falseRef_or_trueRef_or_node hf with rfl | rfl | ⟨n, hn⟩
    · exact atFalse hf
    · exact atTrue hf
    · have low := ih n.low (h.low_lt hn) (h.low_lt_size hn)
      have high := ih n.high (h.high_lt hn) (h.high_lt_size hn)
      exact decision f hf n hn low high

/-- What an operation on a well-formed store returns: a well-formed store that extends the first one,
and a reference with the intended truth value whose first variable is not below certain bounds. -/
structure Makes (s : Store) (meaning : (Nat → Bool) → Bool) (bound : Nat → Prop)
    (out : Nat × Store) : Prop where
  wellFormed : out.2.WellFormed
  extends_ : s.Extends out.2
  lt_size : out.1 < out.2.size
  eval_eq : ∀ v, out.2.eval v out.1 = meaning v
  from_ : ∀ k, bound k → out.2.From k out.1

/-! ## Decisions -/

/-- The store with one more decision. -/
def push (s : Store) (n : Node) : Store :=
  { s with nodes := s.nodes.push n, unique := s.unique.insert n s.size }

theorem extends_push (s : Store) (n : Node) : s.Extends (s.push n) := ⟨[n], by simp [push]⟩

theorem node?_push (s : Store) (n : Node) (f : Nat) :
    (s.push n).node? f = if f = s.size then some n else s.node? f := by
  unfold node? push size
  by_cases hf : f < 2
  · simp [hf, show f ≠ s.nodes.size + 2 by omega]
  · by_cases he : f = s.nodes.size + 2
    · simp [he]
    · simp [hf, he, Array.getElem?_push, show f - 2 ≠ s.nodes.size by omega]

/-- A decision of the longer store is the new one or an earlier one. -/
theorem node?_push_eq_some_iff {s : Store} {n m : Node} {f : Nat} :
    (s.push n).node? f = some m ↔ f = s.size ∧ n = m ∨ s.node? f = some m := by
  rw [node?_push]
  by_cases hf : f = s.size
  · subst hf
    have hnew : ¬ s.node? s.size = some m := fun hm => by
      have := (lt_size_of_node? hm).2
      omega
    simp [hnew]
  · simp [hf]

/-- With one more decision, the table of decisions still lists all of them. -/
theorem WellFormed.unique_push_iff {s : Store} (h : s.WellFormed) {n : Node}
    (hu : s.unique[n]? = none) {m : Node} {f : Nat} :
    (s.push n).unique[m]? = some f ↔ (s.push n).node? f = some m := by
  rw [node?_push_eq_some_iff]
  change (s.unique.insert n s.size)[m]? = _ ↔ _
  rw [Std.HashMap.getElem?_insert]
  by_cases hm : n = m
  · subst hm
    -- the table did not list the decision, so no earlier node is it
    have hn : ∀ g, s.node? g ≠ some n := fun g hg => by
      rw [h.unique_iff.2 hg] at hu
      simp at hu
    simp [hn, eq_comm]
  · simp [hm, h.unique_iff]

/-- Every decision of the longer store is in order when the new one is. -/
theorem WellFormed.decision_push {s : Store} (h : s.WellFormed) {n : Node} (hl : n.low < s.size)
    (hh : n.high < s.size) (hne : n.low ≠ n.high) (fl : s.From (n.var + 1) n.low)
    (fh : s.From (n.var + 1) n.high) {f : Nat} {m : Node} (hm : (s.push n).node? f = some m) :
    (m.low < f ∧ m.high < f ∧ m.low ≠ m.high) ∧
      (s.push n).From (m.var + 1) m.low ∧ (s.push n).From (m.var + 1) m.high := by
  have he := extends_push s n
  rcases node?_push_eq_some_iff.1 hm with ⟨rfl, rfl⟩ | hm
  · exact ⟨⟨hl, hh, hne⟩, (he.from_iff hl).2 fl, (he.from_iff hh).2 fh⟩
  · refine ⟨⟨h.low_lt hm, h.high_lt hm, h.low_ne_high hm⟩, ?_, ?_⟩
    · exact (he.from_iff (h.low_lt_size hm)).2 (h.from_low hm)
    · exact (he.from_iff (h.high_lt_size hm)).2 (h.from_high hm)

/-- A remembered negation is right in every store that extends the one that remembers it. -/
theorem WellFormed.negated_of_extends {s t : Store} (h : s.WellFormed) (he : s.Extends t) {f r : Nat}
    (hr : s.negated[f]? = some r) :
    (f < t.size ∧ r < t.size) ∧ (∀ v, t.eval v r = !t.eval v f) ∧ ∀ k, t.From k f → t.From k r := by
  obtain ⟨hf, hr'⟩ := h.negated_lt hr
  have hsize := he.size_le
  refine ⟨⟨by omega, by omega⟩, fun v => ?_, fun k => ?_⟩
  · rw [he.eval_eq v hf, he.eval_eq v hr']
    exact h.negated_eval hr v
  · rw [he.from_iff hf, he.from_iff hr']
    exact h.negated_from hr k

/-- A remembered combination is right in every store that extends the one that remembers it. -/
theorem WellFormed.combined_of_extends {s t : Store} (h : s.WellFormed) (he : s.Extends t)
    {c : Connective} {f g r : Nat} (hr : s.combined[(c, f, g)]? = some r) :
    (f < t.size ∧ g < t.size ∧ r < t.size) ∧
      (∀ v, t.eval v r = c.eval (t.eval v f) (t.eval v g)) ∧
      ∀ k, t.From k f → t.From k g → t.From k r := by
  obtain ⟨hf, hg, hr'⟩ := h.combined_lt hr
  have hsize := he.size_le
  refine ⟨⟨by omega, by omega, by omega⟩, fun v => ?_, fun k => ?_⟩
  · rw [he.eval_eq v hf, he.eval_eq v hg, he.eval_eq v hr']
    exact h.combined_eval hr v
  · rw [he.from_iff hf, he.from_iff hg, he.from_iff hr']
    exact h.combined_from hr k

/-- Everything but the new decision is as it was, so the invariant needs a proof for that one only. -/
theorem WellFormed.push {s : Store} (h : s.WellFormed) {n : Node} (hl : n.low < s.size)
    (hh : n.high < s.size) (hne : n.low ≠ n.high) (fl : s.From (n.var + 1) n.low)
    (fh : s.From (n.var + 1) n.high) (hu : s.unique[n]? = none) : (s.push n).WellFormed := by
  have decision {f : Nat} {m : Node} (hm : (s.push n).node? f = some m) :=
    h.decision_push hl hh hne fl fh hm
  -- nothing is forgotten and nothing new remembered
  have negated {f r : Nat} (hr : (s.push n).negated[f]? = some r) :=
    h.negated_of_extends (extends_push s n) hr
  have combined {c : Connective} {f g r : Nat} (hr : (s.push n).combined[(c, f, g)]? = some r) :=
    h.combined_of_extends (extends_push s n) hr
  constructor
  case low_lt => exact fun hm => (decision hm).1.1
  case high_lt => exact fun hm => (decision hm).1.2.1
  case low_ne_high => exact fun hm => (decision hm).1.2.2
  case from_low => exact fun hm => (decision hm).2.1
  case from_high => exact fun hm => (decision hm).2.2
  case unique_iff => exact h.unique_push_iff hu
  case negated_lt => exact fun hr => (negated hr).1
  case negated_eval => exact fun hr => (negated hr).2.1
  case negated_from => exact fun hr => (negated hr).2.2
  case combined_lt => exact fun hr => (combined hr).1
  case combined_eval => exact fun hr => (combined hr).2.1
  case combined_from => exact fun hr => (combined hr).2.2

/-- Making a decision either shares one of its parts, finds the decision or adds it. -/
theorem make_eq (n : Node) (s : Store) :
    (make n).run s =
      if n.low = n.high then (n.low, s)
      else
        match s.unique[n]? with
        | some f => (f, s)
        | none => (s.size, s.push n) := rfl

/-- A decision between diagrams that decide later variables only. -/
theorem make_makes {s : Store} (h : s.WellFormed) {n : Node} (hl : n.low < s.size)
    (hh : n.high < s.size) (fl : s.From (n.var + 1) n.low) (fh : s.From (n.var + 1) n.high) :
    Makes s (fun v => if v n.var then s.eval v n.high else s.eval v n.low) (· ≤ n.var)
      ((make n).run s) := by
  rw [make_eq]
  by_cases he : n.low = n.high
  · rw [if_pos he]
    refine ⟨h, Extends.refl s, hl, fun v => ?_, fun k hk => fl.mono (Nat.le_succ_of_le hk)⟩
    rw [← he, ite_self]
  rw [if_neg he]
  cases hu : s.unique[n]? with
  | some f =>
    have hn := h.unique_iff.1 hu
    refine ⟨h, Extends.refl s, (lt_size_of_node? hn).2, h.eval_node hn, fun k hk m hm => ?_⟩
    obtain rfl : n = m := Option.some.inj (hn.symm.trans hm)
    exact hk
  | none =>
    have hp := h.push hl hh he fl fh hu
    have hx := extends_push s n
    have hn : (s.push n).node? s.size = some n := by rw [node?_push, if_pos rfl]
    refine ⟨hp, hx, (lt_size_of_node? hn).2, fun v => ?_, fun k hk m hm => ?_⟩
    · rw [hp.eval_node hn, hx.eval_eq v hl, hx.eval_eq v hh]
    · obtain rfl : n = m := Option.some.inj (hn.symm.trans hm)
      exact hk

/-- The diagram of a variable. -/
theorem ofVar_makes {s : Store} (h : s.WellFormed) (i : Nat) :
    Makes s (fun v => v i) (· ≤ i) ((ofVar i).run s) := by
  have hf : falseRef < s.size := by unfold size falseRef; omega
  have ht : trueRef < s.size := by unfold size trueRef; omega
  have hm := make_makes h (n := ⟨i, falseRef, trueRef⟩) hf ht
    (from_of_lt_two (show falseRef < 2 by decide)) (from_of_lt_two (show trueRef < 2 by decide))
  refine ⟨hm.wellFormed, hm.extends_, hm.lt_size, fun v => ?_, hm.from_⟩
  rw [ofVar, hm.eval_eq v]
  cases v i <;> simp

end TimedInference.Diagram.Store
