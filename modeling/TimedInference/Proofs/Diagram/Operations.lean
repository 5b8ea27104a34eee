import TimedInference.Proofs.Diagram.WellFormed

/-!
# What the operations of a store make

Negation and the connectives recurse on the parts of decisions, remember their results and make new
decisions.  Each is followed once, by induction on its bound, with the statement of
`Proofs.Diagram.WellFormed`: from a well-formed store it makes a diagram of the intended truth value
(`negate_makes`, `combine_makes`).
-/

namespace TimedInference.Diagram

/-! ## Connectives and their constants -/

namespace Connective

/-- The constant that settles a connective. -/
def absorbing : Connective → Nat
  | and => falseRef
  | or => trueRef

/-- The constant that leaves the other operand as it is. -/
def neutral : Connective → Nat
  | and => trueRef
  | or => falseRef

/-- Both connectives are cut short in the same way, each with its own constants. -/
theorem shortcut?_eq (c : Connective) (f g : Nat) :
    c.shortcut? f g =
      if f = c.absorbing ∨ g = c.absorbing then some c.absorbing
      else if f = c.neutral then some g
      else if g = c.neutral then some f
      else if f = g then some f
      else none := by
  cases c <;> rfl

theorem absorbing_lt_two (c : Connective) : c.absorbing < 2 := by
  cases c <;> decide

/-- Of false and true, one absorbs a connective and the other is neutral. -/
theorem eq_absorbing_or_neutral (c : Connective) {f : Nat} (hf : f < 2) :
    f = c.absorbing ∨ f = c.neutral := by
  cases c <;> simp only [absorbing, neutral, falseRef, trueRef] <;> omega

/-- The connectives are commutative, and a value combined with itself is this value. -/
theorem eval_comm (c : Connective) (a b : Bool) : c.eval a b = c.eval b a := by
  cases c <;> cases a <;> cases b <;> rfl

theorem eval_self (c : Connective) (a : Bool) : c.eval a a = a := by
  cases c <;> cases a <;> rfl

theorem eval_absorbing (c : Connective) (s : Store) (v : Nat → Bool) (a : Bool) :
    c.eval a (s.eval v c.absorbing) = s.eval v c.absorbing := by
  cases c <;> simp [eval, absorbing]

theorem eval_neutral (c : Connective) (s : Store) (v : Nat → Bool) (a : Bool) :
    c.eval a (s.eval v c.neutral) = a := by
  cases c <;> simp [eval, neutral]

end Connective

namespace Store

/-! ## One operation after another -/

/-- What was made stays made when the store grows. -/
theorem Makes.later {s t : Store} {meaning : (Nat → Bool) → Bool} {bound : Nat → Prop}
    {out : Nat × Store} (h : Makes s meaning bound out) (hx : out.2.Extends t) (v : Nat → Bool) :
    t.eval v out.1 = meaning v := by
  rw [hx.eval_eq v h.lt_size, h.eval_eq]

/-- Two diagrams that are made one after the other and decide later variables only make the decision
between them. -/
theorem Makes.decision {s : Store} {atLow atHigh : (Nat → Bool) → Bool} {bound bound' : Nat → Prop}
    {low high : Nat × Store} {i : Nat} (hl : Makes s atLow bound low)
    (hh : Makes low.2 atHigh bound' high) (bl : bound (i + 1)) (bh : bound' (i + 1)) :
    Makes s (fun v => if v i then atHigh v else atLow v) (· ≤ i)
      ((make ⟨i, low.1, high.1⟩).run high.2) := by
  have made := make_makes hh.wellFormed (n := ⟨i, low.1, high.1⟩)
    (Nat.lt_of_lt_of_le hl.lt_size hh.extends_.size_le) hh.lt_size
    ((hh.extends_.from_iff hl.lt_size).2 (hl.from_ _ bl)) (hh.from_ _ bh)
  refine ⟨made.wellFormed, hl.extends_.trans (hh.extends_.trans made.extends_), made.lt_size,
    fun v => ?_, made.from_⟩
  rw [made.eval_eq, hh.eval_eq, hl.later hh.extends_]

/-! ## Remembered results -/

/-- The store in which a negation is remembered. -/
def rememberNegation (s : Store) (f r : Nat) : Store := { s with negated := s.negated.insert f r }

/-- The store in which the result of a connective is remembered. -/
def rememberCombination (s : Store) (key : Connective × Nat × Nat) (r : Nat) : Store :=
  { s with combined := s.combined.insert key r }

/-- A negation that is right may be remembered. -/
theorem WellFormed.rememberNegation {s : Store} (h : s.WellFormed) {f r : Nat} (hf : f < s.size)
    (hr : r < s.size) (he : ∀ v, s.eval v r = !s.eval v f) (hb : ∀ k, s.From k f → s.From k r) :
    (s.rememberNegation f r).WellFormed := by
  have known {g q : Nat} (hq : (s.rememberNegation f r).negated[g]? = some q) :
      f = g ∧ r = q ∨ s.negated[g]? = some q := by
    change (s.negated.insert f r)[g]? = _ at hq
    rw [Std.HashMap.getElem?_insert] at hq
    by_cases hg : f = g
    · simp [hg] at hq
      exact .inl ⟨hg, hq⟩
    · simp [hg] at hq
      exact .inr hq
  refine ⟨h.low_lt, h.high_lt, h.low_ne_high, h.from_low, h.from_high, h.unique_iff, ?_, ?_, ?_,
    h.combined_lt, h.combined_eval, h.combined_from⟩
  · intro g q hq
    rcases known hq with ⟨rfl, rfl⟩ | hq
    · exact ⟨hf, hr⟩
    · exact h.negated_lt hq
  · intro g q hq
    rcases known hq with ⟨rfl, rfl⟩ | hq
    · exact he
    · exact h.negated_eval hq
  · intro g q hq
    rcases known hq with ⟨rfl, rfl⟩ | hq
    · exact hb
    · exact h.negated_from hq

/-- A combination that is right may be remembered. -/
theorem WellFormed.rememberCombination {s : Store} (h : s.WellFormed) {c : Connective} {f g r : Nat}
    (hf : f < s.size) (hg : g < s.size) (hr : r < s.size)
    (he : ∀ v, s.eval v r = c.eval (s.eval v f) (s.eval v g))
    (hb : ∀ k, s.From k f → s.From k g → s.From k r) :
    (s.rememberCombination (c, f, g) r).WellFormed := by
  have known {c' : Connective} {f' g' q : Nat}
      (hq : (s.rememberCombination (c, f, g) r).combined[(c', f', g')]? = some q) :
      (c = c' ∧ f = f' ∧ g = g') ∧ r = q ∨ s.combined[(c', f', g')]? = some q := by
    change (s.combined.insert (c, f, g) r)[(c', f', g')]? = _ at hq
    rw [Std.HashMap.getElem?_insert] at hq
    by_cases hk : (c, f, g) = (c', f', g')
    · simp only [hk, BEq.rfl, if_true, Option.some.injEq] at hq
      simp only [Prod.mk.injEq] at hk
      exact .inl ⟨hk, hq⟩
    · simp only [beq_iff_eq, hk, if_false] at hq
      exact .inr hq
  refine ⟨h.low_lt, h.high_lt, h.low_ne_high, h.from_low, h.from_high, h.unique_iff, h.negated_lt,
    h.negated_eval, h.negated_from, ?_, ?_, ?_⟩
  · intro c' f' g' q hq
    rcases known hq with ⟨⟨rfl, rfl, rfl⟩, rfl⟩ | hq
    · exact ⟨hf, hg, hr⟩
    · exact h.combined_lt hq
  · intro c' f' g' q hq
    rcases known hq with ⟨⟨rfl, rfl, rfl⟩, rfl⟩ | hq
    · exact he
    · exact h.combined_eval hq
  · intro c' f' g' q hq
    rcases known hq with ⟨⟨rfl, rfl, rfl⟩, rfl⟩ | hq
    · exact hb
    · exact h.combined_from hq

/-- A negation that was made may be remembered. -/
theorem Makes.rememberNegation {s : Store} {f : Nat} (hf : f < s.size) {out : Nat × Store}
    (made : Makes s (fun v => !s.eval v f) (s.From · f) out) :
    Makes s (fun v => !s.eval v f) (s.From · f) (out.1, out.2.rememberNegation f out.1) := by
  have hx := made.extends_
  have remembered := made.wellFormed.rememberNegation (Nat.lt_of_lt_of_le hf hx.size_le) made.lt_size
    (fun v => by rw [made.eval_eq, hx.eval_eq v hf])
    (fun k hk => made.from_ k ((hx.from_iff hf).1 hk))
  exact ⟨remembered, hx, made.lt_size, made.eval_eq, made.from_⟩

/-- What is remembered under two operands in ascending order is their combination. -/
theorem WellFormed.makes_of_combined {s : Store} (h : s.WellFormed) {c : Connective} {f g r : Nat}
    (hr : s.combined[(c, min f g, max f g)]? = some r) :
    Makes s (fun v => c.eval (s.eval v f) (s.eval v g)) (fun k => s.From k f ∧ s.From k g)
      (r, s) := by
  rcases Nat.le_total f g with hle | hle
  · rw [Nat.min_eq_left hle, Nat.max_eq_right hle] at hr
    exact ⟨h, Extends.refl s, (h.combined_lt hr).2.2, h.combined_eval hr,
      fun k hk => h.combined_from hr k hk.1 hk.2⟩
  · rw [Nat.min_eq_right hle, Nat.max_eq_left hle] at hr
    refine ⟨h, Extends.refl s, (h.combined_lt hr).2.2, fun v => ?_,
      fun k hk => h.combined_from hr k hk.2 hk.1⟩
    rw [c.eval_comm]
    exact h.combined_eval hr v

/-- A combination that was made may be remembered under its operands in ascending order. -/
theorem Makes.rememberCombination {s : Store} {c : Connective} {f g : Nat} (hf : f < s.size)
    (hg : g < s.size) {out : Nat × Store}
    (made : Makes s (fun v => c.eval (s.eval v f) (s.eval v g)) (fun k => s.From k f ∧ s.From k g)
      out) :
    Makes s (fun v => c.eval (s.eval v f) (s.eval v g)) (fun k => s.From k f ∧ s.From k g)
      (out.1, out.2.rememberCombination (c, min f g, max f g) out.1) := by
  have hx := made.extends_
  have hf' := Nat.lt_of_lt_of_le hf hx.size_le
  have hg' := Nat.lt_of_lt_of_le hg hx.size_le
  have heval (v : Nat → Bool) :
      out.2.eval v out.1 = c.eval (out.2.eval v f) (out.2.eval v g) := by
    rw [made.eval_eq, hx.eval_eq v hf, hx.eval_eq v hg]
  have hfrom (k : Nat) (kf : out.2.From k f) (kg : out.2.From k g) : out.2.From k out.1 :=
    made.from_ k ⟨(hx.from_iff hf).1 kf, (hx.from_iff hg).1 kg⟩
  have remembered : (out.2.rememberCombination (c, min f g, max f g) out.1).WellFormed := by
    rcases Nat.le_total f g with hle | hle
    · rw [Nat.min_eq_left hle, Nat.max_eq_right hle]
      exact made.wellFormed.rememberCombination hf' hg' made.lt_size heval hfrom
    · rw [Nat.min_eq_right hle, Nat.max_eq_left hle]
      refine made.wellFormed.rememberCombination hg' hf' made.lt_size (fun v => ?_)
        fun k kg kf => hfrom k kf kg
      rw [c.eval_comm]
      exact heval v
  exact ⟨remembered, hx, made.lt_size, made.eval_eq, made.from_⟩

/-! ## Negation -/

/-- The last step of a negation: the decision between the negated parts is made and remembered. -/
def finishNegation (f : Nat) (n : Node) (low high : Nat) (s : Store) : Nat × Store :=
  let made := (make ⟨n.var, low, high⟩).run s
  (made.1, made.2.rememberNegation f made.1)

/-- One step of a negation: a constant, what is remembered, or a decision between negated parts. -/
theorem negateWithin_succ (fuel f : Nat) (s : Store) :
    (negateWithin (fuel + 1) f).run s =
      if f = falseRef then (trueRef, s)
      else if f = trueRef then (falseRef, s)
      else
        match s.negated[f]? with
        | some r => (r, s)
        | none =>
          let n := (s.node? f).getD default
          let low := (negateWithin fuel n.low).run s
          let high := (negateWithin fuel n.high).run low.2
          finishNegation f n low.1 high.1 high.2 := by
  by_cases hf : f = falseRef
  · simp only [negateWithin, hf, if_true]
    rfl
  by_cases ht : f = trueRef
  · simp only [negateWithin, ht, if_true]
    rfl
  simp only [negateWithin, hf, ht, if_false, bind_pure_comp, StateT.run_bind, StateT.run_get,
    pure_bind]
  cases hr : s.negated[f]? with
  | some r => rfl
  | none => rfl

/-- A negation makes the diagram of the negation. -/
theorem negateWithin_makes {fuel f : Nat} (hfuel : f < fuel) {s : Store} (h : s.WellFormed)
    (hf : f < s.size) :
    Makes s (fun v => !s.eval v f) (s.From · f) ((negateWithin fuel f).run s) := by
  induction fuel generalizing f s with
  | zero => omega
  | succ fuel ih =>
    have h2 : 2 ≤ s.size := by unfold size; omega
    rw [negateWithin_succ]
    by_cases h0 : f = falseRef
    · rw [if_pos h0]
      refine ⟨h, Extends.refl s, show 1 < s.size by omega, fun v => ?_,
        fun k _ => from_of_lt_two (show 1 < 2 by decide)⟩
      rw [h0, eval_trueRef, eval_falseRef]
      rfl
    by_cases h1 : f = trueRef
    · rw [if_neg h0, if_pos h1]
      refine ⟨h, Extends.refl s, show 0 < s.size by omega, fun v => ?_,
        fun k _ => from_of_lt_two (show 0 < 2 by decide)⟩
      rw [h1, eval_trueRef, eval_falseRef]
      rfl
    rw [if_neg h0, if_neg h1]
    cases hr : s.negated[f]? with
    | some r =>
      exact ⟨h, Extends.refl s, (h.negated_lt hr).2, h.negated_eval hr, h.negated_from hr⟩
    | none =>
      obtain ⟨n, hn⟩ := ((falseRef_or_trueRef_or_node hf).resolve_left h0).resolve_left h1
      simp only [hn, Option.getD_some]
      have hl := h.low_lt hn
      have hh := h.high_lt hn
      have hsize := h.high_lt_size hn
      have low := ih (by omega) h (h.low_lt_size hn)
      generalize (negateWithin fuel n.low).run s = lowOut at low
      -- the store has grown, but the other part is where it was
      have high := ih (f := n.high) (by omega) low.wellFormed
        (Nat.lt_of_lt_of_le hsize low.extends_.size_le)
      generalize (negateWithin fuel n.high).run lowOut.2 = highOut at high
      have made := low.decision high (h.from_low hn)
        ((low.extends_.from_iff hsize).2 (h.from_high hn))
      unfold finishNegation
      generalize (make ⟨n.var, lowOut.1, highOut.1⟩).run highOut.2 = out at made
      have heval (v : Nat → Bool) : out.2.eval v out.1 = !s.eval v f := by
        rw [made.eval_eq, low.extends_.eval_eq v hsize, h.eval_node hn]
        cases v n.var <;> rfl
      exact Makes.rememberNegation hf
        ⟨made.wellFormed, made.extends_, made.lt_size, heval, fun k hk => made.from_ k (hk n hn)⟩

/-- A negation makes the diagram of the negation. -/
theorem negate_makes {s : Store} (h : s.WellFormed) {f : Nat} (hf : f < s.size) :
    Makes s (fun v => !s.eval v f) (s.From · f) ((negate f).run s) :=
  negateWithin_makes (Nat.lt_succ_self f) h hf

/-! ## Connectives -/

/-- What a shortcut returns. -/
theorem shortcut_makes {s : Store} (h : s.WellFormed) {c : Connective} {f g r : Nat}
    (hf : f < s.size) (hg : g < s.size) (hr : c.shortcut? f g = some r) :
    Makes s (fun v => c.eval (s.eval v f) (s.eval v g)) (fun k => s.From k f ∧ s.From k g)
      (r, s) := by
  rw [c.shortcut?_eq] at hr
  split at hr
  case isTrue hsettled =>
    obtain rfl : c.absorbing = r := Option.some.inj hr
    have hsize : c.absorbing < s.size := Nat.lt_of_lt_of_le c.absorbing_lt_two (Nat.le_add_left 2 _)
    refine ⟨h, Extends.refl s, hsize, fun v => ?_, fun k _ => from_of_lt_two c.absorbing_lt_two⟩
    rcases hsettled with rfl | rfl
    · rw [c.eval_comm, c.eval_absorbing]
    · rw [c.eval_absorbing]
  split at hr
  case isTrue hneutral =>
    obtain rfl : g = r := Option.some.inj hr
    refine ⟨h, Extends.refl s, hg, fun v => ?_, fun k hk => hk.2⟩
    rw [hneutral, c.eval_comm, c.eval_neutral]
  split at hr
  case isTrue hneutral =>
    obtain rfl : f = r := Option.some.inj hr
    refine ⟨h, Extends.refl s, hf, fun v => ?_, fun k hk => hk.1⟩
    rw [hneutral, c.eval_neutral]
  split at hr
  case isTrue heq =>
    obtain rfl : f = r := Option.some.inj hr
    refine ⟨h, Extends.refl s, hf, fun v => ?_, fun k hk => hk.1⟩
    rw [← heq, c.eval_self]
  case isFalse => simp at hr

/-- Without a shortcut, both operands are decisions. -/
theorem two_le_of_shortcut? {c : Connective} {f g : Nat} (h : c.shortcut? f g = none) :
    2 ≤ f ∧ 2 ≤ g := by
  rw [c.shortcut?_eq] at h
  -- a constant is one of the two that a shortcut is taken for
  have hf := c.eq_absorbing_or_neutral (f := f)
  have hg := c.eq_absorbing_or_neutral (f := g)
  grind

/-- The last step of a connective: the decision between the combined parts is made and remembered. -/
def finishCombination (key : Connective × Nat × Nat) (v low high : Nat) (s : Store) : Nat × Store :=
  let made := (make ⟨v, low, high⟩).run s
  (made.1, made.2.rememberCombination key made.1)

/-- One step of a connective: a shortcut, what is remembered, or a decision between combined parts. -/
theorem combineWithin_succ (c : Connective) (fuel f g : Nat) (s : Store) :
    (combineWithin c (fuel + 1) f g).run s =
      match c.shortcut? f g with
      | some r => (r, s)
      | none =>
        match s.combined[(c, min f g, max f g)]? with
        | some r => (r, s)
        | none =>
          let m := (s.node? f).getD default
          let n := (s.node? g).getD default
          let v := min m.var n.var
          let low := (combineWithin c fuel (cofactors f m v).1 (cofactors g n v).1).run s
          let high := (combineWithin c fuel (cofactors f m v).2 (cofactors g n v).2).run low.2
          finishCombination (c, min f g, max f g) v low.1 high.1 high.2 := by
  simp only [combineWithin, bind_pure_comp]
  cases hs : c.shortcut? f g with
  | some r => rfl
  | none =>
    simp only [StateT.run_bind, StateT.run_get, pure_bind]
    cases hr : s.combined[(c, min f g, max f g)]? with
    | some r => rfl
    | none => rfl

/-- The parts of a decision `m` when `v` is its variable, and twice the decision itself when `v` comes
earlier. -/
theorem cofactors_spec {s : Store} (h : s.WellFormed) {f v : Nat} {m : Node}
    (hm : s.node? f = some m) (hv : v ≤ m.var) :
    ((cofactors f m v).1 < s.size ∧ s.From (v + 1) (cofactors f m v).1) ∧
      ((cofactors f m v).2 < s.size ∧ s.From (v + 1) (cofactors f m v).2) ∧
      ∀ w, s.eval w f =
        if w v then s.eval w (cofactors f m v).2 else s.eval w (cofactors f m v).1 := by
  unfold cofactors
  by_cases he : m.var = v
  · rw [if_pos he]
    subst he
    exact ⟨⟨h.low_lt_size hm, h.from_low hm⟩, ⟨h.high_lt_size hm, h.from_high hm⟩, h.eval_node hm⟩
  · rw [if_neg he]
    have hf : s.From (v + 1) f := fun n hn => by
      obtain rfl : m = n := Option.some.inj (hm.symm.trans hn)
      omega
    have hs := (lt_size_of_node? hm).2
    exact ⟨⟨hs, hf⟩, ⟨hs, hf⟩, fun w => (ite_self _).symm⟩

/-- Descending into the operands makes their sum smaller: one of them decides the variable. -/
theorem cofactors_lt {s : Store} (h : s.WellFormed) {f g : Nat} {m n : Node}
    (hm : s.node? f = some m) (hn : s.node? g = some n) :
    (cofactors f m (min m.var n.var)).1 + (cofactors g n (min m.var n.var)).1 < f + g ∧
      (cofactors f m (min m.var n.var)).2 + (cofactors g n (min m.var n.var)).2 < f + g := by
  have := h.low_lt hm
  have := h.high_lt hm
  have := h.low_lt hn
  have := h.high_lt hn
  unfold cofactors
  split <;> split <;> omega

/-- A connective makes the diagram of the combination. -/
theorem combineWithin_makes {c : Connective} {fuel f g : Nat} (hfuel : f + g < fuel) {s : Store}
    (h : s.WellFormed) (hf : f < s.size) (hg : g < s.size) :
    Makes s (fun v => c.eval (s.eval v f) (s.eval v g)) (fun k => s.From k f ∧ s.From k g)
      ((combineWithin c fuel f g).run s) := by
  induction fuel generalizing f g s with
  | zero => omega
  | succ fuel ih =>
    rw [combineWithin_succ]
    cases hs : c.shortcut? f g with
    | some r => exact shortcut_makes h hf hg hs
    | none =>
      obtain ⟨h2f, h2g⟩ := two_le_of_shortcut? hs
      obtain ⟨m, hm⟩ := exists_node? h2f hf
      obtain ⟨n, hn⟩ := exists_node? h2g hg
      cases hr : s.combined[(c, min f g, max f g)]? with
      | some r => exact h.makes_of_combined hr
      | none =>
        simp only [hm, hn, Option.getD_some]
        have hv := cofactors_lt h hm hn
        generalize hmin : min m.var n.var = v at hv ⊢
        obtain ⟨⟨fl, bfl⟩, ⟨fh, bfh⟩, ef⟩ := cofactors_spec h hm (v := v) (by omega)
        obtain ⟨⟨gl, bgl⟩, ⟨gh, bgh⟩, eg⟩ := cofactors_spec h hn (v := v) (by omega)
        have low := ih (by omega) h fl gl
        generalize (combineWithin c fuel (cofactors f m v).1 (cofactors g n v).1).run s = lowOut
          at low
        -- the store has grown, but the other cofactors are where they were
        have sl := low.extends_.size_le
        have high := ih (f := (cofactors f m v).2) (g := (cofactors g n v).2) (by omega)
          low.wellFormed (by omega) (by omega)
        generalize (combineWithin c fuel (cofactors f m v).2 (cofactors g n v).2).run lowOut.2 =
          highOut at high
        have made := low.decision high ⟨bfl, bgl⟩
          ⟨(low.extends_.from_iff fh).2 bfh, (low.extends_.from_iff gh).2 bgh⟩
        unfold finishCombination
        generalize (make ⟨v, lowOut.1, highOut.1⟩).run highOut.2 = out at made
        have heval (w : Nat → Bool) :
            out.2.eval w out.1 = c.eval (s.eval w f) (s.eval w g) := by
          rw [made.eval_eq, low.extends_.eval_eq w fh, low.extends_.eval_eq w gh, ef, eg]
          cases w v <;> rfl
        have hfrom (k : Nat) (hk : s.From k f ∧ s.From k g) : out.2.From k out.1 := by
          have := hk.1 m hm
          have := hk.2 n hn
          exact made.from_ k (show k ≤ v by omega)
        exact Makes.rememberCombination hf hg
          ⟨made.wellFormed, made.extends_, made.lt_size, heval, hfrom⟩

/-- A connective makes the diagram of the combination. -/
theorem combine_makes {s : Store} (h : s.WellFormed) (c : Connective) {f g : Nat} (hf : f < s.size)
    (hg : g < s.size) :
    Makes s (fun v => c.eval (s.eval v f) (s.eval v g)) (fun k => s.From k f ∧ s.From k g)
      ((combine c f g).run s) :=
  combineWithin_makes (Nat.lt_succ_self _) h hf hg

end Store

end TimedInference.Diagram
