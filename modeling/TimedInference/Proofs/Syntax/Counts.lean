import TimedInference.Proofs.Syntax.Programs

/-!
# The count of anonymous variables

How many anonymous variables a text has before some statements only shows in the names that their own
anonymous variables get.  Whether the statements resolve does not depend on it, and neither do the ground
probabilistic facts among them (`exists_value?_of_value?`).
-/

namespace TimedInference.Syntax

open Resolving

/-! ## Terms -/

namespace WrittenTerm

/-- What is kept when a term is resolved from another count: its functor, and all of it if it is
ground. -/
def Keeps (t t' : Term) : Prop := t'.functor? = t.functor? ∧ (t.isGround = true → t' = t)

/-- Ground lists are kept if their members are. -/
theorem eq_of_forall₂_keeps {ts ts' : List Term} (h : List.Forall₂ Keeps ts ts')
    (hg : ts.all Term.isGround = true) : ts' = ts := by
  induction h with
  | nil => rfl
  | cons hkeeps _ ih =>
    rw [List.all_cons, Bool.and_eq_true] at hg
    rw [hkeeps.2 hg.1, ih hg.2]

/-- A term resolves from every count if it does from one. -/
theorem exists_resolve (w : WrittenTerm) (count count' : Nat) (r : Term × Nat)
    (h : value? w.resolve count = some r) :
    ∃ r', value? w.resolve count' = some r' ∧ Keeps r.1 r'.1 := by
  induction w generalizing count count' r with
  | var x =>
    refine ⟨_, value?_resolve_var x count', ?_⟩
    rw [value?_resolve_var, Option.some.injEq] at h
    subst h
    by_cases hx : x = "_"
    · rw [if_pos hx, if_pos hx]
      exact ⟨rfl, fun hg => by simp [Term.isGround] at hg⟩
    · rw [if_neg hx, if_neg hx]
      exact ⟨rfl, fun _ => rfl⟩
  | integer o negative ds =>
    rw [value?_resolve_integer, Option.map_eq_some_iff] at h
    obtain ⟨n, hn, rfl⟩ := h
    refine ⟨(.int n, count'), ?_, rfl, fun _ => rfl⟩
    rw [value?_resolve_integer, hn]
    rfl
  | compound f ws ih =>
    rw [value?_resolve_compound, Option.map_eq_some_iff] at h
    obtain ⟨r, h, rfl⟩ := h
    obtain ⟨r', h', hkeeps⟩ := resolvesAll.exists_forall₂ ih count' h
    refine ⟨(.compound f r'.1, r'.2), ?_, rfl, fun hg => ?_⟩
    · rw [value?_resolve_compound, h']
      rfl
    · rw [Term.isGround, Term.areGround_eq_all] at hg
      rw [eq_of_forall₂_keeps hkeeps hg]

end WrittenTerm

/-! ## Formulas -/

theorem Formula.exists_resolveAll {fs : List (Formula WrittenTerm)}
    (ih : ∀ f ∈ fs, ∀ count count' r, value? f.resolve count = .some r →
      ∃ r', value? f.resolve count' = .some r')
    {count : Nat} (count' : Nat) {r : List (Formula Term) × Nat}
    (h : value? (resolveAll fs) count = .some r) : ∃ r', value? (resolveAll fs) count' = .some r' := by
  obtain ⟨r', hr', -⟩ := resolvesAll.exists_forall₂ (R := fun _ _ => True)
    (fun f hf count count' r hr => (ih f hf count count' r hr).imp fun _ hr' => ⟨hr', trivial⟩) count' h
  exact ⟨r', hr'⟩

/-- A formula resolves from every count if it does from one. -/
theorem Formula.exists_resolve (f : Formula WrittenTerm) (count count' : Nat) (r : Formula Term × Nat)
    (h : value? f.resolve count = .some r) : ∃ r', value? f.resolve count' = .some r' := by
  induction f generalizing count count' r with
  | holds w =>
    rw [value?_resolve_holds, Option.map_eq_some_iff] at h
    obtain ⟨t, ht, -⟩ := h
    obtain ⟨t', ht', -⟩ := w.exists_resolve count count' t ht
    exact ⟨_, by rw [value?_resolve_holds, ht', Option.map_some]⟩
  | fails w =>
    rw [value?_resolve_fails, Option.map_eq_some_iff] at h
    obtain ⟨t, ht, -⟩ := h
    obtain ⟨t', ht', -⟩ := w.exists_resolve count count' t ht
    exact ⟨_, by rw [value?_resolve_fails, ht', Option.map_some]⟩
  | every fs ih =>
    rw [value?_resolve_every, Option.map_eq_some_iff] at h
    obtain ⟨gs, hgs, -⟩ := h
    obtain ⟨gs', hgs'⟩ := exists_resolveAll ih count' hgs
    exact ⟨_, by rw [value?_resolve_every, hgs', Option.map_some]⟩
  | some fs ih =>
    rw [value?_resolve_some, Option.map_eq_some_iff] at h
    obtain ⟨gs, hgs, -⟩ := h
    obtain ⟨gs', hgs'⟩ := exists_resolveAll ih count' hgs
    exact ⟨_, by rw [value?_resolve_some, hgs', Option.map_some]⟩

/-! ## Statements -/

theorem WrittenHead.exists_resolve {h : WrittenHead} {count : Nat} (count' : Nat) {r : Term × Nat}
    (hr : value? h.resolve count = some r) :
    ∃ r', value? h.resolve count' = some r' ∧ WrittenTerm.Keeps r.1 r'.1 := by
  rw [value?_resolve, Option.filter_eq_some_iff] at hr
  obtain ⟨r', hr', hkeeps⟩ := h.term.exists_resolve count count' r hr.1
  refine ⟨r', ?_, hkeeps⟩
  rw [value?_resolve, hr']
  refine Option.filter_eq_some_iff.2 ⟨rfl, ?_⟩
  rw [hkeeps.1]
  exact hr.2

variable {α : Type} [Probability α]

/-- A statement resolves from every count if it does from one, to the same ground probabilistic facts. -/
theorem Statement.exists_resolve {s : Statement} {count : Nat} (count' : Nat) {r : Program α × Nat}
    (h : value? s.resolve count = some r) :
    ∃ r' : Program α × Nat, value? s.resolve count' = some r' ∧
      ∀ p a, a.isGround = true → Clause.chance p a ∈ r.1.clauses →
        Clause.chance p a ∈ r'.1.clauses := by
  cases s with
  | query w =>
    rw [value?_resolve_query, Option.map_eq_some_iff] at h
    obtain ⟨t, ht, rfl⟩ := h
    obtain ⟨t', ht', -⟩ := w.exists_resolve count count' t ht
    refine ⟨_, by rw [value?_resolve_query, ht', Option.map_some], ?_⟩
    simp
  | chance written head =>
    rw [value?_resolve_chance, Option.bind_eq_some_iff] at h
    obtain ⟨t, ht, h⟩ := h
    obtain ⟨q, hq, rfl⟩ := Option.map_eq_some_iff.1 h
    obtain ⟨t', ht', hkeeps⟩ := WrittenHead.exists_resolve count' ht
    refine ⟨_, by rw [value?_resolve_chance, ht', Option.bind_some, hq, Option.map_some],
      fun p a hg ha => ?_⟩
    -- a ground head is the same atom from either count
    obtain ⟨rfl, rfl⟩ : p = q ∧ a = t.1 := by simpa using ha
    rw [hkeeps.2 hg]
    exact List.mem_cons_self
  | rule head body =>
    rw [value?_resolve_rule, Option.bind_eq_some_iff] at h
    obtain ⟨t, ht, h⟩ := h
    obtain ⟨f, hf, rfl⟩ := Option.map_eq_some_iff.1 h
    obtain ⟨t', ht', -⟩ := WrittenHead.exists_resolve count' ht
    obtain ⟨f', hf'⟩ := body.exists_resolve t.2 t'.2 f hf
    refine ⟨_, by rw [value?_resolve_rule, ht', Option.bind_some, hf', Option.map_some], ?_⟩
    intro p a _ ha
    simp at ha
  | fact head =>
    rw [value?_resolve_fact, Option.map_eq_some_iff] at h
    obtain ⟨t, ht, rfl⟩ := h
    obtain ⟨t', ht', -⟩ := WrittenHead.exists_resolve count' ht
    refine ⟨_, by rw [value?_resolve_fact, ht', Option.map_some], ?_⟩
    intro p a _ ha
    simp at ha

/-- Statements resolve from every count if they do from one, to the same ground probabilistic facts. -/
theorem exists_value?_of_value? {ss : List Statement} {count : Nat} (count' : Nat)
    {r : Program α × Nat} (h : value? (resolveStatements ss) count = some r) :
    ∃ r' : Program α × Nat, value? (resolveStatements ss) count' = some r' ∧
      ∀ p a, a.isGround = true → Clause.chance p a ∈ r.1.clauses →
        Clause.chance p a ∈ r'.1.clauses := by
  induction ss generalizing count count' r with
  | nil =>
    obtain rfl : (Program.empty, count) = r := Option.some.inj h
    exact ⟨(Program.empty, count'), rfl, fun p a _ ha => ha⟩
  | cons s ss ih =>
    rw [value?_resolveStatements_cons, Option.bind_eq_some_iff] at h
    obtain ⟨r₁, h₁, h⟩ := h
    obtain ⟨r₂, h₂, rfl⟩ := Option.map_eq_some_iff.1 h
    obtain ⟨r₁', h₁', hchance₁⟩ := Statement.exists_resolve count' h₁
    obtain ⟨r₂', h₂', hchance₂⟩ := ih r₁'.2 h₂
    refine ⟨(r₁'.1 ++ r₂'.1, r₂'.2), ?_, fun p a hg ha => ?_⟩
    · rw [value?_resolveStatements_cons, h₁', Option.bind_some, h₂']
      rfl
    · rw [Program.clauses_append, List.mem_append] at ha ⊢
      exact ha.imp (hchance₁ p a hg) (hchance₂ p a hg)

end TimedInference.Syntax
