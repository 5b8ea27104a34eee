import TimedInference.Proofs.Program.Integers
import TimedInference.Proofs.Syntax.Terms

/-!
# Texts of programs

A text is a program exactly when it is written by statements that resolve, and it is the program they
resolve to (`ofText_eq_ok_iff`).  So texts that are put together line by line give programs that are put
together clause by clause.
-/

namespace TimedInference

open Syntax Syntax.Resolving

variable {α : Type}

/-! ## Programs put together -/

namespace Program

theorem append_assoc (p q r : Program α) : p ++ q ++ r = p ++ (q ++ r) := by
  show (⟨p.clauses ++ q.clauses ++ r.clauses, p.queries ++ q.queries ++ r.queries⟩ : Program α) =
    ⟨p.clauses ++ (q.clauses ++ r.clauses), p.queries ++ (q.queries ++ r.queries)⟩
  rw [List.append_assoc, List.append_assoc]

end Program

namespace Syntax

variable [Probability α]

/-- Statements are resolved from the first to the last, each after the underscores before it. -/
theorem value?_resolveStatements_cons (s : Statement) (ss : List Statement) (count : Nat) :
    value? (resolveStatements (s :: ss) : Resolving (Program α)) count =
      (value? s.resolve count).bind fun r =>
        (value? (resolveStatements ss) r.2).map fun r' => (r.1 ++ r'.1, r'.2) := by
  rw [resolveStatements, value?_bind]
  congr 1
  funext r
  rw [value?_bind]
  cases value? (resolveStatements ss : Resolving (Program α)) r.2 <;> rfl

/-- Statements of two texts are resolved one text after the other. -/
theorem value?_resolveStatements_append (ss ss' : List Statement) (count : Nat) :
    value? (resolveStatements (ss ++ ss') : Resolving (Program α)) count =
      (value? (resolveStatements ss) count).bind fun r =>
        (value? (resolveStatements ss') r.2).map fun r' => (r.1 ++ r'.1, r'.2) := by
  induction ss generalizing count with
  | nil =>
    have hnil : value? (resolveStatements [] : Resolving (Program α)) count =
        some (Program.empty, count) := rfl
    rw [List.nil_append, hnil, Option.bind_some]
    cases value? (resolveStatements ss' : Resolving (Program α)) count <;> rfl
  | cons s ss ih =>
    rw [List.cons_append, value?_resolveStatements_cons, value?_resolveStatements_cons]
    cases value? (s.resolve : Resolving (Program α)) count with
    | none => rfl
    | some r =>
      rw [Option.bind_some, Option.bind_some, ih]
      cases value? (resolveStatements ss : Resolving (Program α)) r.2 with
      | none => rfl
      | some r' =>
        rw [Option.bind_some, Option.map_some, Option.bind_some]
        cases value? (resolveStatements ss' : Resolving (Program α)) r'.2 with
        | none => rfl
        | some r'' => simp only [Option.map_some, Program.append_assoc]

/-! ## Heads -/

/-- Only a compound stands for an atom. -/
theorem WrittenHead.exists_compound {h : WrittenHead} {count : Nat} {r : Term × Nat}
    (hr : value? h.resolve count = some r) : ∃ f ts, h.term = .compound f ts := by
  rw [value?_resolve, Option.filter_eq_some_iff] at hr
  obtain ⟨hr, hf⟩ := hr
  cases ht : h.term with
  | compound f ts => exact ⟨f, ts, rfl⟩
  | var x =>
    rw [ht, WrittenTerm.value?_resolve_var, Option.some.injEq] at hr
    subst hr
    split at hf <;> simp [Term.functor?] at hf
  | integer o negative ds =>
    rw [ht, WrittenTerm.value?_resolve_integer, Option.map_eq_some_iff] at hr
    obtain ⟨n, -, rfl⟩ := hr
    simp [Term.functor?] at hf

/-- A head that is resolved is a term that is resolved. -/
theorem WrittenHead.value?_term {h : WrittenHead} {count : Nat} {r : Term × Nat}
    (hr : value? h.resolve count = some r) : value? h.term.resolve count = some r := by
  rw [value?_resolve, Option.filter_eq_some_iff] at hr
  exact hr.1

/-- A statement that is resolved has a compound as its head. -/
theorem Statement.hasCompoundHead_of_value? {s : Statement} {count : Nat} {r : Program α × Nat}
    (hr : value? s.resolve count = some r) : s.HasCompoundHead := by
  cases s with
  | query t => trivial
  | chance p h =>
    rw [value?_resolve_chance, Option.bind_eq_some_iff] at hr
    obtain ⟨_, hh, -⟩ := hr
    exact WrittenHead.exists_compound hh
  | rule h body =>
    rw [value?_resolve_rule, Option.bind_eq_some_iff] at hr
    obtain ⟨_, hh, -⟩ := hr
    exact WrittenHead.exists_compound hh
  | fact h =>
    rw [value?_resolve_fact, Option.map_eq_some_iff] at hr
    obtain ⟨_, hh, -⟩ := hr
    exact WrittenHead.exists_compound hh

theorem hasCompoundHead_of_value? {ss : List Statement} {count : Nat} {r : Program α × Nat}
    (hr : value? (resolveStatements ss) count = some r) : ∀ s ∈ ss, s.HasCompoundHead := by
  induction ss generalizing count r with
  | nil => simp
  | cons s ss ih =>
    rw [value?_resolveStatements_cons, Option.bind_eq_some_iff] at hr
    obtain ⟨r', hs, hr⟩ := hr
    rw [Option.map_eq_some_iff] at hr
    obtain ⟨r'', hss, -⟩ := hr
    rw [List.forall_mem_cons]
    exact ⟨Statement.hasCompoundHead_of_value? hs, ih hss⟩

end Syntax

/-! ## What programs hold -/

/-- A clause that texts can hold: its terms are readable, and a probability lies between zero and one. -/
def Clause.Readable [Probability α] : Clause α → Prop
  | fact h => h.Readable
  | chance p h => Probability.inUnit p = true ∧ h.Readable
  | rule r => r.head.Readable ∧ ∀ l ∈ r.body, l.atom.Readable

/-- A program that texts can hold. -/
structure Program.Readable [Probability α] (p : Program α) : Prop where
  clauses : ∀ c ∈ p.clauses, c.Readable
  queries : ∀ q ∈ p.queries, q.Readable

namespace Syntax

/-- The literals of a formula's alternatives have readable atoms. -/
def Formula.Readable (f : Formula Term) : Prop :=
  ∀ body ∈ f.alternatives, ∀ l ∈ body, l.atom.Readable

/-- What holds of all atoms of the parts of a conjunction holds of all atoms of the conjunction. -/
theorem Formula.forall_atoms_every {P : Term → Prop} {fs : List (Formula Term)}
    (h : ∀ f ∈ fs, ∀ body ∈ f.alternatives, ∀ l ∈ body, P l.atom) :
    ∀ body ∈ (every fs).alternatives, ∀ l ∈ body, P l.atom := by
  rw [alternatives]
  induction fs with
  | nil => simp [combinations]
  | cons f fs ih =>
    rw [List.forall_mem_cons] at h
    simp only [combinations, List.mem_flatMap, List.mem_map]
    rintro body ⟨first, hfirst, rest, hrest, rfl⟩ l hl
    rcases List.mem_append.1 hl with hl | hl
    · exact h.1 first hfirst l hl
    · exact ih h.2 rest hrest l hl

/-- So it does for a disjunction. -/
theorem Formula.forall_atoms_some {P : Term → Prop} {fs : List (Formula Term)}
    (h : ∀ f ∈ fs, ∀ body ∈ f.alternatives, ∀ l ∈ body, P l.atom) :
    ∀ body ∈ (some fs).alternatives, ∀ l ∈ body, P l.atom := by
  rw [alternatives]
  induction fs with
  | nil => simp [allAlternatives]
  | cons f fs ih =>
    rw [List.forall_mem_cons] at h
    simp only [allAlternatives, List.mem_append]
    rintro body (hbody | hbody)
    · exact h.1 body hbody
    · exact ih h.2 body hbody

/-- A formula with one alternative of one literal is readable when the literal's atom is. -/
theorem Formula.readable_of_alternatives_eq {f : Formula Term} {l : Literal}
    (hf : f.alternatives = [[l]]) (hl : l.atom.Readable) : f.Readable := by
  intro body hbody k hk
  rw [hf, List.mem_singleton] at hbody
  rw [hbody, List.mem_singleton] at hk
  rwa [hk]

/-- What a body stands for has readable atoms. -/
theorem Formula.readable_of_value? {f : Formula WrittenTerm} (h : f.IsConjunct ∨ f.IsConjunction)
    {count : Nat} {r : Formula Term × Nat} (hr : value? f.resolve count = .some r) :
    r.1.Readable := by
  induction f generalizing count r with
  | holds t =>
    have ht : t.Lexical := h.resolve_right id
    rw [value?_resolve_holds, Option.map_eq_some_iff] at hr
    obtain ⟨u, hu, rfl⟩ := hr
    exact readable_of_alternatives_eq rfl (WrittenTerm.readable_of_value? ht hu)
  | fails t =>
    have ht : t.Lexical := h.resolve_right id
    rw [value?_resolve_fails, Option.map_eq_some_iff] at hr
    obtain ⟨u, hu, rfl⟩ := hr
    exact readable_of_alternatives_eq rfl (WrittenTerm.readable_of_value? ht hu)
  | every fs ih =>
    have hfs := areConjuncts_iff.1 (h.resolve_left id).2
    rw [value?_resolve_every, Option.map_eq_some_iff] at hr
    obtain ⟨u, hu, rfl⟩ := hr
    exact forall_atoms_every (resolvesAll.forall_mem
      (fun f hf count r hr => ih f hf (.inl (hfs f hf)) hr) hu)
  | some fs ih =>
    have hfs := areConjunctions_iff.1 (h.resolve_right id).2
    rw [value?_resolve_some, Option.map_eq_some_iff] at hr
    obtain ⟨u, hu, rfl⟩ := hr
    exact forall_atoms_some (resolvesAll.forall_mem
      (fun f hf count r hr => ih f hf (.inr (hfs f hf)) hr) hu)

variable [Probability α]

/-- What a statement stands for is readable. -/
theorem Statement.readable_of_value? {s : Statement} (h : s.Lexical) {count : Nat}
    {r : Program α × Nat} (hr : value? s.resolve count = some r) : r.1.Readable := by
  cases s with
  | query t =>
    rw [value?_resolve_query, Option.map_eq_some_iff] at hr
    obtain ⟨u, hu, rfl⟩ := hr
    exact ⟨by simp, List.forall_mem_singleton.2 (WrittenTerm.readable_of_value? h hu)⟩
  | chance p head =>
    rw [value?_resolve_chance, Option.bind_eq_some_iff] at hr
    obtain ⟨u, hu, hr⟩ := hr
    obtain ⟨q, hq, rfl⟩ := Option.map_eq_some_iff.1 hr
    have hhead := WrittenTerm.readable_of_value? h.2 (WrittenHead.value?_term hu)
    exact ⟨List.forall_mem_singleton.2 ⟨(Option.filter_eq_some_iff.1 hq).2, hhead⟩, by simp⟩
  | rule head body =>
    rw [value?_resolve_rule, Option.bind_eq_some_iff] at hr
    obtain ⟨u, hu, hr⟩ := hr
    obtain ⟨f, hf, rfl⟩ := Option.map_eq_some_iff.1 hr
    have hhead := WrittenTerm.readable_of_value? h.1 (WrittenHead.value?_term hu)
    have hbody : f.1.Readable := Formula.readable_of_value? (.inl h.2.2.isConjunct) hf
    refine ⟨fun c hc => ?_, by simp⟩
    obtain ⟨literals, hl, rfl⟩ := List.mem_map.1 hc
    exact ⟨hhead, hbody literals hl⟩
  | fact head =>
    rw [value?_resolve_fact, Option.map_eq_some_iff] at hr
    obtain ⟨u, hu, rfl⟩ := hr
    exact ⟨List.forall_mem_singleton.2 (WrittenTerm.readable_of_value? h.1 (WrittenHead.value?_term hu)),
      by simp⟩

/-- What statements are resolved to is a readable program. -/
theorem readable_of_value? {ss : List Statement} (h : ∀ s ∈ ss, s.Lexical) {count : Nat}
    {r : Program α × Nat} (hr : value? (resolveStatements ss) count = some r) : r.1.Readable := by
  induction ss generalizing count r with
  | nil =>
    obtain rfl : (Program.empty, count) = r := Option.some.inj hr
    exact ⟨by simp [Program.empty], by simp [Program.empty]⟩
  | cons s ss ih =>
    rw [List.forall_mem_cons] at h
    rw [value?_resolveStatements_cons, Option.bind_eq_some_iff] at hr
    obtain ⟨r', hs, hr⟩ := hr
    rw [Option.map_eq_some_iff] at hr
    obtain ⟨r'', hss, rfl⟩ := hr
    have h₁ := Statement.readable_of_value? h.1 hs
    have h₂ := ih h.2 hss
    refine ⟨fun c hc => ?_, fun q hq => ?_⟩
    · rcases List.mem_append.1 hc with hc | hc
      · exact h₁.clauses c hc
      · exact h₂.clauses c hc
    · rcases List.mem_append.1 hq with hq | hq
      · exact h₁.queries q hq
      · exact h₂.queries q hq

end Syntax

/-! ## Texts -/

/-- A text is a program exactly when statements write it that resolve to the program. -/
theorem Program.ofText_eq_ok_iff [Probability α] {text : String} {p : Program α} :
    Program.ofText text = .ok p ↔
      ∃ ss n, Writes text.toList ss ∧ value? (resolveStatements ss) 0 = some (p, n) := by
  unfold Program.ofText
  simp only
  constructor
  · intro h
    cases hs : readStatements text.toList with
    | error a => simp [hs] at h
    | ok ss =>
      rw [hs] at h
      cases hr : (resolveStatements ss : Resolving (Program α)).run 0 with
      | error fault => simp [hr] at h
      | ok r =>
        obtain ⟨q, n⟩ := r
        obtain rfl : q = p := by simpa [hr] using h
        refine ⟨ss, n, readStatements_sound hs, ?_⟩
        rw [value?, hr]
        rfl
  · rintro ⟨ss, n, hw, hv⟩
    -- the statements that are read may have other places, which does not change the program
    obtain ⟨ss', hs, he⟩ := readStatements_complete hw (hasCompoundHead_of_value? hv)
    rw [← value?_resolveStatements_congr he] at hv
    rw [hs]
    cases hr : (resolveStatements ss' : Resolving (Program α)).run 0 with
    | error fault => simp [value?, hr, Except.toOption] at hv
    | ok r =>
      obtain rfl : r = (p, n) := by simpa [value?, hr, Except.toOption] using hv
      simp only [hr]

/-- A program that is read from a text is readable. -/
theorem Program.readable_of_ofText [Probability α] {text : String} {p : Program α}
    (h : Program.ofText text = .ok p) : p.Readable := by
  obtain ⟨ss, n, hw, hv⟩ := ofText_eq_ok_iff.1 h
  exact readable_of_value? hw.2 hv

end TimedInference
