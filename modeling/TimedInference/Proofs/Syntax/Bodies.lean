import TimedInference.Number.Rational
import TimedInference.Proofs.Syntax.Meaning

/-!
# Bodies and their alternatives

The body of a rule nests conjunctions and disjunctions, and the rule stands for one clause for each way of
choosing a part of every disjunction that is met (`Formula.Chooses`).  Listed with the numbers of the chosen
parts (`Formula.choices`), these ways come in lexicographic order, and without the numbers they are the
alternatives of the body.  So the clauses of a rule have together the meaning of its body, and each of them
has its literals as the body has them, in the same order and with the same signs (`Formula.Splits`,
`Program.rules_split`).
-/

namespace TimedInference

open Syntax

namespace Syntax

/-! ## Paths -/

/-- At the first place where two paths differ, the first one takes an earlier part. -/
def Precedes (p q : List Nat) : Prop :=
  ∃ common m n s t, p = common ++ m :: s ∧ q = common ++ n :: t ∧ m < n

/-- Paths are compared at their first choice, and after equal beginnings at what follows them. -/
theorem precedes_cons {m n : Nat} (h : m < n) (s t : List Nat) : Precedes (m :: s) (n :: t) :=
  ⟨[], m, n, s, t, rfl, rfl, h⟩

namespace Precedes

variable {p q : List Nat}

/-- Paths that differ keep their order, however they go on. -/
theorem append (h : Precedes p q) (s t : List Nat) : Precedes (p ++ s) (q ++ t) := by
  obtain ⟨common, m, n, s', t', rfl, rfl, hmn⟩ := h
  exact ⟨common, m, n, s' ++ s, t' ++ t, by simp, by simp, hmn⟩

theorem append_left (h : Precedes p q) (front : List Nat) : Precedes (front ++ p) (front ++ q) := by
  obtain ⟨common, m, n, s, t, rfl, rfl, hmn⟩ := h
  exact ⟨front ++ common, m, n, s, t, by simp, by simp, hmn⟩

/-- The order of paths is lexicographic. -/
theorem lt (h : Precedes p q) : p < q := by
  obtain ⟨common, m, n, s, t, rfl, rfl, hmn⟩ := h
  exact List.append_left_lt (List.cons_lt_cons_iff.2 (.inl hmn))

end Precedes

namespace Formula

/-! ## Truth -/

mutual

/-- The formula is true when its literals are true as given. -/
def IsTrue (v : Literal → Prop) : Formula Term → Prop
  | holds a => v ⟨a, true⟩
  | fails a => v ⟨a, false⟩
  | every fs => AllTrue v fs
  | some fs => AnyTrue v fs

/-- All formulas are true. -/
def AllTrue (v : Literal → Prop) : List (Formula Term) → Prop
  | [] => True
  | f :: fs => f.IsTrue v ∧ AllTrue v fs

/-- One of the formulas is true. -/
def AnyTrue (v : Literal → Prop) : List (Formula Term) → Prop
  | [] => False
  | f :: fs => f.IsTrue v ∨ AnyTrue v fs

end

/-- A formula is true when all literals of one of its alternatives are. -/
theorem isTrue_iff (v : Literal → Prop) (f : Formula Term) :
    f.IsTrue v ↔ ∃ body ∈ f.alternatives, ∀ l ∈ body, v l := by
  induction f with
  | holds a => simp [IsTrue, alternatives]
  | fails a => simp [IsTrue, alternatives]
  | every fs ih =>
    -- alternatives of all parts are combined, so each part is true by the one that was chosen for it
    rw [IsTrue, alternatives]
    induction fs with
    | nil => simp [AllTrue, combinations]
    | cons f fs ihs =>
      rw [List.forall_mem_cons] at ih
      rw [AllTrue, combinations, ih.1, ihs ih.2]
      simp only [List.mem_flatMap, List.mem_map]
      constructor
      · rintro ⟨⟨first, hfirst, hv⟩, rest, hrest, hv'⟩
        refine ⟨first ++ rest, ⟨first, hfirst, rest, hrest, rfl⟩, fun l hl => ?_⟩
        exact (List.mem_append.1 hl).elim (hv l) (hv' l)
      · rintro ⟨_, ⟨first, hfirst, rest, hrest, rfl⟩, hv⟩
        rw [List.forall_mem_append] at hv
        exact ⟨⟨first, hfirst, hv.1⟩, rest, hrest, hv.2⟩
  | some fs ih =>
    rw [IsTrue, alternatives]
    induction fs with
    | nil => simp [AnyTrue, allAlternatives]
    | cons f fs ihs =>
      rw [List.forall_mem_cons] at ih
      rw [AnyTrue, allAlternatives, ih.1, ihs ih.2]
      simp only [List.mem_append]
      constructor
      · rintro (⟨body, hbody, hv⟩ | ⟨body, hbody, hv⟩)
        · exact ⟨body, .inl hbody, hv⟩
        · exact ⟨body, .inr hbody, hv⟩
      · rintro ⟨body, hbody | hbody, hv⟩
        · exact .inl ⟨body, hbody, hv⟩
        · exact .inr ⟨body, hbody, hv⟩

/-! ## Literals -/

mutual

/-- The literals of a formula, from left to right. -/
def literals : Formula Term → List Literal
  | holds a => [⟨a, true⟩]
  | fails a => [⟨a, false⟩]
  | every fs => allLiterals fs
  | some fs => allLiterals fs

/-- The literals of formulas, from left to right. -/
def allLiterals : List (Formula Term) → List Literal
  | [] => []
  | f :: fs => f.literals ++ allLiterals fs

end

/-- The literals of an alternative are in the order of the formula. -/
theorem sublist_literals (f : Formula Term) : ∀ body ∈ f.alternatives, body.Sublist f.literals := by
  induction f with
  | holds a => simp [alternatives, literals]
  | fails a => simp [alternatives, literals]
  | every fs ih =>
    rw [alternatives, literals]
    induction fs with
    | nil => simp [combinations]
    | cons f fs ihs =>
      rw [List.forall_mem_cons] at ih
      intro body hbody
      rw [combinations, List.mem_flatMap] at hbody
      obtain ⟨first, hfirst, hbody⟩ := hbody
      obtain ⟨rest, hrest, rfl⟩ := List.mem_map.1 hbody
      exact (ih.1 first hfirst).append (ihs ih.2 rest hrest)
  | some fs ih =>
    rw [alternatives, literals]
    induction fs with
    | nil => simp [allAlternatives]
    | cons f fs ihs =>
      rw [List.forall_mem_cons] at ih
      intro body hbody
      rw [allLiterals]
      rcases List.mem_append.1 hbody with hbody | hbody
      · exact (ih.1 body hbody).trans (List.sublist_append_left _ _)
      · exact (ihs ih.2 body hbody).trans (List.sublist_append_right _ _)

/-! ## Choices -/

mutual

/-- Literals that are left when one part is chosen in every disjunction that is met; the path holds the
numbers of the chosen parts, from left to right. -/
inductive Chooses : Formula Term → List Nat → List Literal → Prop where
  | holds (a : Term) : Chooses (.holds a) [] [⟨a, true⟩]
  | fails (a : Term) : Chooses (.fails a) [] [⟨a, false⟩]
  | every {fs : List (Formula Term)} {path : List Nat} {body : List Literal}
      (h : ChoosesAll fs path body) : Chooses (.every fs) path body
  | some {fs : List (Formula Term)} {i : Nat} {f : Formula Term} {path : List Nat}
      {body : List Literal} (hf : fs[i]? = Option.some f) (h : Chooses f path body) :
      Chooses (.some fs) (i :: path) body

/-- Literals that are left of all parts of a conjunction. -/
inductive ChoosesAll : List (Formula Term) → List Nat → List Literal → Prop where
  | nil : ChoosesAll [] [] []
  | cons {f : Formula Term} {fs : List (Formula Term)} {path path' : List Nat}
      {body body' : List Literal} (h : Chooses f path body) (hs : ChoosesAll fs path' body') :
      ChoosesAll (f :: fs) (path ++ path') (body ++ body')

end

mutual

/-- The alternatives of a formula with their paths. -/
def choices : Formula Term → List (List Nat × List Literal)
  | holds a => [([], [⟨a, true⟩])]
  | fails a => [([], [⟨a, false⟩])]
  | every fs => combinedChoices fs
  | some fs => numberedChoices 0 fs

/-- One choice for each part, in every possible combination. -/
def combinedChoices : List (Formula Term) → List (List Nat × List Literal)
  | [] => [([], [])]
  | f :: fs => f.choices.flatMap fun c => (combinedChoices fs).map fun d => (c.1 ++ d.1, c.2 ++ d.2)

/-- The choices of all parts, each after the number of its part. -/
def numberedChoices (i : Nat) : List (Formula Term) → List (List Nat × List Literal)
  | [] => []
  | f :: fs => f.choices.map (fun c => (i :: c.1, c.2)) ++ numberedChoices (i + 1) fs

end

/-- Without their paths the choices are the alternatives. -/
theorem map_choices (f : Formula Term) : f.choices.map (·.2) = f.alternatives := by
  induction f with
  | holds a => rfl
  | fails a => rfl
  | every fs ih =>
    rw [choices, alternatives]
    induction fs with
    | nil => rfl
    | cons f fs ihs =>
      rw [List.forall_mem_cons] at ih
      rw [combinedChoices, combinations, ← ih.1, ← ihs ih.2, List.map_flatMap, List.flatMap_map]
      simp only [List.map_map, Function.comp_def]
  | some fs ih =>
    rw [choices, alternatives]
    -- the parts that are left are numbered from where the first ones end
    generalize 0 = i
    induction fs generalizing i with
    | nil => rfl
    | cons f fs ihs =>
      rw [List.forall_mem_cons] at ih
      rw [numberedChoices, allAlternatives, List.map_append, List.map_map, ← ih.1, ihs ih.2]
      rfl

/-- The choices of a conjunction are made in each of its parts. -/
theorem mem_combinedChoices {fs : List (Formula Term)}
    (h : ∀ f ∈ fs, ∀ path body, (path, body) ∈ f.choices ↔ f.Chooses path body)
    {path : List Nat} {body : List Literal} :
    (path, body) ∈ combinedChoices fs ↔ ChoosesAll fs path body := by
  induction fs generalizing path body with
  | nil =>
    simp only [combinedChoices, List.mem_singleton, Prod.mk.injEq]
    constructor
    · rintro ⟨rfl, rfl⟩
      exact .nil
    · rintro ⟨⟩
      exact ⟨rfl, rfl⟩
  | cons f fs ih =>
    rw [List.forall_mem_cons] at h
    simp only [combinedChoices, List.mem_flatMap, List.mem_map, Prod.mk.injEq]
    constructor
    · rintro ⟨c, hc, d, hd, rfl, rfl⟩
      exact .cons ((h.1 _ _).1 hc) ((ih h.2).1 hd)
    · intro hc
      cases hc with
      | cons hf hfs => exact ⟨_, (h.1 _ _).2 hf, _, (ih h.2).2 hfs, rfl, rfl⟩

/-- The choices of a disjunction are made in one of its parts, whose number comes first. -/
theorem mem_numberedChoices {fs : List (Formula Term)}
    (h : ∀ f ∈ fs, ∀ path body, (path, body) ∈ f.choices ↔ f.Chooses path body) {i : Nat}
    {path : List Nat} {body : List Literal} :
    (path, body) ∈ numberedChoices i fs ↔
      ∃ j f rest, fs[j]? = Option.some f ∧ path = (i + j) :: rest ∧ f.Chooses rest body := by
  induction fs generalizing i with
  | nil => simp [numberedChoices]
  | cons f fs ih =>
    rw [List.forall_mem_cons] at h
    rw [numberedChoices, List.mem_append, ih h.2]
    constructor
    · rintro (hf | ⟨j, g, rest, hg, rfl, hrest⟩)
      · obtain ⟨c, hc, he⟩ := List.mem_map.1 hf
        rw [Prod.mk.injEq] at he
        obtain ⟨rfl, rfl⟩ := he
        exact ⟨0, f, c.1, rfl, rfl, (h.1 _ _).1 hc⟩
      · exact ⟨j + 1, g, rest, hg, by rw [Nat.add_right_comm, Nat.add_assoc], hrest⟩
    · rintro ⟨j, g, rest, hg, rfl, hrest⟩
      cases j with
      | zero =>
        obtain rfl := Option.some.inj hg
        exact .inl (List.mem_map.2 ⟨(rest, body), (h.1 _ _).2 hrest, rfl⟩)
      | succ j => exact .inr ⟨j, g, rest, hg, by rw [Nat.add_right_comm, Nat.add_assoc], hrest⟩

/-- The choices are what can be chosen. -/
theorem mem_choices (f : Formula Term) (path : List Nat) (body : List Literal) :
    (path, body) ∈ f.choices ↔ f.Chooses path body := by
  induction f generalizing path body with
  | holds a =>
    rw [choices, List.mem_singleton, Prod.mk.injEq]
    constructor
    · rintro ⟨rfl, rfl⟩
      exact .holds a
    · rintro ⟨⟩
      exact ⟨rfl, rfl⟩
  | fails a =>
    rw [choices, List.mem_singleton, Prod.mk.injEq]
    constructor
    · rintro ⟨rfl, rfl⟩
      exact .fails a
    · rintro ⟨⟩
      exact ⟨rfl, rfl⟩
  | every fs ih =>
    rw [choices, mem_combinedChoices ih]
    constructor
    · exact .every
    · intro hc
      cases hc with
      | every h => exact h
  | some fs ih =>
    rw [choices, mem_numberedChoices ih]
    constructor
    · rintro ⟨j, f, rest, hf, rfl, hrest⟩
      rw [Nat.zero_add]
      exact .some hf hrest
    · intro hc
      cases hc with
      | some hf hrest => exact ⟨_, _, _, hf, by rw [Nat.zero_add], hrest⟩

/-- The first number of a path is that of a part. -/
theorem exists_cons_of_mem_numberedChoices {fs : List (Formula Term)} {i : Nat}
    {c : List Nat × List Literal} (h : c ∈ numberedChoices i fs) : ∃ j rest, i ≤ j ∧ c.1 = j :: rest := by
  induction fs generalizing i with
  | nil => simp [numberedChoices] at h
  | cons f fs ih =>
    rcases List.mem_append.1 h with h | h
    · obtain ⟨d, -, rfl⟩ := List.mem_map.1 h
      exact ⟨i, d.1, Nat.le_refl i, rfl⟩
    · obtain ⟨j, rest, hj, hc⟩ := ih h
      exact ⟨j, rest, Nat.le_of_succ_le hj, hc⟩

/-- The choices are in the order of their paths. -/
theorem pairwise_choices (f : Formula Term) : f.choices.Pairwise fun c d => Precedes c.1 d.1 := by
  induction f with
  | holds a => exact List.pairwise_singleton _ _
  | fails a => exact List.pairwise_singleton _ _
  | every fs ih =>
    rw [choices]
    induction fs with
    | nil => exact List.pairwise_singleton _ _
    | cons f fs ihs =>
      rw [List.forall_mem_cons] at ih
      rw [combinedChoices, List.pairwise_flatMap]
      constructor
      · -- after the same choice in the first part, the others decide
        intro c _
        rw [List.pairwise_map]
        exact (ihs ih.2).imp fun h => h.append_left c.1
      · -- an earlier choice in the first part comes first, whatever is chosen after it
        refine ih.1.imp fun h x hx y hy => ?_
        obtain ⟨d, -, rfl⟩ := List.mem_map.1 hx
        obtain ⟨e, -, rfl⟩ := List.mem_map.1 hy
        exact h.append d.1 e.1
  | some fs ih =>
    rw [choices]
    generalize 0 = i
    induction fs generalizing i with
    | nil => exact List.Pairwise.nil
    | cons f fs ihs =>
      rw [List.forall_mem_cons] at ih
      rw [numberedChoices, List.pairwise_append]
      refine ⟨?_, ihs ih.2 (i + 1), ?_⟩
      · rw [List.pairwise_map]
        exact ih.1.imp fun h => h.append_left [i]
      · intro x hx y hy
        obtain ⟨c, -, rfl⟩ := List.mem_map.1 hx
        obtain ⟨j, rest, hj, hy⟩ := exists_cons_of_mem_numberedChoices hy
        rw [hy]
        exact precedes_cons hj c.1 rest

/-! ## Splitting -/

/-- What a formula is split into: bodies that have together its meaning, each with literals of the formula in
their order, one body for each choice of parts and in the lexicographic order of the choices. -/
structure Splits (f : Formula Term) (bodies : List (List Literal)) : Prop where
  isTrue_iff : ∀ v : Literal → Prop, f.IsTrue v ↔ ∃ body ∈ bodies, ∀ l ∈ body, v l
  sublist : ∀ body ∈ bodies, body.Sublist f.literals
  exists_choices : ∃ chosen : List (List Nat × List Literal), chosen.map (·.2) = bodies ∧
    (∀ path body, (path, body) ∈ chosen ↔ f.Chooses path body) ∧
    chosen.Pairwise fun c d => c.1 < d.1

theorem splits_alternatives (f : Formula Term) : f.Splits f.alternatives where
  isTrue_iff v := f.isTrue_iff v
  sublist := f.sublist_literals
  exists_choices := ⟨f.choices, f.map_choices, f.mem_choices, f.pairwise_choices.imp Precedes.lt⟩

end Formula

end Syntax

/-- Every rule of a text stands for clauses with its head, one after the other, whose bodies are what its body
is split into. -/
theorem Program.rules_split {α : Type} [Probability α] {text : String} {p : Program α}
    (hp : Program.ofText text = .ok p) :
    ∃ ss, Writes text.toList ss ∧ programOf 0 ss = p ∧
      ∀ before h body after, ss = before ++ .rule h body :: after → ∃ count bodies later,
        count = bareCount (before.flatMap Statement.tokens) ∧
        p.clauses = (programOf 0 before : Program α).clauses ++
          (bodies.map fun literals => .rule ⟨h.term.value count, literals⟩) ++ later ∧
        (body.value (count + bareCount h.term.tokens)).Splits bodies := by
  obtain ⟨ss, hw, -, rfl⟩ := exists_writes_of_ofText hp
  refine ⟨ss, hw, rfl, ?_⟩
  rintro before h body after rfl
  refine ⟨_, _, (programOf (bareCount (before.flatMap Statement.tokens) +
    bareCount (Statement.rule h body).tokens) after : Program α).clauses, rfl, ?_,
    Formula.splits_alternatives _⟩
  rw [programOf_append, programOf, clauses_append, clauses_append, Nat.zero_add, ← List.append_assoc]
  rfl

/-- Winning takes heads, one of two sides, and no loss. -/
def Program.grouped : Program Rat where
  clauses := [
    .rule ⟨.compound "win" [.var "T"], [⟨.compound "heads" [.var "T"], true⟩,
      ⟨.compound "left" [.var "_G1"], true⟩, ⟨.compound "lost" [], false⟩]⟩,
    .rule ⟨.compound "win" [.var "T"], [⟨.compound "heads" [.var "T"], true⟩,
      ⟨.compound "right" [], false⟩, ⟨.compound "lost" [], false⟩]⟩]
  queries := []

theorem Program.rules_split_grouped :
    ofText "win(T) :- heads(T), (left(_) ; \\+ right), \\+ lost." = .ok grouped ∧
      ∃ ss, Writes "win(T) :- heads(T), (left(_) ; \\+ right), \\+ lost.".toList ss ∧
        programOf 0 ss = grouped ∧
        ∀ before h body after, ss = before ++ .rule h body :: after →
          ∃ count bodies, (body.value count).Splits bodies ∧
            ∀ literals ∈ bodies, ∃ head, .rule ⟨head, literals⟩ ∈ grouped.clauses := by
  have hp : ofText "win(T) :- heads(T), (left(_) ; \\+ right), \\+ lost." = .ok grouped := by
    decide +kernel
  obtain ⟨ss, hw, hvalue, hsplit⟩ := rules_split hp
  refine ⟨hp, ss, hw, hvalue, ?_⟩
  intro before h body after hss
  obtain ⟨count, bodies, later, -, hclauses, hbodies⟩ := hsplit before h body after hss
  refine ⟨_, bodies, hbodies, ?_⟩
  intro literals hliterals
  refine ⟨h.term.value count, ?_⟩
  rw [hclauses, List.append_assoc, List.mem_append, List.mem_append, List.mem_map]
  exact .inr (.inl ⟨literals, hliterals, rfl⟩)

end TimedInference
