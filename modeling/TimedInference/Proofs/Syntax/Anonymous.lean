import Mathlib.Algebra.Order.BigOperators.Group.List
import Mathlib.Algebra.Order.Ring.Nat
import Mathlib.Logic.Function.Basic
import TimedInference.Number.Rational
import TimedInference.Proofs.Grounding.Renaming
import TimedInference.Proofs.Syntax.Meaning

/-!
# Anonymous variables

The bare underscore number `k` of a text becomes the variable `_Gk` (`anonymous`), a name that a text can also
write.  So different underscores give different variables, but an underscore can give a variable that the
same clause has by name (`Program.anonymous_captured`).  To say when it does not, every underscore is replaced
by a name that the text does not use (`Statement.fill`): the program of the text is that of the replaced one
with these names turned into those of anonymous variables (`programOf_fill`).  A clause whose own names are
none of its anonymous variables keeps its variables apart, and then its body admits the same bindings
(`Program.anonymous_fresh`).
-/

namespace TimedInference

open Syntax

namespace Syntax

/-! ## Names -/

/-- The name that the bare underscore with a number gets. -/
def anonymous (k : Nat) : String := "_G" ++ toString k

/-- Different underscores get different names. -/
theorem anonymous_injective : Function.Injective anonymous := by
  intro j k h
  have hdigits := congrArg String.toList h
  simp only [anonymous, String.toList_append, List.append_cancel_left_eq] at hdigits
  have hj : (toString j).toList = Nat.toDigits 10 j := Nat.toList_repr
  have hk : (toString k).toList = Nat.toDigits 10 k := Nat.toList_repr
  rw [hj, hk] at hdigits
  exact toDigits_inj.1 hdigits

/-- Names turned into those of anonymous variables; other names stay. -/
noncomputable def unname (ν : Nat → String) : String → String := Function.extend ν anonymous id

/-- The name that was put in an underscore's place goes back to the underscore's. -/
theorem unname_apply {ν : Nat → String} (h : Function.Injective ν) (k : Nat) :
    unname ν (ν k) = anonymous k :=
  h.extend_apply anonymous id k

/-- Other names stay. -/
theorem unname_of_ne {ν : Nat → String} {x : String} (h : ∀ k, ν k ≠ x) : unname ν x = x :=
  Function.extend_apply' anonymous id x fun ⟨k, hk⟩ => h k hk

/-! ## Terms -/

namespace WrittenTerm

mutual

/-- The term with names in place of its bare underscores. -/
def fill (ν : Nat → String) (count : Nat) : WrittenTerm → WrittenTerm
  | var x => if x = "_" then var (ν (count + 1)) else var x
  | integer offset negative digits => integer offset negative digits
  | compound f ts => compound f (fillAll ν count ts)

/-- The terms with names in place of their bare underscores. -/
def fillAll (ν : Nat → String) (count : Nat) : List WrittenTerm → List WrittenTerm
  | [] => []
  | t :: ts => t.fill ν count :: fillAll ν (count + bareCount t.tokens) ts

end

mutual

/-- The variables that a term writes by name, at their occurrences. -/
def names : WrittenTerm → List String
  | var x => if x = "_" then [] else [x]
  | integer _ _ _ => []
  | compound _ ts => allNames ts

/-- The variables that terms write by name, at their occurrences. -/
def allNames : List WrittenTerm → List String
  | [] => []
  | t :: ts => t.names ++ allNames ts

end

theorem allNames_eq_flatMap (ts : List WrittenTerm) : allNames ts = ts.flatMap names := by
  induction ts with
  | nil => rfl
  | cons t ts ih => rw [allNames, ih, List.flatMap_cons]

variable {ν : Nat → String}

/-- The terms of a list are those with names in the underscores' place, with these names turned back. -/
theorem map_valueAll_fillAll {ts : List WrittenTerm}
    (h : ∀ t ∈ ts, ∀ count count', ((t.fill ν count).value count').rename (unname ν) = t.value count)
    (count count' : Nat) :
    (valueAll count' (fillAll ν count ts)).map (Term.rename (unname ν)) = valueAll count ts := by
  induction ts generalizing count count' with
  | nil => rfl
  | cons t ts ih =>
    rw [List.forall_mem_cons] at h
    rw [fillAll, valueAll, List.map_cons, valueAll, h.1, ih h.2]

/-- So is a term. -/
theorem value_fill (hν : Function.Injective ν) (hbare : ∀ k, ν k ≠ "_") {t : WrittenTerm}
    (hunused : ∀ k, ν k ∉ t.names) (count count' : Nat) :
    ((t.fill ν count).value count').rename (unname ν) = t.value count := by
  induction t generalizing count count' with
  | var x =>
    rw [fill, value]
    by_cases hx : x = "_"
    · rw [if_pos hx, if_pos hx, value, if_neg (hbare _), Term.rename_var, unname_apply hν]
      rfl
    · rw [if_neg hx, if_neg hx, value, if_neg hx, Term.rename_var, unname_of_ne]
      intro k hk
      apply hunused k
      rw [hk, names, if_neg hx]
      exact List.mem_cons_self
  | integer o n ds => rfl
  | compound f ts ih =>
    simp only [names, allNames_eq_flatMap, List.mem_flatMap, not_exists, not_and] at hunused
    rw [fill, value, Term.rename_compound, value,
      map_valueAll_fillAll fun t ht => ih t ht fun k => hunused k t ht]

/-- What is read from a list of terms with names filled in is read from one of them. -/
theorem exists_of_mem_valueAll_fillAll {ts : List WrittenTerm} {count count' : Nat} {u : Term}
    (hu : u ∈ valueAll count' (fillAll ν count ts)) :
    ∃ t ∈ ts, ∃ c c', u = (t.fill ν c).value c' := by
  induction ts generalizing count count' with
  | nil => simp [fillAll, valueAll] at hu
  | cons t ts ih =>
    rw [fillAll, valueAll] at hu
    rcases List.mem_cons.1 hu with rfl | hu
    · exact ⟨t, List.mem_cons_self, count, count', rfl⟩
    · obtain ⟨t', ht', hvalue⟩ := ih hu
      exact ⟨t', List.mem_cons_of_mem t ht', hvalue⟩

/-- The variables of a term with names in its underscores' place are written by name or are such names. -/
theorem mem_occurrences_value_fill (hbare : ∀ k, ν k ≠ "_") {t : WrittenTerm} {count count' : Nat}
    {x : String} (hx : x ∈ ((t.fill ν count).value count').occurrences) :
    x ∈ t.names ∨ ∃ k, ν k = x := by
  induction t generalizing count count' with
  | var y =>
    rw [fill] at hx
    by_cases hy : y = "_"
    · rw [if_pos hy, value, if_neg (hbare _)] at hx
      exact .inr ⟨count + 1, (List.mem_singleton.1 hx).symm⟩
    · rw [if_neg hy, value, if_neg hy] at hx
      rw [names, if_neg hy]
      exact .inl hx
  | integer o n ds => simp [fill, value, Term.occurrences] at hx
  | compound f ts ih =>
    simp only [fill, value, Term.occurrences, Term.allOccurrences_eq_flatMap, List.mem_flatMap] at hx
    obtain ⟨u, hu, hx⟩ := hx
    obtain ⟨t, ht, c, c', rfl⟩ := exists_of_mem_valueAll_fillAll hu
    rw [names, allNames_eq_flatMap]
    exact (ih t ht hx).imp_left fun h => List.mem_flatMap.2 ⟨t, ht, h⟩

theorem allFit_fillAll {ts : List WrittenTerm} (h : ∀ t ∈ ts, ∀ count, (t.fill ν count).Fits)
    (count : Nat) : AllFit (fillAll ν count ts) := by
  induction ts generalizing count with
  | nil => trivial
  | cons t ts ih =>
    rw [List.forall_mem_cons] at h
    exact ⟨h.1 count, ih h.2 _⟩

/-- Filling in names leaves the integers of a term. -/
theorem fits_fill {t : WrittenTerm} (h : t.Fits) (count : Nat) : (t.fill ν count).Fits := by
  induction t generalizing count with
  | var x =>
    rw [fill]
    split <;> trivial
  | integer o n ds => exact h
  | compound f ts ih =>
    rw [Fits, allFit_iff] at h
    exact allFit_fillAll (fun t ht => ih t ht (h t ht)) count

end WrittenTerm

/-! ## Bodies -/

namespace Formula

mutual

/-- The formula with names in place of its bare underscores. -/
def fill (ν : Nat → String) (count : Nat) : Formula WrittenTerm → Formula WrittenTerm
  | holds t => .holds (t.fill ν count)
  | fails t => .fails (t.fill ν count)
  | every fs => .every (fillAll ν count fs)
  | some fs => .some (fillAll ν count fs)

/-- The formulas with names in place of their bare underscores. -/
def fillAll (ν : Nat → String) (count : Nat) : List (Formula WrittenTerm) → List (Formula WrittenTerm)
  | [] => []
  | f :: fs => f.fill ν count :: fillAll ν (count + bareCount f.tokens) fs

end

mutual

/-- The variables that a formula writes by name, at their occurrences. -/
def names : Formula WrittenTerm → List String
  | holds t => t.names
  | fails t => t.names
  | every fs => allNames fs
  | some fs => allNames fs

/-- The variables that formulas write by name, at their occurrences. -/
def allNames : List (Formula WrittenTerm) → List String
  | [] => []
  | f :: fs => f.names ++ allNames fs

end

theorem allNames_eq_flatMap (fs : List (Formula WrittenTerm)) : allNames fs = fs.flatMap names := by
  induction fs with
  | nil => rfl
  | cons f fs ih => rw [allNames, ih, List.flatMap_cons]

mutual

/-- The formula with the variables of its atoms renamed. -/
def rename (ρ : String → String) : Formula Term → Formula Term
  | holds a => .holds (a.rename ρ)
  | fails a => .fails (a.rename ρ)
  | every fs => .every (renameAll ρ fs)
  | some fs => .some (renameAll ρ fs)

/-- The formulas with the variables of their atoms renamed. -/
def renameAll (ρ : String → String) : List (Formula Term) → List (Formula Term)
  | [] => []
  | f :: fs => f.rename ρ :: renameAll ρ fs

end

/-- The alternatives of a renamed formula are the renamed alternatives. -/
theorem alternatives_rename (ρ : String → String) (f : Formula Term) :
    (f.rename ρ).alternatives = f.alternatives.map (List.map (Literal.rename ρ)) := by
  induction f with
  | holds a => rfl
  | fails a => rfl
  | every fs ih =>
    rw [rename, alternatives, alternatives]
    induction fs with
    | nil => rfl
    | cons f fs ihs =>
      rw [List.forall_mem_cons] at ih
      simp only [renameAll, combinations, ih.1, ihs ih.2, List.flatMap_map, List.map_flatMap,
        List.map_map, Function.comp_def, List.map_append]
  | some fs ih =>
    rw [rename, alternatives, alternatives]
    induction fs with
    | nil => rfl
    | cons f fs ihs =>
      rw [List.forall_mem_cons] at ih
      rw [renameAll, allAlternatives, allAlternatives, ih.1, ihs ih.2, List.map_append]

variable {ν : Nat → String}

/-- A list of formulas is the list with names in the underscores' place, with these names turned back. -/
theorem renameAll_valueAll_fillAll {fs : List (Formula WrittenTerm)}
    (h : ∀ f ∈ fs, ∀ count count', ((f.fill ν count).value count').rename (unname ν) = f.value count)
    (count count' : Nat) :
    renameAll (unname ν) (valueAll count' (fillAll ν count fs)) = valueAll count fs := by
  induction fs generalizing count count' with
  | nil => rfl
  | cons f fs ih =>
    rw [List.forall_mem_cons] at h
    rw [fillAll, valueAll, renameAll, valueAll, h.1, ih h.2]

/-- So is a formula. -/
theorem value_fill (hν : Function.Injective ν) (hbare : ∀ k, ν k ≠ "_") {f : Formula WrittenTerm}
    (hunused : ∀ k, ν k ∉ f.names) (count count' : Nat) :
    ((f.fill ν count).value count').rename (unname ν) = f.value count := by
  induction f generalizing count count' with
  | holds t => rw [fill, value, rename, value, WrittenTerm.value_fill hν hbare hunused]
  | fails t => rw [fill, value, rename, value, WrittenTerm.value_fill hν hbare hunused]
  | every fs ih =>
    simp only [names, allNames_eq_flatMap, List.mem_flatMap, not_exists, not_and] at hunused
    rw [fill, value, rename, value,
      renameAll_valueAll_fillAll fun f hf => ih f hf fun k => hunused k f hf]
  | some fs ih =>
    simp only [names, allNames_eq_flatMap, List.mem_flatMap, not_exists, not_and] at hunused
    rw [fill, value, rename, value,
      renameAll_valueAll_fillAll fun f hf => ih f hf fun k => hunused k f hf]

/-- What is read from a list of formulas with names filled in is read from one of them. -/
theorem exists_of_mem_valueAll_fillAll {fs : List (Formula WrittenTerm)} {count count' : Nat}
    {g : Formula Term} (hg : g ∈ valueAll count' (fillAll ν count fs)) :
    ∃ f ∈ fs, ∃ c c', g = (f.fill ν c).value c' := by
  induction fs generalizing count count' with
  | nil => simp [fillAll, valueAll] at hg
  | cons f fs ih =>
    rw [fillAll, valueAll] at hg
    rcases List.mem_cons.1 hg with rfl | hg
    · exact ⟨f, List.mem_cons_self, count, count', rfl⟩
    · obtain ⟨f', hf', hvalue⟩ := ih hg
      exact ⟨f', List.mem_cons_of_mem f hf', hvalue⟩

/-- The variables of a body with names in its underscores' place are written by name or are such names. -/
theorem mem_occurrences_value_fill (hbare : ∀ k, ν k ≠ "_") {f : Formula WrittenTerm}
    {count count' : Nat} :
    ∀ body ∈ ((f.fill ν count).value count').alternatives, ∀ l ∈ body,
      ∀ x ∈ l.atom.occurrences, x ∈ f.names ∨ ∃ k, ν k = x := by
  -- the parts of a combination have fewer names than it
  have hparts {fs : List (Formula WrittenTerm)}
      (ih : ∀ f ∈ fs, ∀ {count count' : Nat}, ∀ body ∈ ((f.fill ν count).value count').alternatives,
        ∀ l ∈ body, ∀ x ∈ l.atom.occurrences, x ∈ f.names ∨ ∃ k, ν k = x) {count count' : Nat} :
      ∀ g ∈ valueAll count' (fillAll ν count fs), ∀ body ∈ g.alternatives, ∀ l ∈ body,
        ∀ x ∈ l.atom.occurrences, x ∈ allNames fs ∨ ∃ k, ν k = x := by
    intro g hg body hbody l hl x hx
    obtain ⟨f, hf, c, c', rfl⟩ := exists_of_mem_valueAll_fillAll hg
    rw [allNames_eq_flatMap]
    exact (ih f hf body hbody l hl x hx).imp_left fun h => List.mem_flatMap.2 ⟨f, hf, h⟩
  induction f generalizing count count' with
  | holds t =>
    simp only [fill, value, alternatives, List.forall_mem_singleton]
    exact fun x hx => WrittenTerm.mem_occurrences_value_fill hbare hx
  | fails t =>
    simp only [fill, value, alternatives, List.forall_mem_singleton]
    exact fun x hx => WrittenTerm.mem_occurrences_value_fill hbare hx
  | every fs ih =>
    rw [fill, value, names]
    exact forall_atoms_every (P := fun a => ∀ x ∈ a.occurrences, x ∈ allNames fs ∨ ∃ k, ν k = x) (hparts ih)
  | some fs ih =>
    rw [fill, value, names]
    exact forall_atoms_some (P := fun a => ∀ x ∈ a.occurrences, x ∈ allNames fs ∨ ∃ k, ν k = x) (hparts ih)

theorem allFit_fillAll {fs : List (Formula WrittenTerm)}
    (h : ∀ f ∈ fs, ∀ count, (f.fill ν count).Fits) (count : Nat) : AllFit (fillAll ν count fs) := by
  induction fs generalizing count with
  | nil => trivial
  | cons f fs ih =>
    rw [List.forall_mem_cons] at h
    exact ⟨h.1 count, ih h.2 _⟩

/-- Filling in names leaves the integers of a formula. -/
theorem fits_fill {f : Formula WrittenTerm} (h : f.Fits) (count : Nat) : (f.fill ν count).Fits := by
  induction f generalizing count with
  | holds t => exact WrittenTerm.fits_fill h count
  | fails t => exact WrittenTerm.fits_fill h count
  | every fs ih =>
    rw [Fits, allFit_iff] at h
    exact allFit_fillAll (fun f hf => ih f hf (h f hf)) count
  | some fs ih =>
    rw [Fits, allFit_iff] at h
    exact allFit_fillAll (fun f hf => ih f hf (h f hf)) count

end Formula

/-! ## Statements -/

variable {α : Type} [Probability α] {ν : Nat → String}

namespace Statement

/-- The statement with names in place of its bare underscores. -/
def fill (ν : Nat → String) (count : Nat) : Statement → Statement
  | query t => query (t.fill ν count)
  | chance p h => chance p ⟨h.offset, h.term.fill ν count⟩
  | rule h body =>
    rule ⟨h.offset, h.term.fill ν count⟩ (body.fill ν (count + bareCount h.term.tokens))
  | fact h => fact ⟨h.offset, h.term.fill ν count⟩

/-- The statements with names in place of their bare underscores. -/
def fillAll (ν : Nat → String) (count : Nat) (ss : List Statement) : List Statement :=
  numbered (fill ν) tokens count ss

/-- The variables that a statement writes by name, at their occurrences. -/
def names : Statement → List String
  | query t => t.names
  | chance _ h => h.term.names
  | rule h body => h.term.names ++ body.names
  | fact h => h.term.names

/-- A statement is the statement with names in its underscores' place, with these names turned back. -/
theorem value_fill (hν : Function.Injective ν) (hbare : ∀ k, ν k ≠ "_") {s : Statement}
    (hunused : ∀ k, ν k ∉ s.names) (count count' : Nat) :
    ((s.fill ν count).value count' : Program α).rename (unname ν) = s.value count := by
  cases s with
  | query t =>
    simp only [fill, value, Program.rename, List.map_cons, List.map_nil,
      WrittenTerm.value_fill hν hbare hunused]
  | chance p h =>
    simp only [fill, value, Program.rename, List.map_cons, List.map_nil, Clause.rename,
      WrittenTerm.value_fill hν hbare hunused]
  | rule h body =>
    simp only [names, List.mem_append, not_or] at hunused
    have hhead := fun c c' => h.term.value_fill hν hbare (fun k => (hunused k).1) c c'
    have hbody := fun c c' => body.value_fill hν hbare (fun k => (hunused k).2) c c'
    simp only [fill, value, Program.rename, List.map_nil, Program.mk.injEq, and_true, List.map_map]
    rw [← hbody _ (count' + bareCount (h.term.fill ν count).tokens), Formula.alternatives_rename,
      List.map_map]
    apply List.map_congr_left
    intro literals _
    simp only [Function.comp_apply, Clause.rename, Rule.rename, hhead]
  | fact h =>
    simp only [fill, value, Program.rename, List.map_cons, List.map_nil, Clause.rename,
      WrittenTerm.value_fill hν hbare hunused]

/-- The variables of its clauses are then written by name or are such names. -/
theorem mem_names_value_fill (hbare : ∀ k, ν k ≠ "_") {s : Statement} {count count' : Nat} :
    ∀ c ∈ ((s.fill ν count).value count' : Program α).clauses, ∀ x ∈ c.names,
      x ∈ s.names ∨ ∃ k, ν k = x := by
  cases s with
  | query t => simp [fill, value]
  | chance p h =>
    simp only [fill, value, List.forall_mem_singleton]
    exact fun x hx => WrittenTerm.mem_occurrences_value_fill hbare hx
  | rule h body =>
    simp only [fill, value, List.mem_map]
    rintro _ ⟨literals, hliterals, rfl⟩ x hx
    rw [names, List.mem_append, or_assoc]
    rcases List.mem_append.1 hx with hx | hx
    · exact (WrittenTerm.mem_occurrences_value_fill hbare hx).imp_right .inr
    · obtain ⟨l, hl, hx⟩ := List.mem_flatMap.1 hx
      exact .inr (Formula.mem_occurrences_value_fill hbare literals hliterals l hl x hx)
  | fact h =>
    simp only [fill, value, List.forall_mem_singleton]
    exact fun x hx => WrittenTerm.mem_occurrences_value_fill hbare hx

/-- Filling in names leaves statements admissible. -/
theorem admissible_fill {s : Statement} (h : s.Admissible α) (count : Nat) :
    (s.fill ν count).Admissible α := by
  have hcompound {t : WrittenTerm} (ht : ∃ f ts, t = .compound f ts) (count : Nat) :
      ∃ f ts, t.fill ν count = .compound f ts := by
    obtain ⟨f, ts, rfl⟩ := ht
    exact ⟨f, _, rfl⟩
  cases s with
  | query t => exact admissible_query_iff.2 (WrittenTerm.fits_fill (admissible_query_iff.1 h) count)
  | chance p head =>
    obtain ⟨⟨hhead, hfits⟩, hunit⟩ := admissible_chance_iff.1 h
    exact admissible_chance_iff.2
      ⟨⟨hcompound hhead count, WrittenTerm.fits_fill hfits count⟩, hunit⟩
  | rule head body =>
    obtain ⟨⟨hhead, hfits⟩, hbody⟩ := admissible_rule_iff.1 h
    exact admissible_rule_iff.2
      ⟨⟨hcompound hhead count, WrittenTerm.fits_fill hfits count⟩, Formula.fits_fill hbody _⟩
  | fact head =>
    obtain ⟨hhead, hfits⟩ := admissible_fact_iff.1 h
    exact admissible_fact_iff.2 ⟨hcompound hhead count, WrittenTerm.fits_fill hfits count⟩

end Statement

/-- Names for the bare underscores of a text: no two are the same, and the text uses none of them. -/
structure Unused (ν : Nat → String) (ss : List Statement) : Prop where
  injective : Function.Injective ν
  ne_bare : ∀ k, ν k ≠ "_"
  not_mem : ∀ s ∈ ss, ∀ k, ν k ∉ s.names

/-- Names that are longer than all others are unused. -/
theorem exists_unused (ss : List Statement) : ∃ ν, Unused ν ss := by
  refine ⟨fun k => String.ofList (List.replicate
    (((ss.flatMap Statement.names).map String.length).sum + 2 + k) 'V'), ?_, ?_, ?_⟩
  · intro j k h
    have hlength := congrArg String.length h
    simp only [String.length_ofList, List.length_replicate] at hlength
    omega
  · intro k h
    have hlength := congrArg String.length h
    simp only [String.length_ofList, List.length_replicate] at hlength
    have hone : "_".length = 1 := by decide
    omega
  · intro s hs k hmem
    have hle := List.le_sum_of_mem
      (List.mem_map_of_mem (f := String.length) (List.mem_flatMap.2 ⟨s, hs, hmem⟩))
    simp only [String.length_ofList, List.length_replicate] at hle
    omega

/-- The program of statements is that of the statements with names in the underscores' place, with these names
turned back. -/
theorem programOf_fill {ss : List Statement} (h : Unused ν ss) (count count' : Nat) :
    (programOf count' (Statement.fillAll ν count ss) : Program α).rename (unname ν) =
      programOf count ss := by
  induction ss generalizing count count' with
  | nil => rfl
  | cons s ss ih =>
    have hrest : Unused ν ss :=
      ⟨h.injective, h.ne_bare, fun s hs => h.not_mem s (List.mem_cons_of_mem _ hs)⟩
    rw [Statement.fillAll, numbered, programOf, Program.rename_append, programOf,
      Statement.value_fill h.injective h.ne_bare (h.not_mem s List.mem_cons_self)]
    exact congrArg _ (ih hrest _ _)

/-- The variables of a clause are written by name in one of the statements, or are names that stand in an
underscore's place. -/
theorem exists_statement_of_mem_clauses {ss : List Statement} (h : Unused ν ss) {count count' : Nat}
    {c : Clause α} (hc : c ∈ (programOf count' (Statement.fillAll ν count ss) : Program α).clauses) :
    ∃ s ∈ ss, ∀ x ∈ c.names, x ∈ s.names ∨ ∃ k, ν k = x := by
  induction ss generalizing count count' with
  | nil => cases hc
  | cons s ss ih =>
    have hrest : Unused ν ss :=
      ⟨h.injective, h.ne_bare, fun s hs => h.not_mem s (List.mem_cons_of_mem _ hs)⟩
    rw [Statement.fillAll, numbered, programOf, Program.clauses_append, List.mem_append] at hc
    rcases hc with hc | hc
    · exact ⟨s, List.mem_cons_self, Statement.mem_names_value_fill h.ne_bare c hc⟩
    · obtain ⟨s', hs', hnames⟩ := ih hrest hc
      exact ⟨s', List.mem_cons_of_mem s hs', hnames⟩

theorem admissible_of_mem_fillAll {ss : List Statement} (h : ∀ s ∈ ss, s.Admissible α) (count : Nat) :
    ∀ s ∈ Statement.fillAll ν count ss, s.Admissible α := by
  induction ss generalizing count with
  | nil => simp [Statement.fillAll, numbered]
  | cons s ss ih =>
    rw [List.forall_mem_cons] at h
    rw [Statement.fillAll, numbered, List.forall_mem_cons]
    exact ⟨Statement.admissible_fill h.1 count, ih h.2 _⟩

/-! ## Captured variables -/

/-- Among some variables, none that is written by name has the name that a bare underscore among them gets. -/
def Uncaptured (ν : Nat → String) (names : List String) : Prop :=
  ∀ k, ν k ∈ names → ∀ x ∈ names, (∀ j, ν j ≠ x) → x ≠ anonymous k

/-- Variables stay apart exactly when none is captured. -/
theorem injOn_unname_iff (hν : Function.Injective ν) {names : List String} :
    Set.InjOn (unname ν) {x | x ∈ names} ↔ Uncaptured ν names := by
  constructor
  · intro h k hk x hx hne heq
    apply hne k
    apply h hk hx
    rw [unname_apply hν, unname_of_ne hne, heq]
  · intro h x hx y hy hxy
    by_cases hx' : ∃ k, ν k = x
    · obtain ⟨k, rfl⟩ := hx'
      by_cases hy' : ∃ j, ν j = y
      · obtain ⟨j, rfl⟩ := hy'
        rw [unname_apply hν, unname_apply hν] at hxy
        rw [anonymous_injective hxy]
      · rw [not_exists] at hy'
        rw [unname_apply hν, unname_of_ne hy'] at hxy
        exact absurd hxy.symm (h k hx y hy hy')
    · rw [not_exists] at hx'
      by_cases hy' : ∃ j, ν j = y
      · obtain ⟨j, rfl⟩ := hy'
        rw [unname_apply hν, unname_of_ne hx'] at hxy
        exact absurd hxy (h j hy x hx hx')
      · rw [not_exists] at hy'
        rwa [unname_of_ne hx', unname_of_ne hy'] at hxy

end Syntax

namespace Program

variable {α : Type} [Probability α]

/-- Let a text be a program.  Different bare underscores of the text become different variables.  If unused
names are written in their place, any text that does so is a program, the first program is the second one with
these names turned into those of anonymous variables, and in a clause this keeps variables apart exactly when
no variable written by name has the name that an underscore of the clause gets, as is the case when the text
writes no variable like an anonymous one.  The body of such a rule admits the same bindings as before, and a
safe one has the same instances. -/
theorem anonymous_fresh {text : String} {p : Program α} (hp : ofText text = .ok p) :
    Function.Injective anonymous ∧ ∃ ss, Writes text.toList ss ∧ (∃ ν, Unused ν ss) ∧
      ∀ ν, Unused ν ss → ∃ p' : Program α,
        (∀ text' : String, Writes text'.toList (Statement.fillAll ν 0 ss) → ofText text' = .ok p') ∧
        p = p'.rename (unname ν) ∧
        (∀ c ∈ p'.clauses, Set.InjOn (unname ν) {x | x ∈ c.names} ↔ Uncaptured ν c.names) ∧
        ((∀ s ∈ ss, ∀ k, anonymous k ∉ s.names) → ∀ c ∈ p'.clauses, Uncaptured ν c.names) ∧
        ∀ r ∈ p'.rules, Uncaptured ν r.names → r.BindsAlike (unname ν) ∧
          (r.unbound? = none → ∀ possible : TermSet, GroundAtoms possible.toList → ∀ entry,
            entry ∈ (r.rename (unname ν)).instances possible (AtomIndex.ofList possible.toList) ↔
              entry ∈ r.instances possible (AtomIndex.ofList possible.toList)) := by
  obtain ⟨ss, hw, hadmissible, rfl⟩ := exists_writes_of_ofText hp
  refine ⟨anonymous_injective, ss, hw, exists_unused ss, ?_⟩
  intro ν hν
  refine ⟨programOf 0 (Statement.fillAll ν 0 ss), ?_, (programOf_fill hν 0 0).symm, ?_, ?_, ?_⟩
  · intro text' hw'
    exact ofText_of_writes hw' (admissible_of_mem_fillAll hadmissible 0)
  · intro c _
    exact injOn_unname_iff hν.injective
  · rintro hnames c hc k - x hx hne rfl
    obtain ⟨s, hs, hwritten⟩ := exists_statement_of_mem_clauses hν hc
    rcases hwritten _ hx with hx | ⟨j, hj⟩
    · exact hnames s hs k hx
    · exact hne j hj
  · intro r _ huncaptured
    have hinj := (injOn_unname_iff hν.injective).2 huncaptured
    refine ⟨Rule.bindsAlike hinj, ?_⟩
    intro hsafe possible hground entry
    exact Rule.mem_instances_rename hinj hsafe hground

/-- Who is first of a pair that is second of another one. -/
def linked : Program Rat where
  clauses := [.rule ⟨.compound "linked" [.var "X"],
    [⟨.compound "pair" [.var "X", .var "_G1"], true⟩, ⟨.compound "pair" [.var "_G2", .var "X"], true⟩]⟩]
  queries := []

theorem anonymous_fresh_linked :
    ofText "linked(X) :- pair(X, _), pair(_, X)." = .ok linked ∧ Function.Injective anonymous ∧
      ∃ ss, Writes "linked(X) :- pair(X, _), pair(_, X).".toList ss ∧ ∃ ν, Unused ν ss ∧
        ∃ p' : Program Rat, linked = p'.rename (unname ν) ∧
          ∀ r ∈ p'.rules, Uncaptured ν r.names → r.BindsAlike (unname ν) := by
  have hp : (ofText "linked(X) :- pair(X, _), pair(_, X)." : Except EngineError (Program Rat)) =
      .ok linked := by decide +kernel
  obtain ⟨hinj, ss, hw, ⟨ν, hν⟩, hall⟩ := anonymous_fresh hp
  obtain ⟨p', -, hrename, -, -, hbinds⟩ := hall ν hν
  exact ⟨hp, hinj, ss, hw, ν, hν, p', hrename, fun r hr h => (hbinds r hr h).1⟩

/-- Somebody is met when a pair is known; the second one of the pair is written like an anonymous variable. -/
def capturedText : String := "pair(1,2). met :- pair(_,_G1). query(met)."

/-- The same text with an unused name in the underscore's place. -/
def filledText : String := "pair(1,2). met :- pair(Other,_G1). query(met)."

/-- What a text with the pair says when its rule has the given variables. -/
def metBy (x y : String) : Program Rat where
  clauses := [.fact (.compound "pair" [.int 1, .int 2]),
    .rule ⟨.atom "met", [⟨.compound "pair" [.var x, .var y], true⟩]⟩]
  queries := [.atom "met"]

/-- An underscore becomes a variable that the clause has by name, so the body has no instance and nobody can be
met; with an unused name in the underscore's place there is an instance. -/
theorem anonymous_captured :
    (ofText capturedText : Except EngineError (Program Rat)) = .ok (metBy "_G1" "_G1") ∧
      (ofText filledText : Except EngineError (Program Rat)) = .ok (metBy "Other" "_G1") ∧
      ((metBy "_G1" "_G1").ground 10).outcome.map (·.queries) = .ok [(.atom "met", none)] ∧
      ((metBy "Other" "_G1").ground 10).outcome.map (·.queries) = .ok [(.atom "met", some 1)] :=
  ⟨by decide +kernel, by decide +kernel, by decide +kernel, by decide +kernel⟩

end Program

end TimedInference
