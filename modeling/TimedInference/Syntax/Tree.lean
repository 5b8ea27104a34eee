import TimedInference.Program.Basic

/-!
# Written programs

What a program text says before it is checked: variables may be anonymous, integers may have any size,
the head of a clause may be any term, and rule bodies nest conjunctions, disjunctions and groups.
Where a later check can fail at a place, the place is kept.
-/

namespace TimedInference.Syntax

/-- A term as it is written. -/
inductive WrittenTerm where
  | var (name : String)
  | integer (offset : Nat) (negative : Bool) (digits : List Char)
  | compound (functor : String) (args : List WrittenTerm)
  deriving Inhabited

/-- To prove something of every written term, prove it of a compound from its arguments. -/
@[elab_as_elim, induction_eliminator]
theorem WrittenTerm.induct {motive : WrittenTerm → Prop} (var : ∀ x, motive (.var x))
    (integer : ∀ o n ds, motive (.integer o n ds))
    (compound : ∀ f ts, (∀ t ∈ ts, motive t) → motive (.compound f ts)) (t : WrittenTerm) :
    motive t :=
  @WrittenTerm.rec motive (fun ts => ∀ t ∈ ts, motive t) var integer compound
    (by simp) (fun _ _ ht hts => by simpa using ⟨ht, hts⟩) t

/-- A combination of atoms. -/
inductive Formula (τ : Type) where
  /-- The atom holds. -/
  | holds (atom : τ)
  /-- The atom does not hold. -/
  | fails (atom : τ)
  /-- Every part is true. -/
  | every (parts : List (Formula τ))
  /-- Some part is true. -/
  | some (parts : List (Formula τ))

/-- The head of a clause, with the place where it is written. -/
structure WrittenHead where
  offset : Nat
  term : WrittenTerm

/-- A statement of a program text. -/
inductive Statement where
  | query (term : WrittenTerm)
  | chance (probability : List Char) (head : WrittenHead)
  | rule (head : WrittenHead) (body : Formula WrittenTerm)
  | fact (head : WrittenHead)

namespace Formula

/-- To prove something of every formula, prove it of a combination from its parts. -/
@[elab_as_elim, induction_eliminator]
theorem induct {τ : Type} {motive : Formula τ → Prop} (holds : ∀ a, motive (holds a))
    (fails : ∀ a, motive (fails a)) (every : ∀ fs, (∀ f ∈ fs, motive f) → motive (every fs))
    (some : ∀ fs, (∀ f ∈ fs, motive f) → motive (some fs)) (f : Formula τ) : motive f :=
  @Formula.rec τ motive (fun fs => ∀ f ∈ fs, motive f) holds fails every some
    (by simp) (fun _ _ hf hfs => by simpa using ⟨hf, hfs⟩) f

mutual

/-- The conjunctions of literals of which at least one is true exactly when the formula is, in the
order in which alternatives are written, each with its literals in the order of the formula. -/
def alternatives : Formula Term → List (List Literal)
  | holds a => [[⟨a, true⟩]]
  | fails a => [[⟨a, false⟩]]
  | every parts => combinations parts
  | some parts => allAlternatives parts

/-- One alternative of each part, in every possible combination. -/
def combinations : List (Formula Term) → List (List Literal)
  | [] => [[]]
  | f :: fs => f.alternatives.flatMap fun first => (combinations fs).map fun rest => first ++ rest

/-- The alternatives of all parts. -/
def allAlternatives : List (Formula Term) → List (List Literal)
  | [] => []
  | f :: fs => f.alternatives ++ allAlternatives fs

end

end Formula

end TimedInference.Syntax
