/-!
# Logic terms

A term is a variable, an integer or a compound of a functor and its arguments; an atom is a compound
without arguments. This module holds the type, what can be read off a term, and its text, which
holds no white space (`aHead(0,1)`) and so can serve as a name.

Functions over the arguments come in pairs, one for a term and one for a list of terms, so that
each is structurally recursive; the second of a pair is restated by the list operation it is.
-/

namespace TimedInference

/-- A logic term. -/
inductive Term where
  /-- A variable. -/
  | var (name : String)
  /-- An integer. Timestamps are integers, kept to 64 bits where they are read or moved. -/
  | int (value : Int)
  /-- A functor applied to arguments. -/
  | compound (functor : String) (args : List Term)
  deriving Inhabited

namespace Term

/-- A compound without arguments. -/
def atom (name : String) : Term := compound name []

/-- The functor of a compound. -/
def functor? : Term → Option String
  | compound f _ => some f
  | _ => none

/-- The arguments of a compound; other terms have none. -/
def args : Term → List Term
  | compound _ ts => ts
  | _ => []

/-- The number of arguments. -/
def arity (t : Term) : Nat := t.args.length

/-- The value of an integer term. -/
def int? : Term → Option Int
  | int n => some n
  | _ => none

/-- The argument at `i`, when it is an integer. -/
def intArg? (t : Term) (i : Nat) : Option Int := t.args[i]?.bind int?

/-- The term with its argument at `i` replaced; unchanged when it has no argument there. -/
def withArg (t : Term) (i : Nat) (u : Term) : Term :=
  match t with
  | compound f ts => compound f (ts.set i u)
  | _ => t

/-! ## Variables -/

mutual

/-- Whether no variable occurs in the term. -/
def isGround : Term → Bool
  | var _ => false
  | int _ => true
  | compound _ ts => areGround ts

/-- Whether no variable occurs in the terms. -/
def areGround : List Term → Bool
  | [] => true
  | t :: ts => t.isGround && areGround ts

end

mutual

/-- The names of the variables at their occurrences, from left to right. -/
def occurrences : Term → List String
  | var x => [x]
  | int _ => []
  | compound _ ts => allOccurrences ts

/-- The names of the variables at their occurrences in the terms, from left to right. -/
def allOccurrences : List Term → List String
  | [] => []
  | t :: ts => t.occurrences ++ allOccurrences ts

end

/-- The names of the variables, each once, in the order of their first occurrences. -/
def «variables» (t : Term) : List String := t.occurrences.eraseDups

@[simp] theorem areGround_eq_all (ts : List Term) : areGround ts = ts.all isGround := by
  induction ts with
  | nil => rfl
  | cons t ts ih => simp [areGround, ih]

@[simp] theorem allOccurrences_eq_flatMap (ts : List Term) :
    allOccurrences ts = ts.flatMap occurrences := by
  induction ts with
  | nil => rfl
  | cons t ts ih => simp [allOccurrences, ih]

/-- The variables of a term are those that occur in it. -/
@[simp] theorem mem_variables {t : Term} {x : String} : x ∈ t.variables ↔ x ∈ t.occurrences := by
  simp [Term.variables]

/-! ## Text -/

mutual

/-- The text of a term: arguments in parentheses, separated by commas, without white space. -/
def text : Term → String
  | var x => x
  | int n => toString n
  | compound f [] => f
  | compound f (t :: ts) => f ++ "(" ++ t.text ++ restText ts ++ ")"

/-- The texts of further arguments, each after a comma. -/
def restText : List Term → String
  | [] => ""
  | t :: ts => "," ++ t.text ++ restText ts

end

/-! ## Induction -/

/-- To prove something of every term, prove it of a compound from its arguments. -/
@[elab_as_elim, induction_eliminator]
theorem induct {motive : Term → Prop} (var : ∀ x, motive (var x)) (int : ∀ n, motive (int n))
    (compound : ∀ f ts, (∀ t ∈ ts, motive t) → motive (compound f ts)) (t : Term) : motive t :=
  @Term.rec motive (fun ts => ∀ t ∈ ts, motive t) var int compound
    (by simp) (fun _ _ ht hts => by simpa using ⟨ht, hts⟩) t

/-- A term is ground when no variable occurs in it. -/
theorem isGround_iff {t : Term} : t.isGround = true ↔ t.occurrences = [] := by
  induction t with
  | var x => simp [isGround, occurrences]
  | int n => simp [isGround, occurrences]
  | compound f ts ih =>
    simp only [isGround, areGround_eq_all, List.all_eq_true, occurrences,
      allOccurrences_eq_flatMap, List.flatMap_eq_nil_iff]
    exact forall₂_congr ih

end Term

end TimedInference
