import TimedInference.Number.Probability
import TimedInference.Term.Order

/-!
# Programs

A probabilistic logic program is a list of clauses and a list of queries. A clause is a fact, certain
or with a probability, or a rule whose body is a list of literals; a body with alternatives stands
for one rule for each of them.
-/

namespace TimedInference

/-- An atom, or the negation of one. -/
structure Literal where
  atom : Term
  positive : Bool
  deriving DecidableEq

/-- A rule: the head holds when every literal of the body does. -/
structure Rule where
  head : Term
  body : List Literal
  deriving DecidableEq

/-- A statement that says what holds. -/
inductive Clause (α : Type) where
  /-- A certain fact. -/
  | fact (head : Term)
  /-- A fact that holds with a probability, independently of every other one. -/
  | chance (probability : α) (head : Term)
  /-- A rule. -/
  | rule (rule : Rule)
  deriving DecidableEq

/-- A program: its clauses and its queries, each in source order. -/
structure Program (α : Type) where
  clauses : List (Clause α)
  queries : List Term
  deriving DecidableEq

namespace Literal

/-- Literals are ordered by atom; the negated one of an atom comes first. -/
instance : Ord Literal := ⟨compareLex (compareOn atom) (compareOn positive)⟩

instance : Std.TransOrd Literal :=
  inferInstanceAs (Std.TransCmp (compareLex (compareOn atom) (compareOn positive)))

instance : Std.LawfulEqOrd Literal where
  eq_of_compare {l m} h := by
    have h' : (Ord.compare l.atom m.atom).then (Ord.compare l.positive m.positive) = .eq := h
    rw [Ordering.then_eq_eq] at h'
    cases l
    cases m
    simp only [mk.injEq]
    exact ⟨Std.LawfulEqOrd.eq_of_compare h'.1, Std.LawfulEqOrd.eq_of_compare h'.2⟩

/-- The text of a literal: a negated atom is marked in front. -/
def text (l : Literal) : String := if l.positive then l.atom.text else "\\+" ++ l.atom.text

end Literal

namespace Rule

/-- The atoms of the positive literals, in body order. -/
def positives (r : Rule) : List Term := (r.body.filter (·.positive)).map (·.atom)

/-- The atoms of the negated literals, in body order. -/
def negatives (r : Rule) : List Term := (r.body.filter (!·.positive)).map (·.atom)

/-- The text of a rule. -/
def text (r : Rule) : String :=
  r.head.text ++ " :- " ++ String.intercalate ", " (r.body.map Literal.text) ++ "."

end Rule

namespace Clause

variable {α : Type}

/-- The atom that a clause is about. -/
def head : Clause α → Term
  | fact h => h
  | chance _ h => h
  | rule r => r.head

/-- The head of a fact, certain or not. -/
def factHead? : Clause α → Option Term
  | fact h => some h
  | chance _ h => some h
  | rule _ => none

/-- The head of a certain fact. -/
def certainHead? : Clause α → Option Term
  | fact h => some h
  | _ => none

/-- The head and the probability of a probabilistic fact. -/
def chance? : Clause α → Option (Term × α)
  | chance p h => some (h, p)
  | _ => none

/-- The rule that a clause is. -/
def rule? : Clause α → Option Rule
  | rule r => some r
  | _ => none

/-- The text of a clause. -/
def text [Probability α] : Clause α → String
  | fact h => h.text ++ "."
  | chance p h => Probability.text p ++ "::" ++ h.text ++ "."
  | rule r => r.text

end Clause

namespace Program

variable {α : Type}

/-- The program without statements. -/
def empty : Program α := ⟨[], []⟩

/-- The statements of one program after those of another. -/
def append (p q : Program α) : Program α := ⟨p.clauses ++ q.clauses, p.queries ++ q.queries⟩

instance : Append (Program α) := ⟨append⟩

/-- The heads of all facts, certain or not, in source order. -/
def factHeads (p : Program α) : List Term := p.clauses.filterMap Clause.factHead?

/-- The certain facts, in source order. -/
def certainFacts (p : Program α) : List Term := p.clauses.filterMap Clause.certainHead?

/-- The probabilistic facts, in source order. -/
def chances (p : Program α) : List (Term × α) := p.clauses.filterMap Clause.chance?

/-- The rules, in source order. -/
def rules (p : Program α) : List Rule := p.clauses.filterMap Clause.rule?

@[simp] theorem clauses_append (p q : Program α) : (p ++ q).clauses = p.clauses ++ q.clauses := rfl

@[simp] theorem queries_append (p q : Program α) : (p ++ q).queries = p.queries ++ q.queries := rfl

/-- Facts, probabilistic facts and rules of two programs that are put together: first those of the one,
then those of the other. -/
@[simp] theorem factHeads_append (p q : Program α) :
    (p ++ q).factHeads = p.factHeads ++ q.factHeads := by
  simp [factHeads]

@[simp] theorem certainFacts_append (p q : Program α) :
    (p ++ q).certainFacts = p.certainFacts ++ q.certainFacts := by
  simp [certainFacts]

@[simp] theorem chances_append (p q : Program α) : (p ++ q).chances = p.chances ++ q.chances := by
  simp [chances]

@[simp] theorem rules_append (p q : Program α) : (p ++ q).rules = p.rules ++ q.rules := by
  simp [rules]

end Program

end TimedInference
