import TimedInference.Engine.Error

/-!
# Safe programs

A program is safe when its facts are ground and when every variable of a rule's head or of a negated
literal occurs in a positive literal of the rule's body.
-/

namespace TimedInference

/-- The variables of a rule that must be bound by its body: those of the head and then those of the
negated literals. -/
def Rule.needed (r : Rule) : List String :=
  r.head.variables ++ r.negatives.flatMap Term.variables

/-- The variables that the positive literals of a rule bind. -/
def Rule.bound (r : Rule) : List String := r.positives.flatMap Term.variables

/-- The first variable of a rule that must be bound but is not. -/
def Rule.unbound? (r : Rule) : Option String := r.needed.find? fun x => !r.bound.contains x

theorem Rule.mem_bound {r : Rule} {x : String} :
    x ∈ r.bound ↔ ∃ l ∈ r.body, l.positive = true ∧ x ∈ l.atom.occurrences := by
  simp only [bound, positives, List.mem_flatMap, List.mem_map, List.mem_filter, Term.mem_variables]
  constructor
  · rintro ⟨_, ⟨l, ⟨hl, hp⟩, rfl⟩, hx⟩
    exact ⟨l, hl, hp, hx⟩
  · rintro ⟨l, hl, hp, hx⟩
    exact ⟨l.atom, ⟨l, ⟨hl, hp⟩, rfl⟩, hx⟩

theorem Rule.unbound?_eq_none_iff {r : Rule} : r.unbound? = none ↔ ∀ x ∈ r.needed, x ∈ r.bound := by
  simp [unbound?]

/-- Checks that a clause is safe. -/
def Clause.check {α : Type} [Probability α] (c : Clause α) : Except EngineError Unit :=
  match c with
  | .rule r =>
    match r.unbound? with
    | some x => .error (.unboundVariable x r)
    | none => .ok ()
  | _ => if c.head.isGround then .ok () else .error (.factNotGround c.text)

/-- Checks that every clause of a program is safe, from first to last. -/
def Program.check {α : Type} [Probability α] (p : Program α) : Except EngineError Unit :=
  p.clauses.forM Clause.check

end TimedInference
