import TimedInference.Term.Order

/-!
# Substitution and matching

Bindings give terms to variables. Substitution replaces the variables of a term that are bound;
matching finds bindings under which a pattern becomes a given term, keeping those it is given.
-/

namespace TimedInference

/-- Terms given to variables. -/
abbrev Bindings := Std.ExtTreeMap String Term

namespace Term

mutual

/-- The term with its bound variables replaced; other variables stay. -/
def substitute (b : Bindings) : Term → Term
  | var x => b[x]?.getD (var x)
  | int n => int n
  | compound f ts => compound f (substituteAll b ts)

/-- The terms with their bound variables replaced. -/
def substituteAll (b : Bindings) : List Term → List Term
  | [] => []
  | t :: ts => t.substitute b :: substituteAll b ts

end

@[simp] theorem substituteAll_eq_map (b : Bindings) (ts : List Term) :
    substituteAll b ts = ts.map (substitute b) := by
  induction ts with
  | nil => rfl
  | cons t ts ih => simp [substituteAll, ih]

/-- Bindings that leave every variable of a term as it is leave the term as it is. -/
theorem substitute_eq_self {b : Bindings} {t : Term}
    (h : ∀ x ∈ t.occurrences, b[x]?.getD (var x) = var x) : t.substitute b = t := by
  induction t with
  | var x => exact h x (by simp [occurrences])
  | int n => rfl
  | compound f ts ih =>
    simp only [occurrences, allOccurrences_eq_flatMap, List.mem_flatMap] at h
    have hs : ts.map (substitute b) = ts.map id :=
      List.map_congr_left fun t ht => ih t ht fun x hx => h x ⟨t, ht, hx⟩
    rw [substitute, substituteAll_eq_map, hs, List.map_id]

/-- Bindings of no variable leave every term. -/
@[simp] theorem substitute_empty (t : Term) : t.substitute ∅ = t :=
  substitute_eq_self (by simp)

mutual

/-- The least extension of the bindings under which the pattern becomes the target, if there is
one. -/
def match? : Term → Term → Bindings → Option Bindings
  | var x, t, b =>
    match b[x]? with
    | some u => if u = t then some b else none
    | none => some (b.insert x t)
  | int m, int n, b => if m = n then some b else none
  | compound f ps, compound g ts, b => if f = g then matchAll? ps ts b else none
  | _, _, _ => none

/-- The least extension of the bindings under which the patterns become the targets, if there is
one. -/
def matchAll? : List Term → List Term → Bindings → Option Bindings
  | [], [], b => some b
  | p :: ps, t :: ts, b =>
    match p.match? t b with
    | some b' => matchAll? ps ts b'
    | none => none
  | _, _, _ => none

end

end Term

end TimedInference
