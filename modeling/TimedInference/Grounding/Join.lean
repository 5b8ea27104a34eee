import TimedInference.Term.Substitution

/-!
# Joins

A join finds all bindings under which every pattern of a list becomes an atom of a set. Patterns are
taken from left to right; each is looked up among the atoms with its functor and number of arguments,
which an index keeps together.
-/

namespace TimedInference

/-- The functor and the number of arguments of a compound. -/
def Term.signature? (t : Term) : Option (String × Nat) := t.functor?.map fun f => (f, t.arity)

/-- Atoms by functor and number of arguments. -/
structure AtomIndex where
  buckets : Std.ExtTreeMap (String × Nat) (List Term) lexOrd.compare

namespace AtomIndex

/-- The index with one more atom, before the others of its signature. Terms that are no compounds are
left out. -/
def add (atom : Term) (index : AtomIndex) : AtomIndex :=
  match atom.signature? with
  | some s => ⟨index.buckets.insert s (atom :: index.buckets.getD s [])⟩
  | none => index

/-- The index of a list of atoms, which keeps their order. -/
def ofList (atoms : List Term) : AtomIndex := atoms.foldr add ⟨∅⟩

/-- The atoms with the functor and the number of arguments of a pattern. -/
def candidates (index : AtomIndex) (pattern : Term) : List Term :=
  match pattern.signature? with
  | some s => index.buckets.getD s []
  | none => []

theorem getD_buckets_add (atom : Term) (index : AtomIndex) (s : String × Nat) :
    (add atom index).buckets.getD s [] =
      if atom.signature? = some s then atom :: index.buckets.getD s []
      else index.buckets.getD s [] := by
  unfold add
  cases h : atom.signature? with
  | none => simp
  | some t =>
    by_cases ht : t = s
    · subst ht
      simp
    · simp [Std.ExtTreeMap.getD_insert, ht]

/-- The candidates for a pattern are the atoms with its functor and number of arguments, in order. -/
theorem candidates_ofList (atoms : List Term) {pattern : Term} {s : String × Nat}
    (h : pattern.signature? = some s) :
    (ofList atoms).candidates pattern = atoms.filter fun atom => atom.signature? = some s := by
  simp only [candidates, h]
  induction atoms with
  | nil => simp [ofList]
  | cons atom atoms ih =>
    have hc : ofList (atom :: atoms) = add atom (ofList atoms) := rfl
    rw [hc, getD_buckets_add, ih, List.filter_cons]
    by_cases ha : atom.signature? = some s <;> simp [ha]

/-- The extensions of bindings under which a pattern becomes an indexed atom. -/
def extend (index : AtomIndex) (pattern : Term) (b : Bindings) : List Bindings :=
  let bound := pattern.substitute b
  (index.candidates bound).filterMap fun atom => bound.match? atom b

/-- The extensions of bindings under which every pattern becomes an indexed atom. -/
def joinFrom (index : AtomIndex) : List Term → Bindings → List Bindings
  | [], b => [b]
  | p :: ps, b => (index.extend p b).flatMap (joinFrom index ps)

/-- The bindings under which every pattern becomes an indexed atom. -/
def join (index : AtomIndex) (patterns : List Term) : List Bindings := index.joinFrom patterns ∅

end AtomIndex

end TimedInference
