import TimedInference.Engine.Error

/-!
# Weights

A weight vector gives each choice of a circuit a probability.
-/

namespace TimedInference

/-- The weights of a circuit's choices, by number. -/
structure Weights (α : Type) where
  values : Array α
  deriving DecidableEq

namespace Weights

variable {α : Type} [Probability α]

/-- The weights of a list. -/
def ofList (values : List α) : Weights α := ⟨values.toArray⟩

/-- The given number of weights, all zero. -/
def zeros (count : Nat) : Weights α := ⟨Array.replicate count 0⟩

/-- The number of weights. -/
def size (w : Weights α) : Nat := w.values.size

/-- The weight of a node. -/
def get? (w : Weights α) (node : Nat) : Option α := w.values[node]?

/-- How messages call a node. -/
def nodeName (node : Nat) : String := "node " ++ toString node

/-- The weights with that of one node replaced by a probability. -/
def set (w : Weights α) (node : Nat) (p : α) : Except EngineError (Weights α) :=
  if Probability.inUnit p then
    if node < w.size then .ok ⟨w.values.setIfInBounds node p⟩ else .error (.unknownNode node)
  else .error (.improbable (Probability.text p) (nodeName node))

/-- The first weight that is no probability, and its node. -/
def improper? (w : Weights α) : Option (α × Nat) :=
  w.values.toList.zipIdx.find? fun v => !Probability.inUnit v.1

/-- Checks that there is a probability for each of a number of choices. -/
def check (w : Weights α) (count : Nat) : Except EngineError Unit :=
  if w.size ≠ count then .error (.weightCount count w.size)
  else
    match w.improper? with
    | some (p, node) => .error (.improbable (Probability.text p) (nodeName node))
    | none => .ok ()

/-! ## Laws -/

/-- A weight can be set to a probability, when the node has one. -/
theorem set_eq_ok_iff {w w' : Weights α} {node : Nat} {p : α} :
    w.set node p = .ok w' ↔
      Probability.inUnit p = true ∧ node < w.size ∧ ⟨w.values.setIfInBounds node p⟩ = w' := by
  unfold set
  by_cases hp : Probability.inUnit p = true
  · by_cases hn : node < w.size <;> simp [hp, hn]
  · simp [hp]

/-- Setting a weight changes that of its node only. -/
theorem get?_of_set {w w' : Weights α} {node : Nat} {p : α} (h : w.set node p = .ok w') (n : Nat) :
    w'.get? n = if node = n then some p else w.get? n := by
  obtain ⟨_, hn, rfl⟩ := set_eq_ok_iff.1 h
  unfold size at hn
  simp only [get?, Array.getElem?_setIfInBounds, hn, if_true]

/-- Setting a weight leaves their number. -/
theorem size_of_set {w w' : Weights α} {node : Nat} {p : α} (h : w.set node p = .ok w') :
    w'.size = w.size := by
  obtain ⟨_, _, rfl⟩ := set_eq_ok_iff.1 h
  simp [size]

/-- No weight is improper when all are probabilities. -/
theorem improper?_eq_none_iff {w : Weights α} :
    w.improper? = none ↔ ∀ p ∈ w.values, Probability.inUnit p = true := by
  simp only [improper?, List.find?_eq_none, Bool.not_eq_true', Bool.not_eq_false]
  constructor
  · intro h p hp
    obtain ⟨i, hi⟩ := List.mem_iff_getElem?.1 (Array.mem_toList_iff.2 hp)
    exact h (p, i) (List.mem_zipIdx_iff_getElem?.2 hi)
  · intro h v hv
    have hp := List.mem_of_getElem? (List.mem_zipIdx_iff_getElem?.1 hv)
    exact h v.1 (Array.mem_toList_iff.1 hp)

/-- Weights pass the check when there is one for each choice and all are probabilities. -/
theorem check_eq_ok_iff {w : Weights α} {count : Nat} :
    w.check count = .ok () ↔
      w.size = count ∧ ∀ p ∈ w.values, Probability.inUnit p = true := by
  rw [← improper?_eq_none_iff]
  unfold check
  split
  · simp_all
  · cases h : w.improper? <;> simp_all

end Weights

end TimedInference
