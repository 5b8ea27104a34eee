import TimedInference.Diagram.Store

/-!
# What diagrams mean

The parts of a decision have smaller numbers than it, so a value for every node of a store can be
computed upward, from values of false and true and from a rule that gives the value of a decision from
those of its parts (`Store.upward`). Truth values under an assignment are such values (`Store.eval`);
probabilities are others. Each operation of a store is known by the truth values of what it returns.
-/

namespace TimedInference.Diagram.Store

variable {β : Type}

/-- The values known so far with that of one more node, which follows from the values of its parts. A
part that is not known counts as false. -/
def addValue (atFalse : β) (rule : Node → β → β → β) (known : Array β) (n : Node) : Array β :=
  known.push (rule n (known.getD n.low atFalse) (known.getD n.high atFalse))

/-- The value of every node: those of false and true are given, and that of a decision follows by a
rule from the values of its parts. -/
def upward (s : Store) (atFalse atTrue : β) (rule : Node → β → β → β) : Array β :=
  s.nodes.foldl (addValue atFalse rule) #[atFalse, atTrue]

/-- The truth value of a diagram under an assignment of truth values to the variables. -/
def eval (s : Store) (v : Nat → Bool) (f : Nat) : Bool :=
  (s.upward false true fun n low high => if v n.var then high else low).getD f false

/-! ## Values of nodes -/

section

variable (atFalse atTrue : β) (rule : Node → β → β → β)

/-- Every decision adds one value. -/
theorem size_addValues (ns : List Node) (known : Array β) :
    (ns.foldl (addValue atFalse rule) known).size = known.size + ns.length := by
  induction ns generalizing known with
  | nil => rfl
  | cons n ns ih =>
    rw [List.foldl_cons, ih, addValue, Array.size_push, List.length_cons]
    omega

/-- A value that is added leaves the earlier ones. -/
theorem getD_addValue (n : Node) (known : Array β) {f : Nat} (h : f < known.size) :
    (addValue atFalse rule known n).getD f atFalse = known.getD f atFalse := by
  simp [addValue, Array.getD_eq_getD_getElem?, Array.getElem?_push, Nat.ne_of_lt h]

/-- The value that is added is that of the decision between its parts. -/
theorem getD_addValue_self (n : Node) (known : Array β) :
    (addValue atFalse rule known n).getD known.size atFalse =
      rule n (known.getD n.low atFalse) (known.getD n.high atFalse) := by
  simp [addValue, Array.getD_eq_getD_getElem?]

/-- More nodes do not change the values known so far. -/
theorem getD_addValues (ns : List Node) (known : Array β) {f : Nat} (h : f < known.size) :
    (ns.foldl (addValue atFalse rule) known).getD f atFalse = known.getD f atFalse := by
  induction ns generalizing known with
  | nil => rfl
  | cons n ns ih =>
    have hs : f < (addValue atFalse rule known n).size := by
      rw [addValue, Array.size_push]
      omega
    rw [List.foldl_cons, ih _ hs, getD_addValue _ _ _ _ h]

/-- The value of a node among more nodes follows from those of its parts when they come before it. -/
theorem getD_addValues_node (ns : List Node) (known : Array β) {i : Nat} {n : Node}
    (h : ns[i]? = some n) (hl : n.low < known.size + i) (hh : n.high < known.size + i) :
    (ns.foldl (addValue atFalse rule) known).getD (known.size + i) atFalse =
      rule n ((ns.foldl (addValue atFalse rule) known).getD n.low atFalse)
        ((ns.foldl (addValue atFalse rule) known).getD n.high atFalse) := by
  induction ns generalizing known i with
  | nil => simp at h
  | cons m ns ih =>
    have hs : (addValue atFalse rule known m).size = known.size + 1 := by
      rw [addValue, Array.size_push]
    rw [List.foldl_cons]
    cases i with
    | zero =>
      simp only [List.getElem?_cons_zero, Option.some.injEq] at h
      subst h
      have before {f : Nat} (hf : f < known.size) :
          (ns.foldl (addValue atFalse rule) (addValue atFalse rule known m)).getD f atFalse =
            known.getD f atFalse := by
        rw [getD_addValues _ _ _ _ (by omega), getD_addValue _ _ _ _ hf]
      rw [Nat.add_zero, before hl, before hh, getD_addValues _ _ _ _ (by omega), getD_addValue_self]
    | succ i =>
      rw [List.getElem?_cons_succ] at h
      have hi := ih (addValue atFalse rule known m) h (by omega) (by omega)
      rwa [hs, show known.size + 1 + i = known.size + (i + 1) by omega] at hi

/-- Every reference has a value. -/
theorem size_upward (s : Store) : (s.upward atFalse atTrue rule).size = s.size := by
  rw [upward, ← Array.foldl_toList, size_addValues, Array.length_toList]
  exact Nat.add_comm 2 _

theorem upward_falseRef (s : Store) :
    (s.upward atFalse atTrue rule).getD falseRef atFalse = atFalse := by
  rw [upward, ← Array.foldl_toList]
  exact getD_addValues _ _ _ _ (show 0 < 2 by decide)

theorem upward_trueRef (s : Store) :
    (s.upward atFalse atTrue rule).getD trueRef atFalse = atTrue := by
  rw [upward, ← Array.foldl_toList]
  exact getD_addValues _ _ _ _ (show 1 < 2 by decide)

/-- The value of a decision follows from those of its parts when they have smaller numbers. -/
theorem upward_node (s : Store) {f : Nat} {n : Node} (h : s.node? f = some n) (hl : n.low < f)
    (hh : n.high < f) :
    (s.upward atFalse atTrue rule).getD f atFalse =
      rule n ((s.upward atFalse atTrue rule).getD n.low atFalse)
        ((s.upward atFalse atTrue rule).getD n.high atFalse) := by
  unfold node? at h
  split at h
  · simp at h
  · rename_i hf
    obtain ⟨i, rfl⟩ : ∃ i, f = 2 + i := ⟨f - 2, by omega⟩
    rw [Nat.add_sub_cancel_left, ← Array.getElem?_toList] at h
    rw [upward, ← Array.foldl_toList]
    exact getD_addValues_node _ _ _ #[atFalse, atTrue] h hl hh

end

/-! ## Truth values -/

@[simp] theorem eval_falseRef (s : Store) (v : Nat → Bool) : s.eval v falseRef = false :=
  upward_falseRef false true _ s

@[simp] theorem eval_trueRef (s : Store) (v : Nat → Bool) : s.eval v trueRef = true :=
  upward_trueRef false true _ s

/-- A decision has the truth value of the part that the variable chooses. -/
theorem eval_node (s : Store) (v : Nat → Bool) {f : Nat} {n : Node} (h : s.node? f = some n)
    (hl : n.low < f) (hh : n.high < f) :
    s.eval v f = if v n.var then s.eval v n.high else s.eval v n.low :=
  upward_node false true _ s h hl hh

end TimedInference.Diagram.Store
