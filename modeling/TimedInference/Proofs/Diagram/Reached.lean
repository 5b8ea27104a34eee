import TimedInference.Proofs.Diagram.Operations

/-!
# Stores that operations reach

A user of a store starts with the empty one and makes diagrams of variables, negations, conjunctions and
disjunctions, giving to each operation references that were issued before (`Reached`).  Every operation
keeps a store well formed (`Operation.run_makes`), so every reached store is, and an operation on it
makes the diagram that its name says and leaves all issued diagrams as they are
(`Reached.run_denotes`).
-/

namespace TimedInference.Diagram

open Store

/-! ## Operations -/

/-- An operation of a store, with its operands. -/
inductive Operation where
  | ofVar (i : Nat)
  | negate (f : Nat)
  | conjoin (f g : Nat)
  | disjoin (f g : Nat)
  deriving DecidableEq

namespace Operation

/-- The references that an operation is given. -/
def operands : Operation → List Nat
  | ofVar _ => []
  | negate f => [f]
  | conjoin f g => [f, g]
  | disjoin f g => [f, g]

/-- Carries out an operation. -/
def run : Operation → StateM Store Nat
  | ofVar i => Store.ofVar i
  | negate f => Store.negate f
  | conjoin f g => Store.conjoin f g
  | disjoin f g => Store.disjoin f g

/-- The truth value that the result of an operation is to have under an assignment, from those of the
operands. -/
def meaning (s : Store) (v : Nat → Bool) : Operation → Bool
  | ofVar i => v i
  | negate f => !s.eval v f
  | conjoin f g => s.eval v f && s.eval v g
  | disjoin f g => s.eval v f || s.eval v g

end Operation

/-- Bounds on the first variable of what was made are needed inside an operation only. -/
theorem Store.Makes.unbounded {s : Store} {meaning : (Nat → Bool) → Bool} {bound : Nat → Prop}
    {out : Nat × Store} (h : Makes s meaning bound out) : Makes s meaning (fun _ => False) out where
  wellFormed := h.wellFormed
  extends_ := h.extends_
  lt_size := h.lt_size
  eval_eq := h.eval_eq
  from_ _ hk := hk.elim

/-- An operation on references to a well-formed store makes the diagram of its meaning. -/
theorem Operation.run_makes {s : Store} (h : s.WellFormed) (o : Operation)
    (ho : ∀ f ∈ o.operands, f < s.size) :
    Makes s (fun v => o.meaning s v) (fun _ => False) (o.run.run s) := by
  cases o with
  | ofVar i => exact (ofVar_makes h i).unbounded
  | negate f => exact (negate_makes h (ho f (by simp [operands]))).unbounded
  | conjoin f g =>
    have hf : f < s.size := ho f (by simp [operands])
    have hg : g < s.size := ho g (by simp [operands])
    exact (combine_makes h .and hf hg).unbounded
  | disjoin f g =>
    have hf : f < s.size := ho f (by simp [operands])
    have hg : g < s.size := ho g (by simp [operands])
    exact (combine_makes h .or hf hg).unbounded

/-! ## Reached stores -/

/-- The stores that operations reach from the empty store, each with the references that have been issued:
those of false and true, and what the operations returned, the last first.  An operation is given issued
references only. -/
inductive Reached : Store → List Nat → Prop where
  | empty : Reached Store.empty [falseRef, trueRef]
  | run {s : Store} {issued : List Nat} (h : Reached s issued) (o : Operation)
      (ho : ∀ f ∈ o.operands, f ∈ issued) :
      Reached (o.run.run s).2 ((o.run.run s).1 :: issued)

namespace Reached

variable {s : Store} {issued : List Nat}

/-- Every reached store is well formed and holds the issued references. -/
theorem wellFormed_and_lt_size (h : Reached s issued) :
    s.WellFormed ∧ ∀ f ∈ issued, f < s.size := by
  induction h with
  | empty =>
    constructor
    · exact wellFormed_empty
    · intro f hf
      have : f = falseRef ∨ f = trueRef := by simpa using hf
      rcases this with rfl | rfl <;> decide
  | @run s issued _ o ho ih =>
    obtain ⟨hw, hlt⟩ := ih
    have hm := o.run_makes hw fun f hf => hlt f (ho f hf)
    constructor
    · exact hm.wellFormed
    · -- the store only grows, so what was issued before is still in it
      intro f hf
      rcases List.mem_cons.1 hf with rfl | hf
      · exact hm.lt_size
      · exact Nat.lt_of_lt_of_le (hlt f hf) hm.extends_.size_le

/-- Every store that operations reach is well formed. -/
theorem wellFormed (h : Reached s issued) : s.WellFormed := h.wellFormed_and_lt_size.1

/-- Every reference that was issued is one of the store. -/
theorem lt_size (h : Reached s issued) {f : Nat} (hf : f ∈ issued) : f < s.size :=
  h.wellFormed_and_lt_size.2 f hf

/-- False and true are issued from the beginning. -/
theorem falseRef_mem (h : Reached s issued) : falseRef ∈ issued := by
  induction h with
  | empty => simp
  | run _ _ _ ih => exact List.mem_cons_of_mem _ ih

theorem trueRef_mem (h : Reached s issued) : trueRef ∈ issued := by
  induction h with
  | empty => simp
  | run _ _ _ ih => exact List.mem_cons_of_mem _ ih

/-- What an operation returns on a reached store is a diagram of that store whose truth value is the
operation's, and every diagram that was issued before keeps its truth value, under every assignment. -/
theorem run_denotes (h : Reached s issued) (o : Operation) (ho : ∀ f ∈ o.operands, f ∈ issued) :
    (o.run.run s).1 < (o.run.run s).2.size ∧
      (∀ v, (o.run.run s).2.eval v (o.run.run s).1 = o.meaning s v) ∧
      ∀ f ∈ issued, ∀ v, (o.run.run s).2.eval v f = s.eval v f := by
  have hm := o.run_makes h.wellFormed fun f hf => h.lt_size (ho f hf)
  refine ⟨hm.lt_size, hm.eval_eq, ?_⟩
  intro f hf v
  exact hm.extends_.eval_eq v (h.lt_size hf)

end Reached

/-! ## A disjunction -/

/-- The store of two variables, of which the later one was made first. -/
def twoVariables : Store :=
  (Store.empty.push ⟨1, falseRef, trueRef⟩).push ⟨0, falseRef, trueRef⟩

theorem reached_twoVariables : Reached twoVariables [3, 2, falseRef, trueRef] := by
  have hlater : (Operation.ofVar 1).run.run Store.empty =
      (2, Store.empty.push ⟨1, falseRef, trueRef⟩) := by
    rw [Operation.run, ofVar, make_eq]
    simp [Store.empty, size, falseRef, trueRef]
  have hearlier : (Operation.ofVar 0).run.run (Store.empty.push ⟨1, falseRef, trueRef⟩) =
      (3, twoVariables) := by
    rw [Operation.run, ofVar, make_eq]
    simp [twoVariables, Store.empty, Store.push, size, falseRef, trueRef]
  have h := (Reached.empty.run (.ofVar 1) (by simp [Operation.operands])).run (.ofVar 0)
    (by simp [Operation.operands])
  rw [hlater, hearlier] at h
  exact h

/-- The store of two variables after their disjunction. -/
def eitherStore : Store := ((Operation.disjoin 2 3).run.run twoVariables).2

theorem reached_either : Reached eitherStore [4, 3, 2, falseRef, trueRef] := by
  have hresult : ((Operation.disjoin 2 3).run.run twoVariables).1 = 4 := by
    rw [Operation.run, disjoin, combine, combineWithin_succ]
    simp [Connective.shortcut?, twoVariables, Store.empty, Store.push, size, falseRef, trueRef, node?,
      cofactors, combineWithin_succ, finishCombination, make_eq]
  have h := reached_twoVariables.run (.disjoin 2 3) (by decide)
  rw [hresult] at h
  exact h

/-- The negation of the disjunction is true where the disjunction is false, and the disjunction is what it
was. -/
theorem Reached.run_denotes_either :
    Reached eitherStore [4, 3, 2, falseRef, trueRef] ∧
      (∀ f ∈ (Operation.negate 4).operands, f ∈ [4, 3, 2, falseRef, trueRef]) ∧
      (∀ v, ((Operation.negate 4).run.run eitherStore).2.eval v
        ((Operation.negate 4).run.run eitherStore).1 = !eitherStore.eval v 4) ∧
      ∀ v, ((Operation.negate 4).run.run eitherStore).2.eval v 4 = eitherStore.eval v 4 := by
  have ho : ∀ f ∈ (Operation.negate 4).operands, f ∈ [4, 3, 2, falseRef, trueRef] := by decide
  obtain ⟨-, hresult, hissued⟩ := Reached.run_denotes reached_either (.negate 4) ho
  exact ⟨reached_either, ho, hresult, hissued 4 (by decide)⟩

end TimedInference.Diagram
