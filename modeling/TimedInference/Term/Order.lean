import Std.Data.ExtTreeMap.Lemmas
import Std.Data.ExtTreeSet.Lemmas
import TimedInference.Term.Basic

/-!
# The order of terms

Variables come before integers and integers before compounds. Variables are ordered by name,
integers by value, and compounds by functor and then by arguments, lexicographically. This is a
total order in which only equal terms compare equal (`Term.cmp_eq_iff`), so sets and maps keyed
by terms (`TermSet`, `TermMap`) are determined by what they hold.
-/

namespace TimedInference

namespace Term

mutual

/-- The order of terms. -/
def cmp : Term → Term → Ordering
  | var x, var y => Ord.compare x y
  | var _, _ => .lt
  | int _, var _ => .gt
  | int m, int n => Ord.compare m n
  | int _, compound _ _ => .lt
  | compound f ts, compound g us => (Ord.compare f g).then (cmpArgs ts us)
  | compound _ _, _ => .gt

/-- The lexicographic order of argument lists. -/
def cmpArgs : List Term → List Term → Ordering
  | [], [] => .eq
  | [], _ :: _ => .lt
  | _ :: _, [] => .gt
  | t :: ts, u :: us => (t.cmp u).then (cmpArgs ts us)

end

/-! ## Laws -/

private theorem swap_args {ts : List Term}
    (h : ∀ t ∈ ts, ∀ u, t.cmp u = (u.cmp t).swap) (us : List Term) :
    cmpArgs ts us = (cmpArgs us ts).swap := by
  induction ts generalizing us with
  | nil => cases us <;> rfl
  | cons t ts ih =>
    cases us with
    | nil => rfl
    | cons u us =>
      rw [cmpArgs, cmpArgs, Ordering.swap_then, h t (by simp) u,
        ih (fun t ht => h t (by simp [ht])) us]

/-- Comparing the other way round gives the opposite answer. -/
theorem cmp_swap (t u : Term) : t.cmp u = (u.cmp t).swap := by
  induction t generalizing u with
  | var x =>
    cases u with
    | var y => exact @Std.OrientedCmp.eq_swap _ Ord.compare _ x y
    | _ => rfl
  | int m =>
    cases u with
    | int n => exact @Std.OrientedCmp.eq_swap _ Ord.compare _ m n
    | _ => rfl
  | compound f ts ih =>
    cases u with
    | compound g us =>
      rw [cmp, cmp, Ordering.swap_then, swap_args ih,
        @Std.OrientedCmp.eq_swap _ Ord.compare _ f g]
    | _ => rfl

private theorem eq_args {ts : List Term}
    (h : ∀ t ∈ ts, ∀ u, t.cmp u = .eq → t = u) {us : List Term}
    (e : cmpArgs ts us = .eq) : ts = us := by
  induction ts generalizing us with
  | nil => cases us <;> simp_all [cmpArgs]
  | cons t ts ih =>
    cases us with
    | nil => simp [cmpArgs] at e
    | cons u us =>
      rw [cmpArgs, Ordering.then_eq_eq] at e
      rw [h t (by simp) u e.1, ih (fun t ht => h t (by simp [ht])) e.2]

/-- Terms that compare equal are equal. -/
theorem eq_of_cmp {t u : Term} (e : t.cmp u = .eq) : t = u := by
  induction t generalizing u with
  | var x =>
    cases u with
    | var y => rw [Std.LawfulEqOrd.eq_of_compare (a := x) (b := y) e]
    | _ => simp [cmp] at e
  | int m =>
    cases u with
    | int n => rw [Std.LawfulEqOrd.eq_of_compare (a := m) (b := n) e]
    | _ => simp [cmp] at e
  | compound f ts ih =>
    cases u with
    | compound g us =>
      rw [cmp, Ordering.then_eq_eq] at e
      rw [Std.LawfulEqOrd.eq_of_compare e.1, eq_args (fun t ht u h => ih t ht h) e.2]
    | _ => simp [cmp] at e

/-- A term compares equal to itself. -/
theorem cmp_self (t : Term) : t.cmp t = .eq := by
  have h := cmp_swap t t
  cases e : t.cmp t <;> simp_all

/-- Only a term itself compares as equal. -/
theorem cmp_eq_iff {t u : Term} : t.cmp u = .eq ↔ t = u :=
  ⟨eq_of_cmp, fun e => e ▸ cmp_self t⟩

private theorem lt_trans_args {ts : List Term}
    (h : ∀ t ∈ ts, ∀ u v, t.cmp u = .lt → u.cmp v = .lt → t.cmp v = .lt)
    {us vs : List Term} (e : cmpArgs ts us = .lt) (e' : cmpArgs us vs = .lt) :
    cmpArgs ts vs = .lt := by
  induction ts generalizing us vs with
  | nil => cases us <;> cases vs <;> simp_all [cmpArgs]
  | cons t ts ih =>
    cases us with
    | nil => simp [cmpArgs] at e
    | cons u us =>
      cases vs with
      | nil => simp [cmpArgs] at e'
      | cons v vs =>
        rw [cmpArgs, Ordering.then_eq_lt] at e e' ⊢
        rcases e with e | ⟨e, r⟩ <;> rcases e' with e' | ⟨e', r'⟩
        · exact .inl (h t (by simp) u v e e')
        · exact .inl (eq_of_cmp e' ▸ e)
        · exact .inl (eq_of_cmp e ▸ e')
        · exact .inr ⟨(eq_of_cmp e).trans (eq_of_cmp e') ▸ cmp_self v,
            ih (fun t ht => h t (by simp [ht])) r r'⟩

/-- The order of terms is transitive. -/
theorem cmp_lt_trans {t u v : Term} (e : t.cmp u = .lt) (e' : u.cmp v = .lt) :
    t.cmp v = .lt := by
  induction t generalizing u v with
  | var x =>
    cases u <;> cases v <;> simp only [cmp, reduceCtorEq] at e e' ⊢
    exact Std.TransCmp.lt_trans e e'
  | int m =>
    cases u <;> cases v <;> simp only [cmp, reduceCtorEq] at e e' ⊢
    exact Std.TransCmp.lt_trans e e'
  | compound f ts ih =>
    cases u <;> cases v <;> simp only [cmp, reduceCtorEq] at e e' ⊢
    rw [Ordering.then_eq_lt] at e e' ⊢
    rcases e with e | ⟨e, r⟩ <;> rcases e' with e' | ⟨e', r'⟩
    · exact .inl (Std.TransCmp.lt_trans e e')
    · exact .inl (Std.LawfulEqOrd.eq_of_compare e' ▸ e)
    · exact .inl (Std.LawfulEqOrd.eq_of_compare e ▸ e')
    · exact .inr ⟨by rw [Std.LawfulEqOrd.eq_of_compare e, e'],
        lt_trans_args (fun t ht u v => ih t ht) r r'⟩

instance : Ord Term := ⟨Term.cmp⟩

instance : Std.LawfulEqOrd Term where
  compare_self := cmp_self _
  eq_of_compare := eq_of_cmp

instance : Std.TransOrd Term where
  eq_swap := cmp_swap _ _
  isLE_trans {t u v} h h' := by
    change (t.cmp u).isLE at h
    change (u.cmp v).isLE at h'
    change (t.cmp v).isLE
    cases e : t.cmp u with
    | gt => simp [e] at h
    | eq => rwa [eq_of_cmp e]
    | lt =>
      cases e' : u.cmp v with
      | gt => simp [e'] at h'
      | eq => rw [← eq_of_cmp e', e]; rfl
      | lt => rw [cmp_lt_trans e e']; rfl

instance : DecidableEq Term := fun t u =>
  decidable_of_iff (t.cmp u = .eq) cmp_eq_iff

end Term

/-- A finite set of terms, listed in the order of terms. -/
abbrev TermSet := Std.ExtTreeSet Term

/-- A set lists each member once. -/
theorem TermSet.nodup_toList (s : TermSet) : s.toList.Nodup :=
  s.distinct_toList.imp fun hne he => hne (Std.compare_eq_iff_eq.2 he)

/-- A finite map from terms, listed in the order of terms. -/
abbrev TermMap (β : Type) := Std.ExtTreeMap Term β

end TimedInference
