import TimedInference.Proofs.Term.Integers
import TimedInference.Time

/-!
# Terms at another time

A term whose timestamp stands at one position of its arguments is moved by adding to the integer there
(`Term.movedArg`).  Moving by two shifts one after the other is moving by their sum
(`Term.movedArg_movedArg`).  Moving two terms by the same shift keeps their order (`Term.cmp_movedArg`), so
a map whose keys are moved lists its values in the same order (`Rekeyed.toList_eq`).
-/

namespace TimedInference

namespace Term

/-- The term with its integer argument at a position moved, whether or not the result fits; unchanged
without an integer there. -/
def movedArg (position : Nat) (shift : Int) (t : Term) : Term :=
  match t.intArg? position with
  | some time => t.withArg position (.int (time + shift))
  | none => t

/-- A move that fits. -/
theorem eq_movedArg_of_moveArg {t u : Term} {position : Nat} {shift : Int}
    (h : t.moveArg position shift = .ok u) : u = t.movedArg position shift := by
  unfold moveArg at h
  unfold movedArg
  cases hi : t.intArg? position with
  | none =>
    simp only [hi, Except.ok.injEq] at h
    exact h.symm
  | some time =>
    simp only [hi, Time.move] at h
    split at h
    · exact (Except.ok.inj h).symm
    · simp [Except.map] at h

/-! ## One argument -/

/-- An integer moved; other terms stay. -/
def movedInt (shift : Int) : Term → Term
  | int n => int (n + shift)
  | t => t

/-- Moving twice is moving by the sum. -/
theorem movedInt_movedInt (first second : Int) (t : Term) :
    (t.movedInt first).movedInt second = t.movedInt (first + second) := by
  cases t with
  | int n => simp [movedInt, Int.add_assoc]
  | _ => rfl

/-- Terms compare alike after a move. -/
theorem cmp_movedInt (shift : Int) (t u : Term) :
    (t.movedInt shift).cmp (u.movedInt shift) = t.cmp u := by
  have hm : Increasing fun n => n + shift := fun a b hab => Int.add_lt_add_right hab shift
  cases t with
  | int n =>
    cases u with
    | int k => exact cmp_mapInts hm (int n) (int k)
    | _ => rfl
  | _ => cases u <;> rfl

/-- Moving a term is moving one of its arguments. -/
theorem movedArg_compound (f : String) (ts : List Term) (position : Nat) (shift : Int) :
    (compound f ts).movedArg position shift = compound f (ts.modify position (movedInt shift)) := by
  have harg : (compound f ts).intArg? position = ts[position]?.bind int? := rfl
  rw [movedArg, harg, List.modify_eq_set_getElem?]
  cases ht : ts[position]? with
  | none => rfl
  | some t =>
    have hput : ts.set position t = ts := by
      obtain ⟨hp, rfl⟩ := List.getElem?_eq_some_iff.1 ht
      exact List.set_getElem_self hp
    cases t with
    | int n => rfl
    | var x => exact congrArg (compound f) hput.symm
    | compound g us => exact congrArg (compound f) hput.symm

/-- Arguments compare alike when one position is changed by a function that keeps comparisons. -/
theorem cmpArgs_modify {g : Term → Term} (hg : ∀ t u, (g t).cmp (g u) = t.cmp u) (ts us : List Term)
    (position : Nat) : cmpArgs (ts.modify position g) (us.modify position g) = cmpArgs ts us := by
  induction ts generalizing us position with
  | nil => cases us <;> cases position <;> rfl
  | cons t ts ih =>
    cases us with
    | nil => cases position <;> rfl
    | cons u us =>
      cases position with
      | zero => rw [List.modify_zero_cons, List.modify_zero_cons, cmpArgs, cmpArgs, hg]
      | succ position =>
        rw [List.modify_succ_cons, List.modify_succ_cons, cmpArgs, cmpArgs, ih]

/-! ## Terms -/

/-- Moving by two shifts is moving by their sum. -/
theorem movedArg_movedArg (position : Nat) (first second : Int) (t : Term) :
    (t.movedArg position first).movedArg position second =
      t.movedArg position (first + second) := by
  cases t with
  | compound f ts =>
    rw [movedArg_compound, movedArg_compound, movedArg_compound, List.modify_modify_eq]
    congr 2
    funext t
    exact movedInt_movedInt first second t
  | _ => rfl

/-- Moving two terms keeps their order. -/
theorem cmp_movedArg (position : Nat) (shift : Int) (t u : Term) :
    (t.movedArg position shift).cmp (u.movedArg position shift) = t.cmp u := by
  cases t with
  | compound f ts =>
    cases u with
    | compound g us =>
      rw [movedArg_compound, movedArg_compound, cmp, cmp, cmpArgs_modify (cmp_movedInt shift)]
    | _ =>
      rw [movedArg_compound]
      rfl
  | _ =>
    cases u with
    | compound g us =>
      rw [movedArg_compound]
      rfl
    | _ => rfl

/-- Terms with different arguments stay different after a move. -/
theorem movedArg_injective (position : Nat) (shift : Int) :
    Function.Injective (movedArg position shift) := by
  intro t u h
  rw [← cmp_eq_iff, ← cmp_movedArg position shift, h]
  exact cmp_self _

end Term

/-! ## Maps -/

/-- The second map is the first one with a function applied to its keys. -/
def Rekeyed {β : Type} (f : Term → Term) (m m' : TermMap β) : Prop :=
  ∀ key value, m'[key]? = some value ↔ ∃ t, f t = key ∧ m[t]? = some value

namespace Rekeyed

variable {β : Type} {f : Term → Term} {m m' : TermMap β}

theorem empty (f : Term → Term) : Rekeyed (β := β) f ∅ ∅ := by
  intro key value
  simp

/-- A value for one more key.  Keys stay apart, so what it replaces on one side it replaces on the
other. -/
theorem insert (hf : Function.Injective f) (h : Rekeyed f m m') (t : Term) (value : β) :
    Rekeyed f (m.insert t value) (m'.insert (f t) value) := by
  intro key other
  simp only [Std.ExtTreeMap.getElem?_insert, Std.compare_eq_iff_eq]
  by_cases hkey : f t = key
  · subst hkey
    rw [if_pos rfl]
    constructor
    · intro hv
      exact ⟨t, rfl, by rwa [if_pos rfl]⟩
    · -- only the new key goes to its place, as the function keeps keys apart
      rintro ⟨u, hu, hv⟩
      rwa [if_pos (hf hu).symm] at hv
  · rw [if_neg hkey, h]
    constructor
    · rintro ⟨u, rfl, hv⟩
      have hne : t ≠ u := fun htu => hkey (congrArg f htu)
      exact ⟨u, rfl, by rwa [if_neg hne]⟩
    · rintro ⟨u, rfl, hv⟩
      have hne : t ≠ u := fun htu => hkey (congrArg f htu)
      rw [if_neg hne] at hv
      exact ⟨u, rfl, hv⟩

/-- Rows that are inserted under old and new keys keep two tables alike. -/
theorem insertMany (hf : Function.Injective f) (h : Rekeyed f m m') (entries : List (Term × β)) :
    Rekeyed f (m.insertMany entries) (m'.insertMany (entries.map fun r => (f r.1, r.2))) := by
  induction entries generalizing m m' with
  | nil => simpa using h
  | cons r entries ih =>
    rw [List.map_cons, Std.ExtTreeMap.insertMany_cons, Std.ExtTreeMap.insertMany_cons]
    exact ih (h.insert hf r.1 r.2)

/-- When the function keeps the order of terms, the second map lists what the first one lists, in the same
order. -/
theorem toList_eq (hf : ∀ t u : Term, (f t).cmp (f u) = t.cmp u) (h : Rekeyed f m m') :
    m'.toList = m.toList.map fun r => (f r.1, r.2) := by
  have hne {r q : Term × β} (hrq : r.1.cmp q.1 = .lt) : r ≠ q := by
    rintro rfl
    rw [Term.cmp_self] at hrq
    exact absurd hrq (by decide)
  have sorted (m : TermMap β) : m.toList.Pairwise fun r q => Ord.compare r.1 q.1 = .lt :=
    Std.ExtTreeMap.ordered_keys_toList
  have hs : m'.toList.Pairwise fun r q => r.1.cmp q.1 = .lt := sorted m'
  have hm : (m.toList.map fun r => (f r.1, r.2)).Pairwise fun r q => r.1.cmp q.1 = .lt := by
    rw [List.pairwise_map]
    refine (sorted m).imp fun {r q} hrq => ?_
    rw [hf]
    exact hrq
  -- both lists are sorted by key and have the same members
  refine List.Perm.eq_of_pairwise (fun r q _ _ hrq hqr => ?_) hs hm
    ((List.perm_ext_iff_of_nodup (hs.imp hne) (hm.imp hne)).2 fun r => ?_)
  · exact absurd rfl (hne (Term.cmp_lt_trans hrq hqr))
  · obtain ⟨key, value⟩ := r
    rw [Std.ExtTreeMap.mem_toList_iff_getElem?_eq_some, h, List.mem_map]
    constructor
    · rintro ⟨t, rfl, hv⟩
      exact ⟨(t, value), Std.ExtTreeMap.mem_toList_iff_getElem?_eq_some.2 hv, rfl⟩
    · rintro ⟨⟨t, v⟩, hmem, he⟩
      obtain ⟨rfl, rfl⟩ := Prod.mk.inj he
      exact ⟨t, rfl, Std.ExtTreeMap.mem_toList_iff_getElem?_eq_some.1 hmem⟩

end Rekeyed

end TimedInference
