import Mathlib.Data.List.Basic
import TimedInference.Term.Substitution

/-!
# The integers of a term

The integers that occur in a term can be replaced by a function on integers (`Term.mapInts`).  A strictly
increasing one (`Increasing`) keeps the order of terms (`Term.cmp_mapInts`), so it carries a set of terms
to a set with the corresponding list (`TermSet.toList_mapInts`).  Substitution and matching do not look at
integers beyond comparing them, and so commute with it (`Term.mapInts_substitute`, `Term.match?_mapInts`).
-/

namespace TimedInference

/-- A function on integers that keeps their strict order. -/
def Increasing (m : Int → Int) : Prop := ∀ ⦃a b : Int⦄, a < b → m a < m b

/-- An increasing function keeps integers apart. -/
theorem Increasing.injective {m : Int → Int} (h : Increasing m) : Function.Injective m := by
  intro a b hab
  rcases Int.lt_trichotomy a b with hlt | rfl | hlt
  · exact absurd hab (Int.ne_of_lt (h hlt))
  · rfl
  · exact absurd hab.symm (Int.ne_of_lt (h hlt))

namespace Term

/-! ## Integers -/

mutual

/-- The integers of a term at their occurrences, from left to right. -/
def integers : Term → List Int
  | var _ => []
  | int n => [n]
  | compound _ ts => allIntegers ts

/-- The integers of terms at their occurrences, from left to right. -/
def allIntegers : List Term → List Int
  | [] => []
  | t :: ts => t.integers ++ allIntegers ts

end

@[simp] theorem allIntegers_eq_flatMap (ts : List Term) : allIntegers ts = ts.flatMap integers := by
  induction ts with
  | nil => rfl
  | cons t ts ih => rw [allIntegers, ih, List.flatMap_cons]

mutual

/-- The term with a function applied to its integers. -/
def mapInts (m : Int → Int) : Term → Term
  | var x => var x
  | int n => int (m n)
  | compound f ts => compound f (mapAllInts m ts)

/-- The terms with a function applied to their integers. -/
def mapAllInts (m : Int → Int) : List Term → List Term
  | [] => []
  | t :: ts => t.mapInts m :: mapAllInts m ts

end

@[simp] theorem mapAllInts_eq_map (m : Int → Int) (ts : List Term) :
    mapAllInts m ts = ts.map (mapInts m) := by
  induction ts with
  | nil => rfl
  | cons t ts ih => rw [mapAllInts, ih, List.map_cons]

variable {m : Int → Int}

/-- A function that changes no integer of a term changes nothing. -/
theorem mapInts_eq_self {t : Term} (h : ∀ n ∈ t.integers, m n = n) : t.mapInts m = t := by
  induction t with
  | var x => rfl
  | int n => rw [mapInts, h n (by simp [integers])]
  | compound f ts ih =>
    simp only [integers, allIntegers_eq_flatMap, List.mem_flatMap] at h
    have hs : ts.map (mapInts m) = ts.map id :=
      List.map_congr_left fun t ht => ih t ht fun n hn => h n ⟨t, ht, hn⟩
    rw [mapInts, mapAllInts_eq_map, hs, List.map_id]

/-- Two functions applied one after the other do what one function does, when they agree with it on the
integers of the term. -/
theorem mapInts_mapInts {u f : Int → Int} {t : Term} (h : ∀ n ∈ t.integers, u (m n) = f n) :
    (t.mapInts m).mapInts u = t.mapInts f := by
  induction t with
  | var x => rfl
  | int n => rw [mapInts, mapInts, mapInts, h n (by simp [integers])]
  | compound g ts ih =>
    simp only [integers, allIntegers_eq_flatMap, List.mem_flatMap] at h
    simp only [mapInts, mapAllInts_eq_map, List.map_map, compound.injEq, true_and]
    exact List.map_congr_left fun t ht => ih t ht fun n hn => h n ⟨t, ht, hn⟩

/-- Mapping integers leaves the functor and the number of arguments. -/
@[simp] theorem functor?_mapInts (t : Term) : (t.mapInts m).functor? = t.functor? := by
  cases t <;> rfl

/-- The arguments are mapped one by one. -/
theorem args_mapInts (t : Term) : (t.mapInts m).args = t.args.map (mapInts m) := by
  cases t with
  | compound f ts => exact mapAllInts_eq_map m ts
  | _ => rfl

@[simp] theorem arity_mapInts (t : Term) : (t.mapInts m).arity = t.arity := by
  rw [arity, args_mapInts, List.length_map]
  rfl

/-- Mapping integers leaves the variables where they are. -/
@[simp] theorem occurrences_mapInts (t : Term) : (t.mapInts m).occurrences = t.occurrences := by
  induction t with
  | var x => rfl
  | int n => rfl
  | compound f ts ih =>
    simp only [mapInts, mapAllInts_eq_map, occurrences, allOccurrences_eq_flatMap, List.flatMap_map]
    exact List.flatMap_congr ih

@[simp] theorem variables_mapInts (t : Term) : (t.mapInts m).variables = t.variables := by
  show (t.mapInts m).occurrences.eraseDups = t.occurrences.eraseDups
  rw [occurrences_mapInts]

/-- Mapping integers keeps terms ground. -/
@[simp] theorem isGround_mapInts (t : Term) : (t.mapInts m).isGround = t.isGround := by
  rw [Bool.eq_iff_iff, isGround_iff, isGround_iff, occurrences_mapInts]

/-! ## Order -/

/-- A strictly increasing function on integers keeps the order of terms. -/
theorem cmp_mapInts (hm : Increasing m) (t u : Term) : (t.mapInts m).cmp (u.mapInts m) = t.cmp u := by
  induction t generalizing u with
  | var x => cases u <;> rfl
  | int n =>
    cases u with
    | int k =>
      show Ord.compare (m n) (m k) = Ord.compare n k
      -- integers are the only place where the order looks at what is renamed
      rcases Int.lt_trichotomy n k with h | rfl | h
      · rw [Int.compare_eq_lt.2 h, Int.compare_eq_lt.2 (hm h)]
      · rw [Int.compare_eq_eq.2 rfl, Int.compare_eq_eq.2 rfl]
      · rw [Int.compare_eq_gt.2 h, Int.compare_eq_gt.2 (hm h)]
    | _ => rfl
  | compound f ts ih =>
    cases u with
    | compound g us =>
      simp only [mapInts, mapAllInts_eq_map, cmp]
      congr 1
      induction ts generalizing us with
      | nil => cases us <;> rfl
      | cons t ts ihs =>
        rw [List.forall_mem_cons] at ih
        cases us with
        | nil => rfl
        | cons u us => rw [List.map_cons, List.map_cons, cmpArgs, cmpArgs, ih.1, ihs ih.2]
    | _ => rfl

/-- Terms with different integers have different images. -/
theorem mapInts_inj (hm : Increasing m) {t u : Term} : t.mapInts m = u.mapInts m ↔ t = u := by
  rw [← cmp_eq_iff, cmp_mapInts hm, cmp_eq_iff]

end Term

/-! ## Sets -/

/-- A function that keeps the order takes the list of a set to the list of its image. -/
theorem toList_eq_map_toList {β γ : Type} [Ord β] [Ord γ] [Std.TransOrd β] [Std.LawfulEqOrd β]
    [Std.TransOrd γ] [Std.LawfulEqOrd γ] {f : β → γ}
    (hf : ∀ a b, Ord.compare (f a) (f b) = Ord.compare a b) {s : Std.ExtTreeSet β}
    {s' : Std.ExtTreeSet γ} (h : ∀ c, c ∈ s' ↔ ∃ b ∈ s, f b = c) :
    s'.toList = s.toList.map f := by
  have hlt {c d : γ} (hcd : Ord.compare c d = .lt) : c ≠ d := by
    rintro rfl
    exact absurd (hcd.symm.trans Std.ReflCmp.compare_self) (by decide)
  have hs : s'.toList.Pairwise fun a b => Ord.compare a b = .lt := s'.ordered_toList
  have hm : (s.toList.map f).Pairwise fun a b => Ord.compare a b = .lt := by
    rw [List.pairwise_map]
    exact s.ordered_toList.imp fun {a b} hab => by rw [hf, hab]
  -- two ascending lists with the same members are the same list
  refine List.Perm.eq_of_pairwise (fun a b _ _ hab hba => ?_) hs hm
    ((List.perm_ext_iff_of_nodup (hs.imp hlt) (hm.imp hlt)).2 fun c => ?_)
  · exact absurd rfl (hlt (Std.TransCmp.lt_trans hab hba))
  · rw [Std.ExtTreeSet.mem_toList, h, List.mem_map]
    exact exists_congr fun b => by rw [Std.ExtTreeSet.mem_toList]

namespace TermSet

variable {m : Int → Int}

/-- The set with a function applied to the integers of its terms. -/
def mapInts (m : Int → Int) (s : TermSet) : TermSet := .ofList (s.toList.map (Term.mapInts m))

/-- The members of an image are the images of the members. -/
theorem mem_mapInts {s : TermSet} {t : Term} : t ∈ s.mapInts m ↔ ∃ u ∈ s, u.mapInts m = t := by
  simp only [mapInts, Std.ExtTreeSet.mem_ofList, List.contains_iff_mem, List.mem_map,
    Std.ExtTreeSet.mem_toList]

/-- The image of a term is in the image of a set only if the term is in the set. -/
@[simp] theorem mapInts_mem_mapInts (hm : Increasing m) {s : TermSet} {t : Term} :
    t.mapInts m ∈ s.mapInts m ↔ t ∈ s := by
  rw [mem_mapInts]
  constructor
  · rintro ⟨u, hu, he⟩
    rwa [← (Term.mapInts_inj hm).1 he]
  · intro h
    exact ⟨t, h, rfl⟩

theorem contains_mapInts (hm : Increasing m) (s : TermSet) (t : Term) :
    (s.mapInts m).contains (t.mapInts m) = s.contains t := by
  rw [Bool.eq_iff_iff, ← Std.ExtTreeSet.mem_iff_contains, ← Std.ExtTreeSet.mem_iff_contains,
    mapInts_mem_mapInts hm]

/-- The image of a set lists the images of its members in their order, as the order of terms is kept. -/
theorem toList_mapInts (hm : Increasing m) (s : TermSet) :
    (s.mapInts m).toList = s.toList.map (Term.mapInts m) :=
  toList_eq_map_toList (Term.cmp_mapInts hm) fun _ => mem_mapInts

/-- No two members of a set become one. -/
theorem size_mapInts (hm : Increasing m) (s : TermSet) : (s.mapInts m).size = s.size := by
  rw [← Std.ExtTreeSet.length_toList, ← Std.ExtTreeSet.length_toList, toList_mapInts hm,
    List.length_map]

/-- A set that holds the images of a list is the image of the list's set. -/
theorem ofList_map (ts : List Term) :
    (Std.ExtTreeSet.ofList (ts.map (Term.mapInts m)) : TermSet) =
      mapInts m (Std.ExtTreeSet.ofList ts) := by
  ext t
  simp only [mem_mapInts, Std.ExtTreeSet.mem_ofList, List.contains_iff_mem, List.mem_map]

/-- Inserting commutes with mapping integers. -/
theorem insert_mapInts (s : TermSet) (t : Term) :
    (s.mapInts m).insert (t.mapInts m) = mapInts m (s.insert t) := by
  ext u
  simp only [Std.ExtTreeSet.mem_insert, mem_mapInts, Std.compare_eq_iff_eq]
  constructor
  · rintro (rfl | ⟨v, hv, rfl⟩)
    · exact ⟨t, .inl rfl, rfl⟩
    · exact ⟨v, .inr hv, rfl⟩
  · rintro ⟨v, rfl | hv, rfl⟩
    · exact .inl rfl
    · exact .inr ⟨v, hv, rfl⟩

/-- Removing commutes with increasing functions, as no other member has the same image. -/
theorem erase_mapInts (hm : Increasing m) (s : TermSet) (t : Term) :
    (s.mapInts m).erase (t.mapInts m) = mapInts m (s.erase t) := by
  ext u
  simp only [Std.ExtTreeSet.mem_erase, mem_mapInts, ne_eq, Std.compare_eq_iff_eq]
  constructor
  · rintro ⟨hne, v, hv, rfl⟩
    exact ⟨v, ⟨fun he => hne (by rw [he]), hv⟩, rfl⟩
  · rintro ⟨v, ⟨hne, hv⟩, rfl⟩
    exact ⟨fun he => hne ((Term.mapInts_inj hm).1 he), v, hv, rfl⟩

end TermSet

/-! ## Substitution and matching -/

namespace Bindings

variable {m : Int → Int}

/-- The bindings with a function applied to the integers of the terms. -/
def mapInts (m : Int → Int) (b : Bindings) : Bindings := b.map fun _ t => t.mapInts m

/-- A variable is bound to the image of its term. -/
@[simp] theorem getElem?_mapInts (b : Bindings) (x : String) :
    (b.mapInts m)[x]? = b[x]?.map (Term.mapInts m) := by
  rw [mapInts, Std.ExtTreeMap.getElem?_map]

@[simp] theorem mapInts_empty : mapInts m ∅ = ∅ := by
  refine Std.ExtTreeMap.ext_getElem? fun x => ?_
  rw [getElem?_mapInts]
  simp

/-- Binding a variable commutes with mapping integers. -/
theorem mapInts_insert (b : Bindings) (x : String) (t : Term) :
    (mapInts m (b.insert x t)) = (b.mapInts m).insert x (t.mapInts m) := by
  refine Std.ExtTreeMap.ext_getElem? fun y => ?_
  rw [getElem?_mapInts, Std.ExtTreeMap.getElem?_insert, Std.ExtTreeMap.getElem?_insert,
    getElem?_mapInts]
  split <;> rfl

end Bindings

namespace Term

variable {m : Int → Int}

/-- Substitution commutes with mapping integers in the term and in the bindings. -/
theorem mapInts_substitute (b : Bindings) (t : Term) :
    (t.substitute b).mapInts m = (t.mapInts m).substitute (b.mapInts m) := by
  induction t with
  | var x =>
    rw [substitute, mapInts, substitute, Bindings.getElem?_mapInts]
    cases b[x]? <;> rfl
  | int n => rfl
  | compound f ts ih =>
    simp only [substitute, substituteAll_eq_map, mapInts, mapAllInts_eq_map, List.map_map,
      compound.injEq, true_and]
    exact List.map_congr_left ih

/-- Matching looks at integers only to compare them. -/
theorem match?_mapInts (hm : Increasing m) (p t : Term) (b : Bindings) :
    (p.mapInts m).match? (t.mapInts m) (b.mapInts m) =
      (p.match? t b).map (Bindings.mapInts m) := by
  induction p generalizing t b with
  | var x =>
    simp only [mapInts, match?, Bindings.getElem?_mapInts]
    -- the variable is bound to a renamed term, or to the target of either match
    cases b[x]? with
    | none => rw [Option.map_none, Option.map_some, Bindings.mapInts_insert]
    | some u =>
      simp only [Option.map_some, mapInts_inj hm]
      split <;> rfl
  | int n =>
    cases t with
    | int k =>
      simp only [mapInts, match?, hm.injective.eq_iff]
      split <;> rfl
    | _ => rfl
  | compound f ps ih =>
    cases t with
    | compound g ts =>
      simp only [mapInts, match?, mapAllInts_eq_map]
      split
      · induction ps generalizing ts b with
        | nil => cases ts <;> rfl
        | cons p ps ihs =>
          rw [List.forall_mem_cons] at ih
          cases ts with
          | nil => rfl
          | cons t ts =>
            simp only [List.map_cons, matchAll?, ih.1]
            cases p.match? t b with
            | none => rfl
            | some c => exact ihs ih.2 c ts
      · rfl
    | _ => rfl

end Term

end TimedInference
