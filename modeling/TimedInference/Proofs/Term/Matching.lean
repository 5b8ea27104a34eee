import Std.Data.ExtTreeMap.Lemmas
import TimedInference.Term.Substitution

/-!
# Instances of terms, and matching

An instance of a term replaces every variable, by one function on all names (`Term.instantiate`).
Bindings are finite parts of such functions, and substitution by bindings is an instance
(`substitute_eq_instantiate`).  Matching is sound and complete with respect to instances:

* bindings that a match returns extend those it was given, bind the variables of the pattern, and
  every function that agrees with them takes the pattern to the target (`match?_sound`);
* every function that takes the pattern to the target and agrees with the given bindings agrees with
  bindings that the match returns (`match?_complete`).

So matching is exact: it finds the least bindings that extend the given ones to the variables of the pattern
and turn the pattern into the target, and fails when there are none (`match?_exact`).
-/

namespace TimedInference

namespace Term

mutual

/-- The term with every variable replaced by what a function gives for it. -/
def instantiate (σ : String → Term) : Term → Term
  | var x => σ x
  | int n => int n
  | compound f ts => compound f (instantiateAll σ ts)

/-- The terms with every variable replaced by what a function gives for it. -/
def instantiateAll (σ : String → Term) : List Term → List Term
  | [] => []
  | t :: ts => t.instantiate σ :: instantiateAll σ ts

end

@[simp] theorem instantiateAll_eq_map (σ : String → Term) (ts : List Term) :
    instantiateAll σ ts = ts.map (instantiate σ) := by
  induction ts with
  | nil => rfl
  | cons t ts ih => rw [instantiateAll, ih, List.map_cons]

/-- An instance depends on the variables of the term only. -/
theorem instantiate_congr {σ τ : String → Term} {t : Term}
    (h : ∀ x ∈ t.occurrences, σ x = τ x) : t.instantiate σ = t.instantiate τ := by
  induction t with
  | var x => exact h x (by simp [occurrences])
  | int n => rfl
  | compound f ts ih =>
    simp only [occurrences, allOccurrences_eq_flatMap, List.mem_flatMap] at h
    rw [instantiate, instantiate, instantiateAll_eq_map, instantiateAll_eq_map,
      List.map_congr_left fun t ht => ih t ht fun x hx => h x ⟨t, ht, hx⟩]

/-- A ground term is its own instance. -/
theorem instantiate_of_isGround {t : Term} (h : t.isGround = true) (σ : String → Term) :
    t.instantiate σ = t := by
  have hid : t.instantiate σ = t.instantiate var :=
    instantiate_congr fun x hx => by simp [isGround_iff.1 h] at hx
  rw [hid]
  clear hid h
  induction t with
  | var x => rfl
  | int n => rfl
  | compound f ts ih =>
    rw [instantiate, instantiateAll_eq_map, List.map_congr_left ih, List.map_id']

/-- An instance by ground terms is ground. -/
theorem isGround_instantiate {σ : String → Term} {t : Term}
    (h : ∀ x ∈ t.occurrences, (σ x).isGround = true) : (t.instantiate σ).isGround = true := by
  induction t with
  | var x => exact h x (by simp [occurrences])
  | int n => rfl
  | compound f ts ih =>
    simp only [occurrences, allOccurrences_eq_flatMap, List.mem_flatMap] at h
    simp only [instantiate, instantiateAll_eq_map, isGround, areGround_eq_all, List.all_eq_true,
      List.mem_map]
    rintro _ ⟨t, ht, rfl⟩
    exact ih t ht fun x hx => h x ⟨t, ht, hx⟩

/-- What bindings give for a name; an unbound variable stays. -/
def lookup (b : Bindings) (x : String) : Term := b[x]?.getD (var x)

/-- Substituting bindings is instantiating by what they bind. -/
theorem substitute_eq_instantiate (b : Bindings) (t : Term) :
    t.substitute b = t.instantiate (lookup b) := by
  induction t with
  | var x => rfl
  | int n => rfl
  | compound f ts ih =>
    rw [substitute, instantiate, substituteAll_eq_map, instantiateAll_eq_map,
      List.map_congr_left ih]

end Term

namespace Bindings

open Term

/-- A function gives for every bound variable what it is bound to. -/
def Agrees (b : Bindings) (σ : String → Term) : Prop :=
  ∀ (x : String) (t : Term), b[x]? = some t → σ x = t

/-- Every variable is bound to a ground term. -/
def Ground (b : Bindings) : Prop :=
  ∀ (x : String) (t : Term), b[x]? = some t → t.isGround = true

/-- The second bindings bind what the first ones bind, to the same terms. -/
def Extends (b d : Bindings) : Prop :=
  ∀ (x : String) (t : Term), b[x]? = some t → d[x]? = some t

theorem Extends.refl (b : Bindings) : b.Extends b := fun _ _ h => h

theorem Extends.trans {b c d : Bindings} (h : b.Extends c) (h' : c.Extends d) : b.Extends d :=
  fun x t hx => h' x t (h x t hx)

/-- Functions that agree with an extension agree with what it extends. -/
theorem Extends.agrees {b c : Bindings} {σ : String → Term} (h : b.Extends c) (hc : c.Agrees σ) :
    b.Agrees σ :=
  fun x t hx => hc x t (h x t hx)

theorem agrees_empty (σ : String → Term) : Agrees ∅ σ := fun x t h => by simp at h

theorem ground_empty : Ground ∅ := fun x t h => by simp at h

/-- A variable is bound when it is bound to a term. -/
theorem mem_iff_exists {b : Bindings} {x : String} : x ∈ b ↔ ∃ t, b[x]? = some t := by
  rw [Std.ExtTreeMap.mem_iff_isSome_getElem?, Option.isSome_iff_exists]

theorem mem_of_extends {b c : Bindings} (h : b.Extends c) {x : String} (hx : x ∈ b) : x ∈ c := by
  obtain ⟨t, ht⟩ := mem_iff_exists.1 hx
  exact mem_iff_exists.2 ⟨t, h x t ht⟩

/-- Bindings agree with the function that looks variables up in them. -/
theorem agrees_lookup (b : Bindings) : b.Agrees (lookup b) := fun x t hx => by simp [lookup, hx]

theorem getElem?_insert_eq (b : Bindings) (x : String) (t : Term) (y : String) :
    (b.insert x t)[y]? = if x = y then some t else b[y]? := by
  simp [Std.ExtTreeMap.getElem?_insert]

/-- Binding a free variable extends bindings. -/
theorem extends_insert {b : Bindings} {x : String} (hx : b[x]? = none) (t : Term) :
    b.Extends (b.insert x t) := by
  intro y u hy
  rw [getElem?_insert_eq, if_neg, hy]
  rintro rfl
  rw [hx] at hy
  simp at hy

/-- Binding a variable to its value keeps agreement. -/
theorem Agrees.insert {b : Bindings} {σ : String → Term} (h : b.Agrees σ) (x : String) :
    Agrees (Std.ExtTreeMap.insert b x (σ x)) σ := by
  intro y u hy
  rw [getElem?_insert_eq] at hy
  split at hy
  · rename_i hxy
    rw [← hxy]
    exact Option.some.inj hy
  · exact h y u hy

/-- Binding a variable to a ground term keeps bindings ground. -/
theorem Ground.insert {b : Bindings} (h : b.Ground) {t : Term} (ht : t.isGround = true) (x : String) :
    Ground (Std.ExtTreeMap.insert b x t) := by
  intro y u hy
  rw [getElem?_insert_eq] at hy
  split at hy
  · rwa [← Option.some.inj hy]
  · exact h y u hy

/-- Bindings are part of others when a function that agrees with both gives them for bound variables. -/
theorem Agrees.extends_of_mem {b c : Bindings} (h : b.Agrees (lookup c)) (hmem : ∀ x ∈ b, x ∈ c) :
    b.Extends c := by
  intro x t hx
  obtain ⟨u, hu⟩ := mem_iff_exists.1 (hmem x (mem_iff_exists.2 ⟨t, hx⟩))
  have hlookup := h x t hx
  rw [lookup, hu, Option.getD_some] at hlookup
  rw [hu, hlookup]

/-- Bindings that extend others without binding more variables are the same. -/
theorem Extends.eq_of_mem {b d : Bindings} (h : b.Extends d) (hmem : ∀ x ∈ d, x ∈ b) : b = d := by
  refine Std.ExtTreeMap.ext_getElem? fun x => ?_
  cases hx : b[x]? with
  | some t => rw [h x t hx]
  | none =>
    cases hd : d[x]? with
    | none => rfl
    | some t =>
      obtain ⟨u, hu⟩ := mem_iff_exists.1 (hmem x (mem_iff_exists.2 ⟨t, hd⟩))
      rw [hx] at hu
      simp at hu

/-- Bindings of the same variables that are part of the same bindings are the same. -/
theorem Extends.eq_of_extends {b c d : Bindings} (h : b.Extends d) (h' : c.Extends d)
    (hmem : ∀ x, x ∈ b ↔ x ∈ c) : b = c := by
  have hbc : b.Extends c := by
    intro x t hx
    obtain ⟨u, hu⟩ := mem_iff_exists.1 ((hmem x).1 (mem_iff_exists.2 ⟨t, hx⟩))
    rw [hu, ← h' x u hu, h x t hx]
  exact hbc.eq_of_mem fun x => (hmem x).2

/-- Where all variables are bound, substitution gives the instance by every function that agrees. -/
theorem Agrees.substitute_eq {b : Bindings} {σ : String → Term} (h : b.Agrees σ) {t : Term}
    (ht : ∀ x ∈ t.occurrences, x ∈ b) : t.substitute b = t.instantiate σ := by
  rw [substitute_eq_instantiate]
  refine instantiate_congr fun x hx => ?_
  obtain ⟨u, hu⟩ := Option.isSome_iff_exists.1 (Std.ExtTreeMap.mem_iff_isSome_getElem?.1 (ht x hx))
  rw [lookup, hu, h x u hu]
  rfl

/-- Further bindings do not change a term whose variables are bound. -/
theorem Extends.substitute_eq {b c : Bindings} (h : b.Extends c) {t : Term}
    (ht : ∀ x ∈ t.occurrences, x ∈ b) : t.substitute b = t.substitute c := by
  rw [(h.agrees (agrees_lookup c)).substitute_eq ht, substitute_eq_instantiate]

/-- Substituting first does not change an instance that agrees with ground bindings. -/
theorem Agrees.instantiate_substitute {b : Bindings} {σ : String → Term} (h : b.Agrees σ)
    (hg : b.Ground) (t : Term) : (t.substitute b).instantiate σ = t.instantiate σ := by
  induction t with
  | var x =>
    show (b[x]?.getD (var x)).instantiate σ = σ x
    cases hx : b[x]? with
    | none => rfl
    | some u => rw [Option.getD_some, instantiate_of_isGround (hg x u hx), h x u hx]
  | int n => rfl
  | compound f ts ih =>
    simp only [substitute, instantiate, substituteAll_eq_map, instantiateAll_eq_map, List.map_map]
    rw [show ts.map (instantiate σ ∘ substitute b) = ts.map (instantiate σ) from
      List.map_congr_left ih]

end Bindings

namespace Term

open Bindings

/-- The variables that are left by ground bindings are those that are not bound. -/
theorem mem_occurrences_substitute {b : Bindings} (hb : b.Ground) {t : Term} {x : String} :
    x ∈ (t.substitute b).occurrences ↔ x ∈ t.occurrences ∧ x ∉ b := by
  induction t with
  | var y =>
    rw [substitute]
    cases hy : b[y]? with
    | none =>
      have hn : y ∉ b := by simp [mem_iff_exists, hy]
      simp only [Option.getD_none, occurrences, List.mem_singleton, iff_self_and]
      rintro rfl
      exact hn
    | some u =>
      have hm : y ∈ b := mem_iff_exists.2 ⟨u, hy⟩
      simp only [Option.getD_some, isGround_iff.1 (hb y u hy), occurrences, List.not_mem_nil,
        List.mem_singleton, false_iff, not_and, Classical.not_not]
      rintro rfl
      exact hm
  | int n => simp [substitute, occurrences]
  | compound f ts ih =>
    simp only [substitute, occurrences, allOccurrences_eq_flatMap, substituteAll_eq_map,
      List.mem_flatMap, List.mem_map]
    constructor
    · rintro ⟨_, ⟨t, ht, rfl⟩, hx⟩
      exact ⟨⟨t, ht, ((ih t ht).1 hx).1⟩, ((ih t ht).1 hx).2⟩
    · rintro ⟨⟨t, ht, hx⟩, hn⟩
      exact ⟨_, ⟨t, ht, rfl⟩, (ih t ht).2 ⟨hx, hn⟩⟩

/-- The terms that the variables of a ground instance stand for are ground. -/
theorem isGround_of_mem_occurrences {σ : String → Term} {t : Term}
    (h : (t.instantiate σ).isGround = true) : ∀ x ∈ t.occurrences, (σ x).isGround = true := by
  induction t with
  | var y =>
    intro x hx
    obtain rfl := List.mem_singleton.1 hx
    exact h
  | int n => simp [occurrences]
  | compound f ts ih =>
    simp only [instantiate, instantiateAll_eq_map, isGround, areGround_eq_all, List.all_map,
      List.all_eq_true] at h
    simp only [occurrences, allOccurrences_eq_flatMap, List.mem_flatMap]
    rintro x ⟨t, ht, hx⟩
    exact ih t ht (h t ht) x hx

/-! ## Soundness of matching -/

/-- What a match from `b` to `c` of patterns with the given variables against the given targets
establishes. -/
structure Matches (b c : Bindings) (names : List String) (patterns targets : List Term) : Prop where
  extends_ : b.Extends c
  bound : ∀ x ∈ names, x ∈ c
  mem : ∀ x ∈ c, x ∈ b ∨ x ∈ names
  ground : b.Ground → (∀ t ∈ targets, t.isGround = true) → c.Ground
  instantiate_eq : ∀ σ, c.Agrees σ → patterns.map (instantiate σ) = targets

/-- Matches of a term and then of others are matches of all of them. -/
theorem Matches.cons {b c d : Bindings} {xs ys : List String} {p t : Term} {ps ts : List Term}
    (h : Matches b c xs [p] [t]) (h' : Matches c d ys ps ts) :
    Matches b d (xs ++ ys) (p :: ps) (t :: ts) where
  extends_ := h.extends_.trans h'.extends_
  bound x hx := by
    rcases List.mem_append.1 hx with hx | hx
    · exact mem_of_extends h'.extends_ (h.bound x hx)
    · exact h'.bound x hx
  mem x hx := by
    rcases h'.mem x hx with hc | hy
    · rcases h.mem x hc with hb | hx
      · exact .inl hb
      · exact .inr (List.mem_append_left ys hx)
    · exact .inr (List.mem_append_right xs hy)
  ground hb hts := by
    rw [List.forall_mem_cons] at hts
    exact h'.ground (h.ground hb (by simpa using hts.1)) hts.2
  instantiate_eq σ hd := by
    have hp := h.instantiate_eq σ (h'.extends_.agrees hd)
    rw [List.map_cons, List.map_nil, List.cons.injEq] at hp
    rw [List.map_cons, hp.1, h'.instantiate_eq σ hd]

/-- A variable that is bound to the target matches it. -/
theorem Matches.bound_var {b : Bindings} {x : String} {t : Term} (hx : b[x]? = some t) :
    Matches b b (var x).occurrences [var x] [t] where
  extends_ := Extends.refl b
  bound y hy := by
    obtain rfl : y = x := by simpa [occurrences] using hy
    exact mem_iff_exists.2 ⟨t, hx⟩
  mem y hy := .inl hy
  ground hb _ := hb
  instantiate_eq σ hσ := by rw [List.map_cons, List.map_nil, instantiate, hσ x t hx]

/-- A variable that is not bound matches every target, and is bound to it. -/
theorem Matches.free_var {b : Bindings} {x : String} (hx : b[x]? = none) (t : Term) :
    Matches b (b.insert x t) (var x).occurrences [var x] [t] where
  extends_ := extends_insert hx t
  bound y hy := by
    obtain rfl : y = x := by simpa [occurrences] using hy
    simp
  mem y hy := by
    simp only [Std.ExtTreeMap.mem_insert, Std.compare_eq_iff_eq] at hy
    rcases hy with rfl | hy
    · exact .inr (by simp [occurrences])
    · exact .inl hy
  ground hb ht := hb.insert (ht t (by simp)) x
  instantiate_eq σ hσ := by
    rw [List.map_cons, List.map_nil, instantiate, hσ x t (by rw [getElem?_insert_eq, if_pos rfl])]

/-- Matching the arguments one after the other, when each match is sound. -/
private theorem matchAll?_sound_of {ps : List Term}
    (h : ∀ p ∈ ps, ∀ t b c, p.match? t b = some c → Matches b c p.occurrences [p] [t])
    {ts : List Term} {b c : Bindings} (hc : matchAll? ps ts b = some c) :
    Matches b c (allOccurrences ps) ps ts := by
  induction ps generalizing ts b with
  | nil =>
    cases ts with
    | nil =>
      obtain rfl : b = c := by simpa [matchAll?] using hc
      exact ⟨Extends.refl b, by simp [allOccurrences], fun x hx => .inl hx, fun hb _ => hb,
        fun _ _ => rfl⟩
    | cons t ts => simp [matchAll?] at hc
  | cons p ps ih =>
    cases ts with
    | nil => simp [matchAll?] at hc
    | cons t ts =>
      rw [matchAll?] at hc
      cases hp : p.match? t b with
      | none => simp [hp] at hc
      | some d =>
        rw [hp] at hc
        exact (h p (by simp) t b d hp).cons (ih (fun q hq => h q (by simp [hq])) hc)

/-- Bindings that a match returns take the pattern to the target. -/
theorem match?_sound {p t : Term} {b c : Bindings} (h : p.match? t b = some c) :
    Matches b c p.occurrences [p] [t] := by
  induction p generalizing t b c with
  | var x =>
    rw [match?] at h
    cases hx : b[x]? with
    | some u =>
      simp only [hx, Option.ite_none_right_eq_some, Option.some.injEq] at h
      obtain ⟨rfl, rfl⟩ := h
      exact .bound_var hx
    | none =>
      simp only [hx, Option.some.injEq] at h
      subst h
      exact .free_var hx t
  | int m =>
    cases t with
    | int n =>
      simp only [match?, Option.ite_none_right_eq_some, Option.some.injEq] at h
      obtain ⟨rfl, rfl⟩ := h
      exact ⟨Extends.refl b, by simp [occurrences], fun x hx => .inl hx, fun hb _ => hb,
        fun _ _ => rfl⟩
    | _ => simp [match?] at h
  | compound f ps ih =>
    cases t with
    | compound g ts =>
      simp only [match?, Option.ite_none_right_eq_some] at h
      obtain ⟨rfl, h⟩ := h
      have hm := matchAll?_sound_of (fun p hp t b c => ih p hp) h
      refine ⟨hm.extends_, hm.bound, hm.mem, fun hb ht => hm.ground hb ?_, fun σ hσ => ?_⟩
      · simpa [isGround, areGround_eq_all] using ht
      · rw [List.map_cons, List.map_nil, instantiate, instantiateAll_eq_map,
          hm.instantiate_eq σ hσ]
    | _ => simp [match?] at h

/-! ## Completeness of matching -/

private theorem matchAll?_complete_of {σ : String → Term} {ps : List Term}
    (h : ∀ p ∈ ps, ∀ b : Bindings, b.Agrees σ →
      ∃ c, p.match? (p.instantiate σ) b = some c ∧ c.Agrees σ)
    {b : Bindings} (hb : b.Agrees σ) :
    ∃ c, matchAll? ps (ps.map (instantiate σ)) b = some c ∧ c.Agrees σ := by
  induction ps generalizing b with
  | nil => exact ⟨b, rfl, hb⟩
  | cons p ps ih =>
    obtain ⟨c, hc, hcσ⟩ := h p (by simp) b hb
    obtain ⟨d, hd, hdσ⟩ := ih (fun q hq => h q (by simp [hq])) hcσ
    exact ⟨d, by rw [List.map_cons, matchAll?, hc]; exact hd, hdσ⟩

/-- A function that agrees with the given bindings agrees with bindings under which the pattern matches
its instance. -/
theorem match?_complete {σ : String → Term} (p : Term) {b : Bindings} (hb : b.Agrees σ) :
    ∃ c, p.match? (p.instantiate σ) b = some c ∧ c.Agrees σ := by
  induction p generalizing b with
  | var x =>
    rw [instantiate, match?]
    cases hx : b[x]? with
    | some u => exact ⟨b, by simp [hb x u hx], hb⟩
    | none => exact ⟨b.insert x (σ x), rfl, hb.insert x⟩
  | int n => exact ⟨b, by simp [instantiate, match?], hb⟩
  | compound f ps ih =>
    obtain ⟨c, hc, hcσ⟩ := matchAll?_complete_of (fun p hp b hb => ih p hp hb) hb
    exact ⟨c, by simpa [instantiate, match?] using hc, hcσ⟩

/-- A pattern matches its instances and nothing else. -/
theorem isSome_match?_iff {p t : Term} :
    (p.match? t ∅).isSome = true ↔ ∃ σ : String → Term, p.instantiate σ = t := by
  rw [Option.isSome_iff_exists]
  constructor
  · rintro ⟨c, hc⟩
    exact ⟨lookup c, by simpa using (match?_sound hc).instantiate_eq _ (agrees_lookup c)⟩
  · rintro ⟨σ, rfl⟩
    obtain ⟨c, hc, -⟩ := match?_complete p (agrees_empty σ)
    exact ⟨c, hc⟩

/-! ## Matching is exact -/

/-- Some bindings extend others to the variables of a pattern, and turn the pattern into a target. -/
structure TurnsInto (b : Bindings) (p t : Term) (c : Bindings) : Prop where
  extends_ : b.Extends c
  bound : ∀ x ∈ p.occurrences, x ∈ c
  substitute_eq : p.substitute c = t

/-- After a match, the bound variables are those before it and those of the patterns. -/
theorem Matches.mem_iff {b c : Bindings} {names : List String} {patterns targets : List Term}
    (h : Matches b c names patterns targets) {x : String} : x ∈ c ↔ x ∈ b ∨ x ∈ names := by
  refine ⟨h.mem x, ?_⟩
  rintro (hx | hx)
  · exact mem_of_extends h.extends_ hx
  · exact h.bound x hx

/-- A match turns the pattern into the target. -/
theorem Matches.turnsInto {b c : Bindings} {p t : Term} (h : Matches b c p.occurrences [p] [t]) :
    TurnsInto b p t c where
  extends_ := h.extends_
  bound := h.bound
  substitute_eq := by
    have heq := h.instantiate_eq (lookup c) (agrees_lookup c)
    rw [List.map_cons, List.map_nil, List.cons.injEq] at heq
    rw [substitute_eq_instantiate, heq.1]

/-- Where some bindings turn a pattern into a target, matching finds a part of them. -/
theorem TurnsInto.exists_match? {b d : Bindings} {p t : Term} (h : TurnsInto b p t d) :
    ∃ c, p.match? t b = some c ∧ c.Extends d := by
  obtain ⟨c, hc, hagrees⟩ := match?_complete p (h.extends_.agrees (agrees_lookup d))
  rw [← substitute_eq_instantiate, h.substitute_eq] at hc
  refine ⟨c, hc, hagrees.extends_of_mem fun x hx => ?_⟩
  rcases (match?_sound hc).mem x hx with hx | hx
  · exact mem_of_extends h.extends_ hx
  · exact h.bound x hx

/-- Matching succeeds exactly when some extension of the bindings to the variables of the pattern turns the
pattern into the target, and fails otherwise.  It returns the one that binds no other variable, which is a
part of every such extension. -/
theorem match?_exact (p t : Term) (b : Bindings) :
    ((∃ c, p.match? t b = some c) ↔ ∃ d, TurnsInto b p t d) ∧
      (p.match? t b = none ↔ ¬ ∃ d, TurnsInto b p t d) ∧
      (∀ c, p.match? t b = some c ↔
        TurnsInto b p t c ∧ ∀ x, x ∈ c ↔ x ∈ b ∨ x ∈ p.occurrences) ∧
      ∀ c d, p.match? t b = some c → TurnsInto b p t d → c.Extends d := by
  have hleast {c d : Bindings} (hc : p.match? t b = some c) (hd : TurnsInto b p t d) : c.Extends d := by
    obtain ⟨c', hc', hcd⟩ := hd.exists_match?
    obtain rfl := Option.some.inj (hc.symm.trans hc')
    exact hcd
  have hsome : (∃ c, p.match? t b = some c) ↔ ∃ d, TurnsInto b p t d := by
    constructor
    · rintro ⟨c, hc⟩
      exact ⟨c, (match?_sound hc).turnsInto⟩
    · rintro ⟨d, hd⟩
      obtain ⟨c, hc, -⟩ := hd.exists_match?
      exact ⟨c, hc⟩
  refine ⟨hsome, ?_, fun c => ⟨fun hc => ?_, ?_⟩, fun c d => hleast⟩
  · rw [← hsome, ← Option.isSome_iff_exists, Bool.not_eq_true, Option.isSome_eq_false_iff,
      Option.isNone_iff_eq_none]
  · exact ⟨(match?_sound hc).turnsInto, fun x => (match?_sound hc).mem_iff⟩
  · rintro ⟨hc, hmem⟩
    obtain ⟨d, hd⟩ := hsome.2 ⟨c, hc⟩
    -- the match is a part of the bindings and binds the same variables
    obtain rfl : d = c :=
      (hleast hd hc).eq_of_mem fun x hx => (match?_sound hd).mem_iff.2 ((hmem x).1 hx)
    exact hd

/-- A variable that occurs twice has to stand for the same term both times. -/
theorem match?_exact_twice :
    (∃ d, TurnsInto ∅ (compound "pair" [var "X", var "X"]) (compound "pair" [int 1, int 1]) d) ∧
      ¬ ∃ d, TurnsInto ∅ (compound "pair" [var "X", var "X"]) (compound "pair" [int 1, int 2]) d := by
  refine ⟨(match?_exact _ _ _).1.1 ⟨_, rfl⟩, (match?_exact _ _ _).2.1.1 ?_⟩
  decide +kernel

/-! ## Matching under bindings -/

/-- A match of a pattern under ground bindings binds the variables of the pattern, and turns it into the
target. -/
theorem match?_substitute_sound {p t : Term} {b c : Bindings} (hb : b.Ground)
    (h : (p.substitute b).match? t b = some c) :
    b.Extends c ∧ (∀ x, x ∈ c ↔ x ∈ b ∨ x ∈ p.occurrences) ∧ p.substitute c = t := by
  have hm := match?_sound h
  refine ⟨hm.extends_, fun x => ⟨fun hx => ?_, ?_⟩, ?_⟩
  · exact (hm.mem x hx).imp_right fun hx => ((mem_occurrences_substitute hb).1 hx).1
  · rintro (hx | hx)
    · exact mem_of_extends hm.extends_ hx
    · by_cases hxb : x ∈ b
      · exact mem_of_extends hm.extends_ hxb
      · exact hm.bound x ((mem_occurrences_substitute hb).2 ⟨hx, hxb⟩)
  · have he := hm.instantiate_eq (lookup c) (agrees_lookup c)
    rw [List.map_cons, List.map_nil, List.cons.injEq,
      (hm.extends_.agrees (agrees_lookup c)).instantiate_substitute hb] at he
    rw [substitute_eq_instantiate, he.1]

/-- A pattern matches its instance by bindings that extend the given ones, and the match takes no more of
them than it needs. -/
theorem exists_match?_substitute {p : Term} {b c : Bindings} (hb : b.Ground) (hbc : b.Extends c)
    (hp : ∀ x ∈ p.occurrences, x ∈ c) :
    ∃ d, (p.substitute b).match? (p.substitute c) b = some d ∧ d.Extends c := by
  have hagrees := hbc.agrees (agrees_lookup c)
  obtain ⟨d, hd, hdσ⟩ := match?_complete (p.substitute b) hagrees
  rw [hagrees.instantiate_substitute hb, ← substitute_eq_instantiate] at hd
  refine ⟨d, hd, hdσ.extends_of_mem fun x hx => ?_⟩
  rcases ((match?_substitute_sound hb hd).2.1 x).1 hx with hx | hx
  · exact mem_of_extends hbc hx
  · exact hp x hx

end Term

end TimedInference
