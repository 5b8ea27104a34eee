import Mathlib.Data.Set.Function
import TimedInference.Proofs.Grounding.LeastModel

/-!
# Renamed variables

The variables of a term can be renamed by a function on names (`Term.rename`).  When no two variables of some
patterns get the same name, the renamed patterns are joined to the same bindings, under the new names
(`AtomIndex.exists_join_rename`).  So a rule whose variables stay apart is joined as before and, when it is safe,
has the same instances (`Rule.bindsAlike`, `Rule.mem_instances_rename`).
-/

namespace TimedInference

/-! ## Terms -/

namespace Term

variable {ρ ρ' : String → String}

/-- The term with its variables renamed. -/
def rename (ρ : String → String) (t : Term) : Term := t.instantiate fun x => .var (ρ x)

@[simp] theorem rename_var (x : String) : (var x).rename ρ = var (ρ x) := rfl

/-- A compound is renamed through its arguments. -/
@[simp] theorem rename_compound (f : String) (ts : List Term) :
    (compound f ts).rename ρ = compound f (ts.map (rename ρ)) := by
  simp only [rename, instantiate, instantiateAll_eq_map]
  rfl

/-- The variables of a renamed term are the new names of its variables. -/
@[simp] theorem occurrences_rename (t : Term) : (t.rename ρ).occurrences = t.occurrences.map ρ := by
  induction t with
  | var x => rfl
  | int n => rfl
  | compound f ts ih =>
    simp only [rename_compound, occurrences, allOccurrences_eq_flatMap, List.flatMap_map,
      List.map_flatMap]
    exact List.flatMap_congr ih

/-- An instance of a renamed term is one of the term. -/
theorem instantiate_rename (σ : String → Term) (t : Term) :
    (t.rename ρ).instantiate σ = t.instantiate fun x => σ (ρ x) := by
  induction t with
  | var x => rfl
  | int n => rfl
  | compound f ts ih =>
    simp only [rename_compound, instantiate, instantiateAll_eq_map, List.map_map]
    congr 1
    exact List.map_congr_left ih

/-- Renaming back gives the term again. -/
theorem rename_rename_eq_self {t : Term} (h : ∀ x ∈ t.occurrences, ρ' (ρ x) = x) :
    (t.rename ρ).rename ρ' = t := by
  rw [rename, instantiate_rename]
  induction t with
  | var x => exact congrArg var (h x List.mem_cons_self)
  | int n => rfl
  | compound f ts ih =>
    simp only [occurrences, allOccurrences_eq_flatMap, List.mem_flatMap] at h
    rw [instantiate, instantiateAll_eq_map]
    congr 1
    calc ts.map (instantiate fun x => var (ρ' (ρ x))) = ts.map id :=
          List.map_congr_left fun t ht => ih t ht fun x hx => h x ⟨t, ht, hx⟩
      _ = ts := List.map_id ts

/-- Bindings that give the renamed variables what others give the variables take the renamed term where these
take the term. -/
theorem substitute_rename {b d : Bindings} {t : Term}
    (h : ∀ x ∈ t.occurrences, lookup d (ρ x) = lookup b x) :
    (t.rename ρ).substitute d = t.substitute b := by
  rw [substitute_eq_instantiate, substitute_eq_instantiate, instantiate_rename]
  exact instantiate_congr h

end Term

/-! ## Bindings of listed variables -/

namespace Bindings

/-- What a function gives for the variables of a list. -/
def restrict (σ : String → Term) (names : List String) : Bindings :=
  names.foldr (fun x b => b.insert x (σ x)) ∅

/-- Restricted bindings bind the given variables only. -/
theorem getElem?_restrict (σ : String → Term) (names : List String) (x : String) :
    (restrict σ names)[x]? = if x ∈ names then some (σ x) else none := by
  induction names with
  | nil => simp [restrict]
  | cons y ys ih =>
    have hcons : restrict σ (y :: ys) = (restrict σ ys).insert y (σ y) := rfl
    rw [hcons, Std.ExtTreeMap.getElem?_insert, ih]
    by_cases hy : y = x
    · subst hy
      simp
    · simp [hy, Ne.symm hy]

theorem mem_restrict {σ : String → Term} {names : List String} {x : String} :
    x ∈ restrict σ names ↔ x ∈ names := by
  rw [mem_iff_exists]
  simp [getElem?_restrict]

variable {ρ ρ' : String → String} {atoms patterns : List Term} {b : Bindings}

/-- The bindings of the variables of patterns under their new names, which lead back to the old ones. -/
def renamed (ρ ρ' : String → String) (patterns : List Term) (b : Bindings) : Bindings :=
  restrict (fun y => Term.lookup b (ρ' y)) ((patterns.map (Term.rename ρ)).flatMap Term.occurrences)

/-- A variable with its new name is bound to what it was bound to. -/
theorem Solves.getElem?_renamed (h : Solves ∅ atoms patterns b)
    (hρ : ∀ t ∈ patterns, ∀ x ∈ t.occurrences, ρ' (ρ x) = x) {x : String} (hx : ρ' (ρ x) = x) :
    (renamed ρ ρ' patterns b)[ρ x]? = b[x]? := by
  have hoccurs : ρ x ∈ (patterns.map (Term.rename ρ)).flatMap Term.occurrences ↔ x ∈ b := by
    rw [h.mem_iff]
    simp only [List.mem_flatMap, List.mem_map, exists_exists_and_eq_and, Term.occurrences_rename,
      Std.ExtTreeMap.not_mem_empty, false_or]
    constructor
    · rintro ⟨t, ht, y, hy, hxy⟩
      have hback := congrArg ρ' hxy
      rw [hρ t ht y hy, hx] at hback
      subst hback
      exact ⟨t, ht, hy⟩
    · rintro ⟨t, ht, hxt⟩
      exact ⟨t, ht, x, hxt, rfl⟩
  rw [renamed, getElem?_restrict, hx]
  cases hu : b[x]? with
  | some u => rw [if_pos (hoccurs.2 (mem_iff_exists.2 ⟨u, hu⟩)), Term.lookup, hu, Option.getD_some]
  | none =>
    rw [if_neg]
    intro hmem
    obtain ⟨u, hu'⟩ := mem_iff_exists.1 (hoccurs.1 hmem)
    rw [hu] at hu'
    cases hu'

/-- Bindings that solve some patterns solve the renamed ones under the new names. -/
theorem Solves.rename (h : Solves ∅ atoms patterns b)
    (hρ : ∀ t ∈ patterns, ∀ x ∈ t.occurrences, ρ' (ρ x) = x) :
    Solves ∅ atoms (patterns.map (Term.rename ρ)) (renamed ρ ρ' patterns b) := by
  have hinstance : ∀ t ∈ patterns,
      (t.rename ρ).substitute (renamed ρ ρ' patterns b) = t.substitute b := by
    intro t ht
    apply Term.substitute_rename
    intro x hx
    rw [Term.lookup, h.getElem?_renamed hρ (hρ t ht x hx)]
    obtain ⟨u, hu⟩ := mem_iff_exists.1 (h.bound t ht x hx)
    rw [Term.lookup, hu]
    rfl
  constructor
  · intro x t hx
    simp at hx
  · intro y
    simp [renamed, mem_restrict]
  · intro t' ht'
    obtain ⟨t, ht, rfl⟩ := List.mem_map.1 ht'
    rw [hinstance t ht]
    exact h.mem_atoms t ht
  · intro t' ht'
    obtain ⟨t, ht, rfl⟩ := List.mem_map.1 ht'
    rw [hinstance t ht]
    exact h.isCompound t ht

end Bindings

/-! ## Joins -/

namespace AtomIndex

variable {ρ ρ' : String → String}

/-- A variable is known under its new name when it was under the old one. -/
theorem isKnown_rename {known : List String} {t : Term} (hknown : ∀ x ∈ known, ρ' (ρ x) = x)
    (ht : ∀ x ∈ t.occurrences, ρ' (ρ x) = x) :
    (t.rename ρ).isKnown (known.map ρ) = t.isKnown known := by
  cases t with
  | var x =>
    rw [Term.rename_var, Term.isKnown, Term.isKnown, Bool.eq_iff_iff, List.contains_iff_mem,
      List.contains_iff_mem, List.mem_map]
    constructor
    · rintro ⟨y, hy, hxy⟩
      have hback := congrArg ρ' hxy
      rw [hknown y hy, ht x List.mem_cons_self] at hback
      rwa [← hback]
    · intro hx
      exact ⟨x, hx, rfl⟩
  | int n => rfl
  | compound f ts =>
    rw [Term.rename_compound]
    rfl

/-- Renamed patterns can be looked up from left to right when the patterns can. -/
theorem searchable_rename {patterns : List Term} {known : List String}
    (hknown : ∀ x ∈ known, ρ' (ρ x) = x)
    (hpatterns : ∀ t ∈ patterns, ∀ x ∈ t.occurrences, ρ' (ρ x) = x) :
    searchable (known.map ρ) (patterns.map (Term.rename ρ)) = searchable known patterns := by
  induction patterns generalizing known with
  | nil => rfl
  | cons t ts ih =>
    rw [List.forall_mem_cons] at hpatterns
    have hnext : ∀ x ∈ known ++ t.occurrences, ρ' (ρ x) = x := by
      intro x hx
      exact (List.mem_append.1 hx).elim (hknown x) (hpatterns.1 x)
    rw [List.map_cons, searchable, searchable, isKnown_rename hknown hpatterns.1,
      Term.occurrences_rename, ← List.map_append, ih hnext hpatterns.2]

/-- Renamed patterns are joined to the same bindings under the new names. -/
theorem exists_join_rename {atoms : List Term} (ha : GroundAtoms atoms) {patterns : List Term}
    (hρ : ∀ t ∈ patterns, ∀ x ∈ t.occurrences, ρ' (ρ x) = x) {b : Bindings}
    (hb : b ∈ (ofList atoms).join patterns) :
    ∃ d ∈ (ofList atoms).join (patterns.map (Term.rename ρ)), ∀ x, ρ' (ρ x) = x → d[ρ x]? = b[x]? := by
  obtain ⟨hsearch, hs⟩ := (mem_join_iff ha).1 hb
  have hsearch' : searchable [] (patterns.map (Term.rename ρ)) = true := by
    have hnone : ∀ x ∈ ([] : List String), ρ' (ρ x) = x := by simp
    rw [← hsearch]
    exact searchable_rename hnone hρ
  exact ⟨_, (mem_join_iff ha).2 ⟨hsearch', hs.rename hρ⟩, fun x hx => hs.getElem?_renamed hρ hx⟩

end AtomIndex

/-! ## Rules -/

/-- The literal with its variables renamed. -/
def Literal.rename (ρ : String → String) (l : Literal) : Literal := ⟨l.atom.rename ρ, l.positive⟩

namespace Rule

variable {ρ ρ' : String → String} {r : Rule}

/-- The rule with its variables renamed. -/
def rename (ρ : String → String) (r : Rule) : Rule := ⟨r.head.rename ρ, r.body.map (Literal.rename ρ)⟩

/-- The names of the variables of a rule at their occurrences. -/
def names (r : Rule) : List String :=
  r.head.occurrences ++ r.body.flatMap fun l => l.atom.occurrences

theorem positives_rename : (r.rename ρ).positives = r.positives.map (Term.rename ρ) := by
  simp only [positives, rename, List.filter_map, List.map_map]
  rfl

/-- The names in a renamed rule are the new names. -/
theorem names_rename : (r.rename ρ).names = r.names.map ρ := by
  simp [names, rename, Literal.rename, List.flatMap_map, List.map_flatMap]

/-- Renaming there and back leaves a rule, when the way back is right for its names. -/
theorem rename_rename_eq_self (h : ∀ x ∈ r.names, ρ' (ρ x) = x) : (r.rename ρ).rename ρ' = r := by
  obtain ⟨head, body⟩ := r
  have hhead : (head.rename ρ).rename ρ' = head :=
    Term.rename_rename_eq_self fun x hx => h x (List.mem_append_left _ hx)
  have hbody : (body.map (Literal.rename ρ)).map (Literal.rename ρ') = body := by
    rw [List.map_map]
    calc body.map (Literal.rename ρ' ∘ Literal.rename ρ) = body.map id := by
          apply List.map_congr_left
          intro l hl
          have hatom : (l.atom.rename ρ).rename ρ' = l.atom := by
            apply Term.rename_rename_eq_self
            intro x hx
            exact h x (List.mem_append_right _ (List.mem_flatMap.2 ⟨l, hl, hx⟩))
          simp only [Function.comp_apply, Literal.rename, hatom, id_eq]
      _ = body := List.map_id body
  rw [rename, rename, hhead, hbody]

/-- The variables of positive literals are names of the rule. -/
theorem mem_names_of_mem_positives {t : Term} (ht : t ∈ r.positives) {x : String}
    (hx : x ∈ t.occurrences) : x ∈ r.names := by
  obtain ⟨l, hl, -, rfl⟩ := mem_positives.1 ht
  exact List.mem_append_right _ (List.mem_flatMap.2 ⟨l, hl, hx⟩)

/-- Over any ground atoms, the body of a rule and that of the renamed rule admit the same bindings. -/
def BindsAlike (ρ : String → String) (r : Rule) : Prop :=
  ∀ atoms, GroundAtoms atoms →
    (∀ b ∈ (AtomIndex.ofList atoms).join r.positives,
      ∃ d ∈ (AtomIndex.ofList atoms).join (r.rename ρ).positives, ∀ x ∈ r.names, d[ρ x]? = b[x]?) ∧
    ∀ d ∈ (AtomIndex.ofList atoms).join (r.rename ρ).positives,
      ∃ b ∈ (AtomIndex.ofList atoms).join r.positives, ∀ x ∈ r.names, d[ρ x]? = b[x]?

/-- A rule whose variables stay apart binds them as before. -/
theorem bindsAlike (h : Set.InjOn ρ {x | x ∈ r.names}) : r.BindsAlike ρ := by
  -- the way back from the new names
  have hback : ∀ x ∈ r.names, Function.invFunOn ρ {x | x ∈ r.names} (ρ x) = x := fun x hx =>
    h.leftInvOn_invFunOn hx
  intro atoms ha
  constructor
  · intro b hb
    obtain ⟨d, hd, hlookup⟩ := AtomIndex.exists_join_rename ha
      (fun t ht x hx => hback x (mem_names_of_mem_positives ht hx)) hb
    rw [← positives_rename] at hd
    exact ⟨d, hd, fun x hx => hlookup x (hback x hx)⟩
  · intro d hd
    have hforth : ∀ t ∈ (r.rename ρ).positives, ∀ y ∈ t.occurrences,
        ρ (Function.invFunOn ρ {x | x ∈ r.names} y) = y := by
      intro t ht y hy
      have hmem := mem_names_of_mem_positives ht hy
      rw [names_rename] at hmem
      obtain ⟨x, hx, rfl⟩ := List.mem_map.1 hmem
      rw [hback x hx]
    obtain ⟨b, hb, hlookup⟩ := AtomIndex.exists_join_rename ha hforth hd
    rw [← positives_rename, rename_rename_eq_self hback] at hb
    refine ⟨b, hb, ?_⟩
    intro x hx
    have hx' := hlookup (ρ x) (by rw [hback x hx])
    rw [hback x hx] at hx'
    exact hx'.symm

/-- A safe rule binds all its variables. -/
theorem mem_bound_of_mem_names (hsafe : r.unbound? = none) {x : String} (hx : x ∈ r.names) :
    x ∈ r.bound := by
  have hneeded := unbound?_eq_none_iff.1 hsafe
  rcases List.mem_append.1 hx with hx | hx
  · exact hneeded x (List.mem_append_left _ (Term.mem_variables.2 hx))
  · obtain ⟨l, hl, hxl⟩ := List.mem_flatMap.1 hx
    cases hpos : l.positive with
    | true => exact mem_bound.2 ⟨l, hl, hpos, hxl⟩
    | false =>
      apply hneeded x (List.mem_append_right _ (List.mem_flatMap.2 ⟨l.atom, ?_, Term.mem_variables.2 hxl⟩))
      exact List.mem_map.2 ⟨l, List.mem_filter.2 ⟨hl, by simp [hpos]⟩, rfl⟩

/-- Bindings of the renamed rule that correspond to those of the rule give the same instance. -/
theorem instance_rename {b d : Bindings} (hbound : ∀ x ∈ r.names, x ∈ b)
    (hlookup : ∀ x ∈ r.names, d[ρ x]? = b[x]?) (possible : TermSet) :
    ((r.rename ρ).head.substitute d, (r.rename ρ).instanceBody possible d) =
      (r.head.substitute b, r.instanceBody possible b) := by
  have hterm : ∀ t : Term, (∀ x ∈ t.occurrences, x ∈ r.names) →
      (t.rename ρ).substitute d = t.substitute b := by
    intro t ht
    apply Term.substitute_rename
    intro x hx
    obtain ⟨u, hu⟩ := Bindings.mem_iff_exists.1 (hbound x (ht x hx))
    rw [Term.lookup, Term.lookup, hlookup x (ht x hx), hu]
    rfl
  have hbody : (r.body.map (Literal.rename ρ)).map (Literal.substitute d) =
      r.body.map (Literal.substitute b) := by
    rw [List.map_map]
    apply List.map_congr_left
    intro l hl
    have hatom := hterm l.atom fun x hx =>
      List.mem_append_right _ (List.mem_flatMap.2 ⟨l, hl, hx⟩)
    simp only [Function.comp_apply, Literal.rename, Literal.substitute, hatom]
  rw [instanceBody, instanceBody, rename, hbody,
    hterm r.head fun x hx => List.mem_append_left _ hx]

/-- A safe rule whose variables stay apart has the same instances. -/
theorem mem_instances_rename (h : Set.InjOn ρ {x | x ∈ r.names}) (hsafe : r.unbound? = none)
    {possible : TermSet} (hground : GroundAtoms possible.toList) {entry : Term × List Literal} :
    entry ∈ (r.rename ρ).instances possible (AtomIndex.ofList possible.toList) ↔
      entry ∈ r.instances possible (AtomIndex.ofList possible.toList) := by
  obtain ⟨hforth, hback⟩ := bindsAlike h possible.toList hground
  have hbound {b : Bindings} (hb : b ∈ (AtomIndex.ofList possible.toList).join r.positives) :
      ∀ x ∈ r.names, x ∈ b := by
    intro x hx
    obtain ⟨l, hl, hpos, hxl⟩ := mem_bound.1 (mem_bound_of_mem_names hsafe hx)
    exact (AtomIndex.join_sound hground hb).bound l.atom (mem_positives.2 ⟨l, hl, hpos, rfl⟩) x hxl
  simp only [instances, List.mem_map]
  constructor
  · rintro ⟨d, hd, rfl⟩
    obtain ⟨b, hb, hlookup⟩ := hback d hd
    exact ⟨b, hb, (instance_rename (hbound hb) hlookup possible).symm⟩
  · rintro ⟨b, hb, rfl⟩
    obtain ⟨d, hd, hlookup⟩ := hforth b hb
    exact ⟨d, hd, instance_rename (hbound hb) hlookup possible⟩

end Rule

/-! ## Programs -/

variable {α : Type}

/-- The clause with its variables renamed. -/
def Clause.rename (ρ : String → String) : Clause α → Clause α
  | fact h => fact (h.rename ρ)
  | chance p h => chance p (h.rename ρ)
  | rule r => rule (r.rename ρ)

/-- The names of the variables of a clause at their occurrences. -/
def Clause.names : Clause α → List String
  | fact h => h.occurrences
  | chance _ h => h.occurrences
  | rule r => r.names

/-- The program with the variables of its clauses and queries renamed. -/
def Program.rename (ρ : String → String) (p : Program α) : Program α :=
  ⟨p.clauses.map (Clause.rename ρ), p.queries.map (Term.rename ρ)⟩

theorem Program.rename_append (ρ : String → String) (p q : Program α) :
    (p ++ q).rename ρ = p.rename ρ ++ q.rename ρ := by
  show Program.mk _ _ = Program.mk _ _
  rw [clauses_append, queries_append, List.map_append, List.map_append]
  rfl

end TimedInference
