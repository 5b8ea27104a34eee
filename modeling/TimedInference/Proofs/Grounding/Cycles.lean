import TimedInference.Number.Rational
import TimedInference.Proofs.Grounding.Relevance

/-!
# Cycles

Atoms can be put in order exactly when none of them depends on itself, directly or through others.  The
walk finds the order when there is one: an atom is finished after everything that it leads to, because
what is met but not yet finished leads to the atom that the walk is at (`Walk.visit_sorted`).  So the
check of the order finds nothing misplaced unless there is a cycle (`Definitions.exists_order`), and an order
leaves no room for a cycle (`Definitions.not_onCycle_of_order`).  Grounding therefore refuses a program for a
cycle exactly when an atom that its queries need is on one (`Program.ground_cyclic_iff`).
-/

namespace TimedInference

open Relation

/-! ## Walks without cycles -/

namespace Walk

variable {next : Term → List Term} {atoms : List Term} {fuel : Nat} {w w' : Walk} {a b : Term}

/-- All that an atom of a list leads to directly stands after it. -/
def Sorted (next : Term → List Term) : List Term → Prop
  | [] => True
  | a :: rest => (∀ x ∈ next a, x ∈ rest) ∧ Sorted next rest

/-- One step of a walk. -/
def Step (next : Term → List Term) (a x : Term) : Prop := x ∈ next a

/-- No atom leads back to itself. -/
def Acyclic (next : Term → List Term) : Prop := ∀ a, ¬ TransGen (Step next) a a

theorem Sorted.mem_of_mem_next {order : List Term} (h : Sorted next order) {x : Term}
    (ha : a ∈ order) (hx : x ∈ next a) : x ∈ order := by
  induction order with
  | nil => simp at ha
  | cons b rest ih =>
    rcases List.mem_cons.1 ha with rfl | ha
    · exact List.mem_cons_of_mem a (h.1 x hx)
    · exact List.mem_cons_of_mem b (ih h.2 ha)

/-! ### Room -/

/-- How many atoms of a list a walk has not met. -/
def unmet (atoms : List Term) (w : Walk) : Nat := atoms.countP fun a => !w.met.contains a

theorem unmet_le (h : ∀ {x}, x ∈ w.met → x ∈ w'.met) : unmet atoms w' ≤ unmet atoms w := by
  apply List.countP_mono_left
  intro x _ hx
  rw [Bool.not_eq_true', ← Bool.not_eq_true, ← Std.ExtTreeSet.mem_iff_contains] at hx ⊢
  intro hmet
  exact hx (h hmet)

theorem unmet_insert_lt (ha : a ∈ atoms) (hmet : a ∉ w.met) :
    unmet atoms { w with met := w.met.insert a } < unmet atoms w := by
  obtain ⟨before, after, rfl⟩ := List.append_of_mem ha
  have hrest (bs : List Term) : unmet bs { w with met := w.met.insert a } ≤ unmet bs w :=
    unmet_le fun hx => Std.ExtTreeSet.mem_insert.2 (.inr hx)
  have hbefore := hrest before
  have hafter := hrest after
  have hnot : (!w.met.contains a) = true := by
    rwa [Bool.not_eq_true', ← Bool.not_eq_true, ← Std.ExtTreeSet.mem_iff_contains]
  simp only [unmet] at hbefore hafter
  simp only [unmet, List.countP_append, List.countP_cons, hnot, Std.ExtTreeSet.contains_insert_self,
    Bool.not_true, Bool.false_eq_true, if_true, if_false]
  omega

theorem mem_met_of_unmet_eq_zero (h : unmet atoms w = 0) (ha : a ∈ atoms) : a ∈ w.met := by
  have hall := List.countP_eq_zero.1 h a ha
  rw [Bool.not_eq_true', Bool.not_eq_false] at hall
  exact Std.ExtTreeSet.mem_iff_contains.2 hall

/-! ### Visits -/

/-- Where a walk stands when it comes to an atom by a relation: what is finished is sorted, and everything
else that is met is related to the atom.  There is room for as many atoms as are not met. -/
structure Approaches (next : Term → List Term) (atoms : List Term) (fuel : Nat)
    (R : Term → Term → Prop) (a : Term) (w : Walk) : Prop where
  sorted : Sorted next w.finished
  finished_or : ∀ x ∈ w.met, x ∈ w.finished ∨ R x a
  room : unmet atoms w ≤ fuel

/-- A visit that leaves what is finished sorted does not change how the walk comes to an atom. -/
theorem Approaches.visit {R : Term → Term → Prop} {inside : Term → Prop}
    (h : Approaches next atoms fuel R a w) (hleads : Leads next inside w w')
    (hsorted : Sorted next w'.finished) : Approaches next atoms fuel R a w' := by
  constructor
  · exact hsorted
  · intro x hx
    rcases hleads.new_of_met hx with hold | ⟨hnew, -, -⟩
    · exact (h.finished_or x hold).imp_left hleads.finished_of_finished
    · exact .inl hnew
  · exact Nat.le_trans (unmet_le hleads.met_of_met) h.room

/-- From an atom that was just met, the walk comes to each of those that it leads to. -/
theorem Approaches.follow (h : Approaches next atoms fuel (ReflTransGen (Step next)) a w)
    (hb : b ∈ next a) : Approaches next atoms fuel (TransGen (Step next)) b w := by
  refine ⟨h.sorted, ?_, h.room⟩
  intro x hx
  exact (h.finished_or x hx).imp_right fun hreach => TransGen.tail' hreach hb

/-- The walk comes to an atom and meets it. -/
theorem Approaches.meet (h : Approaches next atoms (fuel + 1) (TransGen (Step next)) a w)
    (ha : a ∈ atoms) (hmet : a ∉ w.met) :
    Approaches next atoms fuel (ReflTransGen (Step next)) a { w with met := w.met.insert a } := by
  constructor
  · exact h.sorted
  · intro x hx
    rcases Std.ExtTreeSet.mem_insert.1 hx with he | hx
    · obtain rfl := Std.compare_eq_iff_eq.1 he
      exact .inr .refl
    · exact (h.finished_or x hx).imp_right TransGen.to_reflTransGen
  · have hless := unmet_insert_lt ha hmet
    have hroom := h.room
    omega

/-- Visits along a list meet all of its atoms. -/
theorem mem_met_of_visits (hnext : ∀ a, ∀ x ∈ next a, x ∈ atoms) {bs : List Term}
    (hbs : ∀ b ∈ bs, b ∈ atoms) (hroom : unmet atoms w ≤ fuel)
    (h : bs.foldlM (visit next fuel) w = .ok w') : ∀ b ∈ bs, b ∈ w'.met := by
  cases fuel with
  | zero =>
    -- without room there is nothing left to meet
    intro b hb
    have hleads := foldlM_leads (fun b hb u u' hu => (visit_leads hnext (hbs b hb) hu).1) h
    exact hleads.met_of_met (mem_met_of_unmet_eq_zero (Nat.le_zero.1 hroom) (hbs b hb))
  | succ fuel =>
    have hvisit : ∀ b ∈ bs, ∀ u u', visit next (fuel + 1) u b = .ok u' →
        Leads next (· ∈ atoms) u u' ∧ b ∈ u'.met := by
      intro b hb u u' hu
      obtain ⟨hleads, hmet⟩ := visit_leads hnext (hbs b hb) hu
      exact ⟨hleads, hmet fuel.succ_pos⟩
    exact mem_met_of_foldlM hvisit h

/-- Without cycles, a visit finishes an atom after all that it leads to. -/
theorem visit_sorted (hnext : ∀ a, ∀ x ∈ next a, x ∈ atoms) (hacyclic : Acyclic next)
    (ha : a ∈ atoms) (happroaches : Approaches next atoms fuel (TransGen (Step next)) a w)
    (h : visit next fuel w a = .ok w') : Sorted next w'.finished := by
  induction fuel generalizing w w' a with
  | zero =>
    obtain rfl := Except.ok.inj h
    exact happroaches.sorted
  | succ fuel ih =>
    obtain ⟨-, rfl⟩ | ⟨hmet, -, v, hv, rfl⟩ := visit_succ_eq_ok h
    · exact happroaches.sorted
    · have hmeet := happroaches.meet ha hmet
      have hstage : Approaches next atoms fuel (ReflTransGen (Step next)) a v := by
        refine foldlM_induction (fun b hb u u' hu hvisit => ?_) hmeet hv
        have hb' := hnext a b hb
        exact hu.visit (visit_leads hnext hb' hvisit).1 (ih hb' (hu.follow hb) hvisit)
      have hall := mem_met_of_visits hnext (hnext a) hmeet.room hv
      refine ⟨fun x hx => ?_, hstage.sorted⟩
      -- an atom that is met but not finished would lead to this one, which leads to it
      rcases hstage.finished_or x (hall x hx) with hfinished | hback
      · exact hfinished
      · exact absurd (TransGen.head' hx hback) (hacyclic a)

/-- A walk from every atom of a list finishes each of them after all that it leads to. -/
theorem visitAll_sorted (hnext : ∀ a, ∀ x ∈ next a, x ∈ atoms) (hacyclic : Acyclic next)
    (h : visitAll next atoms = .ok w) : Sorted next w.finished := by
  -- between the visits, all that is met is finished
  have hstage : Approaches next atoms atoms.length (fun _ _ => False) (.atom "") w := by
    refine foldlM_induction (fun b hb u u' hu hvisit => ?_) ?_ h
    · have hfrom : Approaches next atoms atoms.length (TransGen (Step next)) b u := by
        refine ⟨hu.sorted, fun x hx => .inl ?_, hu.room⟩
        exact (hu.finished_or x hx).resolve_right id
      exact hu.visit (visit_leads hnext hb hvisit).1 (visit_sorted hnext hacyclic hb hfrom hvisit)
    · exact ⟨trivial, by simp, List.countP_le_length⟩
  exact hstage.sorted

/-- A visit fails only for an atom that leads directly to itself. -/
theorem exists_of_visit_eq_error {e : EngineError} (h : visit next fuel w a = .error e) :
    ∃ b, b ∈ next b ∧ e = .cyclic b := by
  induction fuel generalizing w a with
  | zero => cases h
  | succ fuel ih =>
    rw [visit] at h
    by_cases hmet : a ∈ w.met
    · rw [if_pos hmet] at h
      cases h
    · rw [if_neg hmet] at h
      by_cases hself : (next a).contains a = true
      · rw [if_pos hself] at h
        exact ⟨a, List.contains_iff_mem.1 hself, (Except.error.inj h).symm⟩
      · rw [if_neg hself] at h
        rcases bind_eq_error.1 h with hfold | ⟨v, -, hpure⟩
        · obtain ⟨b, -, u, hvisit⟩ := exists_of_foldlM_eq_error hfold
          exact ih hvisit
        · cases hpure

end Walk

/-! ## Orders -/

namespace Definitions

variable {d : Definitions} {relevant : TermSet} {order : List Term} {a dep : Term}

/-- An atom depends on itself, directly or through others. -/
def OnCycle (d : Definitions) (a : Term) : Prop := TransGen (fun a dep => dep ∈ d.dependencies a) a a

/-- Walking to dependents never comes back if no atom depends on itself. -/
theorem acyclic_dependents (h : ∀ a ∈ relevant, ¬ d.OnCycle a) :
    Walk.Acyclic fun atom => (d.dependents relevant.toList).getD atom [] := by
  intro a hcycle
  have hrelevant : a ∈ relevant := by
    obtain ⟨b, -, hstep⟩ := TransGen.tail'_iff.1 hcycle
    exact Std.ExtTreeSet.mem_toList.1 (mem_dependents.1 hstep).1
  apply h a hrelevant
  rw [OnCycle, ← transGen_swap]
  exact TransGen.mono (fun x y hxy => (mem_dependents.1 hxy).2) a a hcycle

/-- In a list that is sorted by dependents, no dependency is misplaced. -/
theorem misplaced?_eq_none_of_sorted {next : Term → List Term} {before : TermSet}
    (hnext : ∀ a ∈ order, ∀ dep ∈ d.dependencies a, a ∈ next dep) (hsorted : Walk.Sorted next order)
    (hnodup : order.Nodup)
    (hinside : ∀ a ∈ order, ∀ dep ∈ d.dependencies a, dep ∈ before ∨ dep ∈ order) :
    d.misplaced? before order = none := by
  induction order generalizing before with
  | nil => rfl
  | cons x rest ih =>
    rw [List.forall_mem_cons] at hnext hinside
    rw [List.nodup_cons] at hnodup
    have hfound : (d.dependencies x).find? (fun dep => !(before.insert x).contains dep) = none := by
      rw [List.find?_eq_none]
      intro dep hdep
      rw [Bool.not_eq_true', Bool.not_eq_false, ← Std.ExtTreeSet.mem_iff_contains,
        Std.ExtTreeSet.mem_insert]
      rcases hinside.1 dep hdep with hb | hmem
      · exact .inr hb
      · rcases List.mem_cons.1 hmem with rfl | hrest
        · exact .inl Std.ReflCmp.compare_self
        · -- a dependency that stands later would have its dependent still later
          exact absurd (hsorted.2.mem_of_mem_next hrest (hnext.1 dep hdep)) hnodup.1
    simp only [misplaced?, hfound]
    apply ih hnext.2 hsorted.2 hnodup.2
    intro a ha dep hdep
    rw [Std.ExtTreeSet.mem_insert]
    rcases hinside.2 a ha dep hdep with hb | hmem
    · exact .inl (.inr hb)
    · rcases List.mem_cons.1 hmem with rfl | hrest
      · exact .inl (.inl Std.ReflCmp.compare_self)
      · exact .inr hrest

theorem exists_of_misplaced?_eq_some {before : TermSet} (h : d.misplaced? before order = some dep) :
    ∃ a ∈ order, dep ∈ d.dependencies a := by
  induction order generalizing before with
  | nil => simp [misplaced?] at h
  | cons x rest ih =>
    simp only [misplaced?] at h
    cases hfound : (d.dependencies x).find? fun dep => !(before.insert x).contains dep with
    | some y =>
      rw [hfound] at h
      obtain rfl := Option.some.inj h
      exact ⟨x, List.mem_cons_self, List.mem_of_find?_eq_some hfound⟩
    | none =>
      rw [hfound] at h
      obtain ⟨a, ha, hdep⟩ := ih h
      exact ⟨a, List.mem_cons_of_mem x ha, hdep⟩

/-- Ordering fails only with the name of a relevant atom. -/
theorem exists_of_order_eq_error
    (hclosed : ∀ a ∈ relevant, ∀ dep ∈ d.dependencies a, dep ∈ relevant) {e : EngineError}
    (h : d.order relevant = .error e) : ∃ a ∈ relevant, e = .cyclic a := by
  simp only [Definitions.order] at h
  rcases bind_eq_error.1 h with hwalk | ⟨w, hw, hchecked⟩
  · obtain ⟨b, -, u, hvisit⟩ := exists_of_foldlM_eq_error hwalk
    obtain ⟨a, ha, rfl⟩ := Walk.exists_of_visit_eq_error hvisit
    exact ⟨a, Std.ExtTreeSet.mem_toList.1 (mem_dependents.1 ha).1, rfl⟩
  · cases hm : d.misplaced? ∅ w.finished with
    | none =>
      rw [hm] at hchecked
      cases hchecked
    | some dep =>
      rw [hm] at hchecked
      obtain ⟨a, ha, hdep⟩ := exists_of_misplaced?_eq_some hm
      have hrelevant : a ∈ relevant := by
        rw [← Std.ExtTreeSet.mem_toList]
        exact (Walk.mem_finished_visitAll (fun a x hx => (mem_dependents.1 hx).1) hw a).1.1 ha
      exact ⟨dep, hclosed a hrelevant dep hdep, (Except.error.inj hchecked).symm⟩

/-- Relevant atoms of which none depends on itself are ordered. -/
theorem exists_order (hclosed : ∀ a ∈ relevant, ∀ dep ∈ d.dependencies a, dep ∈ relevant)
    (hacyclic : ∀ a ∈ relevant, ¬ d.OnCycle a) : ∃ order, d.order relevant = .ok order := by
  have hnext : ∀ a, ∀ x ∈ (d.dependents relevant.toList).getD a [], x ∈ relevant.toList := by
    intro a x hx
    exact (mem_dependents.1 hx).1
  cases ho : d.order relevant with
  | ok order => exact ⟨order, rfl⟩
  | error e =>
    exfalso
    simp only [Definitions.order] at ho
    rcases bind_eq_error.1 ho with hwalk | ⟨w, hw, hchecked⟩
    · obtain ⟨b, -, u, hvisit⟩ := exists_of_foldlM_eq_error hwalk
      obtain ⟨a, ha, -⟩ := Walk.exists_of_visit_eq_error hvisit
      obtain ⟨hrelevant, hself⟩ := mem_dependents.1 ha
      exact hacyclic a (Std.ExtTreeSet.mem_toList.1 hrelevant) (TransGen.single hself)
    · have hfinished (a : Term) : a ∈ w.finished ↔ a ∈ relevant := by
        rw [← Std.ExtTreeSet.mem_toList]
        exact (Walk.mem_finished_visitAll hnext hw a).1
      have hnone : d.misplaced? ∅ w.finished = none := by
        apply misplaced?_eq_none_of_sorted _
          (Walk.visitAll_sorted hnext (acyclic_dependents hacyclic) hw)
          (Walk.nodup_finished_visitAll hnext hw)
        · intro a ha dep hdep
          exact .inr ((hfinished dep).2 (hclosed a ((hfinished a).1 ha) dep hdep))
        · intro a ha dep hdep
          exact mem_dependents.2 ⟨Std.ExtTreeSet.mem_toList.2 ((hfinished a).1 ha), hdep⟩
      rw [hnone] at hchecked
      cases hchecked

/-- In an order, what an atom depends on stands before it, however many steps away. -/
theorem lt_of_transGen (h : d.order relevant = .ok order) {i : Nat} (ha : order[i]? = some a)
    (hdep : TransGen (fun a dep => dep ∈ d.dependencies a) a dep) :
    ∃ j < i, order[j]? = some dep := by
  induction hdep with
  | single hstep => exact lt_of_mem_dependencies h ha hstep
  | tail _ hstep ih =>
    obtain ⟨j, hj, hb⟩ := ih
    obtain ⟨k, hk, hc⟩ := lt_of_mem_dependencies h hb hstep
    exact ⟨k, Nat.lt_trans hk hj, hc⟩

/-- Where there is an order, no atom in it depends on itself. -/
theorem not_onCycle_of_order (h : d.order relevant = .ok order) (ha : a ∈ relevant) :
    ¬ d.OnCycle a := by
  intro hcycle
  obtain ⟨i, hi⟩ := List.mem_iff_getElem?.1 ((mem_order_iff h).2 ha)
  obtain ⟨j, hlt, hj⟩ := lt_of_transGen h hi hcycle
  have heq : i = j :=
    (List.getElem?_inj (List.getElem?_eq_some_iff.1 hi).1 (nodup_order h)).1 (hi.trans hj.symm)
  omega

end Definitions

/-! ## Programs -/

namespace Program

open Term

variable {α : Type} {p : Program α} {possible : TermSet}

/-- An atom that the queries need: a possible instance of a query, or an atom that such an instance depends
on, directly or through others. -/
def Needs (p : Program α) (possible : TermSet) (a : Term) : Prop :=
  ∃ q ∈ possible, (∃ pattern ∈ p.queries, ∃ σ, pattern.instantiate σ = q) ∧
    ReflTransGen (p.DependsOn possible) q a

/-- The possible atoms that are asked for are the possible instances of queries. -/
theorem mem_queryAtoms_iff_of_mem {q : Term} (hq : q ∈ possible) :
    q ∈ p.queryAtoms possible ↔ ∃ pattern ∈ p.queries, ∃ σ, pattern.instantiate σ = q := by
  rw [mem_queryAtoms_iff]
  constructor
  · rintro (⟨hquery, hg⟩ | ⟨-, pattern, hpattern, -, hσ⟩)
    · exact ⟨q, hquery, .var, instantiate_of_isGround hg .var⟩
    · exact ⟨pattern, hpattern, hσ⟩
  · rintro ⟨pattern, hpattern, σ, rfl⟩
    cases hg : pattern.isGround with
    | true =>
      rw [instantiate_of_isGround hg]
      exact .inl ⟨hpattern, hg⟩
    | false => exact .inr ⟨hq, pattern, hpattern, hg, σ, rfl⟩

/-- What the queries need are the relevant atoms. -/
theorem mem_relevant_iff_needs (hground : GroundAtoms possible.toList) {a : Term} :
    a ∈ (Definitions.ofRules p.rules possible).relevant possible (p.queryAtoms possible) ↔
      p.Needs possible a := by
  rw [mem_relevant_iff hground]
  constructor
  · rintro ⟨q, hqueried, hq, hreach⟩
    exact ⟨q, hq, (mem_queryAtoms_iff_of_mem hq).1 hqueried, hreach⟩
  · rintro ⟨q, hq, hasked, hreach⟩
    exact ⟨q, (mem_queryAtoms_iff_of_mem hq).2 hasked, hq, hreach⟩

theorem onCycle_ofRules {a : Term} :
    (Definitions.ofRules p.rules possible).OnCycle a ↔ TransGen (p.DependsOn possible) a a := by
  rw [Definitions.OnCycle, dependencies_ofRules_eq]

/-- Grounding over possible atoms fails where their ordering does. -/
theorem groundOver_eq_error_iff {e : EngineError} :
    p.groundOver possible = .error e ↔
      (Definitions.ofRules p.rules possible).order
        ((Definitions.ofRules p.rules possible).relevant possible (p.queryAtoms possible)) =
          .error e := by
  simp only [groundOver]
  constructor
  · intro h
    rcases bind_eq_error.1 h with horder | ⟨order, -, hpure⟩
    · exact horder
    · cases hpure
  · intro h
    exact bind_eq_error.2 (.inl h)

/-- Grounding over ground atoms succeeds exactly when no atom that the queries need depends on itself, and
otherwise fails with the name of an atom that they need. -/
theorem groundOver_settles (hground : GroundAtoms possible.toList) :
    ((∃ g, p.groundOver possible = .ok g) ∧
        ¬ ∃ a, p.Needs possible a ∧ TransGen (p.DependsOn possible) a a) ∨
      ∃ a, p.groundOver possible = .error (.cyclic a) ∧ p.Needs possible a ∧
        ∃ b, p.Needs possible b ∧ TransGen (p.DependsOn possible) b b := by
  have hneeds (a : Term) : a ∈ (Definitions.ofRules p.rules possible).relevant possible
      (p.queryAtoms possible) ↔ p.Needs possible a := mem_relevant_iff_needs hground
  have hclosed : ∀ a ∈ (Definitions.ofRules p.rules possible).relevant possible
      (p.queryAtoms possible), ∀ dep ∈ (Definitions.ofRules p.rules possible).dependencies a,
      dep ∈ (Definitions.ofRules p.rules possible).relevant possible (p.queryAtoms possible) := by
    intro a ha dep hdep
    rw [hneeds] at ha ⊢
    obtain ⟨q, hq, hasked, hreach⟩ := ha
    exact ⟨q, hq, hasked, hreach.tail (mem_dependencies_ofRules.1 hdep)⟩
  cases hover : p.groundOver possible with
  | ok g =>
    obtain ⟨order, hg⟩ := groundsTo_of_groundOver hover
    refine .inl ⟨⟨g, rfl⟩, ?_⟩
    rintro ⟨a, ha, hcycle⟩
    exact Definitions.not_onCycle_of_order hg.order_eq ((hneeds a).2 ha) (onCycle_ofRules.2 hcycle)
  | error e =>
    have horder := groundOver_eq_error_iff.1 hover
    obtain ⟨a, ha, rfl⟩ := Definitions.exists_of_order_eq_error hclosed horder
    refine .inr ⟨a, rfl, (hneeds a).1 ha, ?_⟩
    by_contra hnone
    have hacyclic : ∀ b ∈ (Definitions.ofRules p.rules possible).relevant possible
        (p.queryAtoms possible), ¬ (Definitions.ofRules p.rules possible).OnCycle b := by
      intro b hb hcycle
      exact hnone ⟨b, (hneeds b).1 hb, onCycle_ofRules.1 hcycle⟩
    obtain ⟨order, hok⟩ := Definitions.exists_order hclosed hacyclic
    rw [hok] at horder
    cases horder

/-- The rule instances by ground terms, for a program whose positive literals are compounds: an atom depends
on the derivable atoms among the literals of an instance whose positive literals are derivable. -/
theorem dependsOn_iff_derivable (hp : p.Safe) (hc : p.CompoundBodies) {limit : Nat}
    (hpossible : p.possible limit = .ok possible) {a b : Term} :
    p.DependsOn possible a b ↔ ∃ r ∈ p.rules, ∃ σ, IsGrounding σ ∧
      (∀ l ∈ r.body, l.positive = true → p.Derivable (l.atom.instantiate σ)) ∧
      r.head.instantiate σ = a ∧ ∃ l ∈ r.body, l.atom.instantiate σ = b ∧ p.Derivable b := by
  have hderivable (a : Term) : a ∈ possible ↔ p.Derivable a := mem_possible_iff hp hc hpossible
  rw [dependsOn_iff hp hc (groundAtoms_of_derivable hp (derivable_of_mem_possible hp hpossible))]
  simp only [hderivable]

/-- A program that passes the check and whose possible atoms are found is refused for a cycle exactly when
an atom that its queries need depends on itself, and the atom that is named is one that they need; otherwise
it is grounded.  An atom depends on the atoms of its rule instances, which for compound positive literals are
those by ground terms whose positive literals are derivable; a negated literal counts when its atom is
derivable. -/
theorem ground_cyclic_iff [Probability α] {limit : Nat} (hcheck : p.check = .ok ())
    (hpossible : p.possible limit = .ok possible) :
    ((∃ a, (p.ground limit).outcome = .error (.cyclic a)) ↔
        ∃ a, p.Needs possible a ∧ TransGen (p.DependsOn possible) a a) ∧
      (∀ a, (p.ground limit).outcome = .error (.cyclic a) → p.Needs possible a) ∧
      ((¬ ∃ a, p.Needs possible a ∧ TransGen (p.DependsOn possible) a a) →
        ∃ g, (p.ground limit).outcome = .ok g) ∧
      (p.CompoundBodies → (∀ a, a ∈ possible ↔ p.Derivable a) ∧
        ∀ a dep, p.DependsOn possible a dep ↔ ∃ r ∈ p.rules, ∃ σ, IsGrounding σ ∧
          (∀ l ∈ r.body, l.positive = true → p.Derivable (l.atom.instantiate σ)) ∧
          r.head.instantiate σ = a ∧
          ∃ l ∈ r.body, l.atom.instantiate σ = dep ∧ p.Derivable dep) := by
  have hp := safe_of_check hcheck
  have hground := groundAtoms_of_derivable hp (derivable_of_mem_possible hp hpossible)
  have houtcome : (p.ground limit).outcome = p.groundOver possible := by
    rw [outcome_ground, hcheck, hpossible]
    rfl
  have hcompound (hc : p.CompoundBodies) :=
    And.intro (fun a => mem_possible_iff hp hc hpossible (a := a)) fun a b =>
      dependsOn_iff_derivable hp hc hpossible (a := a) (b := b)
  rw [houtcome]
  rcases groundOver_settles hground with ⟨⟨g, hg⟩, hacyclic⟩ | ⟨a, ha, hneeds, hcycle⟩
  · rw [hg]
    refine ⟨⟨?_, fun h => absurd h hacyclic⟩, ?_, fun _ => ⟨g, rfl⟩, hcompound⟩
    · rintro ⟨a, h⟩
      cases h
    · intro a h
      cases h
  · rw [ha]
    refine ⟨⟨fun _ => hcycle, fun _ => ⟨a, rfl⟩⟩, ?_, fun h => absurd hcycle h, hcompound⟩
    rintro _ ⟨⟩
    exact hneeds

/-- A seat that is up when the other one is not, and the other one likewise. -/
def seesaw : Program Rat where
  clauses := [.fact (.atom "board"),
    .rule ⟨.atom "left", [⟨.atom "board", true⟩, ⟨.atom "right", false⟩]⟩,
    .rule ⟨.atom "right", [⟨.atom "board", true⟩, ⟨.atom "left", false⟩]⟩]
  queries := [.atom "left"]

/-- Each seat depends on the other one, and one of them is asked for. -/
theorem ground_cyclic_iff_seesaw :
    seesaw.check = .ok () ∧ ∃ possible, seesaw.possible 10 = .ok possible ∧
      (∃ a, (seesaw.ground 10).outcome = .error (.cyclic a)) ∧
      ∃ a, seesaw.Needs possible a ∧ TransGen (seesaw.DependsOn possible) a a := by
  have hcheck : seesaw.check = .ok () := by decide
  have hrefused : (seesaw.ground 10).outcome = .error (.cyclic (.atom "right")) := by decide +kernel
  obtain ⟨possible, hpossible⟩ : ∃ possible, seesaw.possible 10 = .ok possible := by
    have hfound : (seesaw.possible 10).isOk = true := by decide +kernel
    cases h : seesaw.possible 10 with
    | ok possible => exact ⟨possible, rfl⟩
    | error e =>
      rw [h] at hfound
      cases hfound
  exact ⟨hcheck, possible, hpossible, ⟨_, hrefused⟩,
    (ground_cyclic_iff hcheck hpossible).1.1 ⟨_, hrefused⟩⟩

end Program

end TimedInference
