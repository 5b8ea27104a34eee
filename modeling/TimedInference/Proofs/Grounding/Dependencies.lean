import Mathlib.Logic.Relation
import Mathlib.Tactic.Tauto
import TimedInference.Grounding.Order
import TimedInference.Grounding.Relevance
import TimedInference.Proofs.List.Distinct
import TimedInference.Proofs.Log.Success

/-!
# The dependency order

The order that is found for the relevant atoms lists exactly these (`mem_order_iff`), each once
(`nodup_order`), and every atom in it stands after the atoms on which it depends
(`lt_of_mem_dependencies`).  The first two are followed along the walk, whose steps are summarised by
`Walk.Leads`; the third is what the final check establishes, together with the walk's own check that no
atom depends on itself.  The relevant atoms are those that dependencies lead to from the queried atoms that
are possible (`mem_relevant_iff`).
-/

namespace TimedInference

/-! ## Definitions -/

namespace Definitions

theorem mem_bodies_add {d : Definitions} {entry : Term × List Literal} {a : Term}
    {body : List Literal} :
    body ∈ (d.add entry).bodies a ↔ entry = (a, body) ∨ body ∈ d.bodies a := by
  obtain ⟨b, lits⟩ := entry
  unfold bodies add
  simp only [Std.ExtTreeSet.mem_toList, Std.ExtTreeMap.getD_insert, Std.compare_eq_iff_eq,
    Prod.mk.injEq]
  by_cases h : b = a
  · subst h
    simp [Std.ExtTreeSet.mem_insert]
  · simp [h]

/-- The bodies that define an atom are those of the rule instances with this head. -/
theorem mem_bodies_foldl_add (entries : List (Term × List Literal)) (d : Definitions) {a : Term}
    {body : List Literal} :
    body ∈ (entries.foldl add d).bodies a ↔ (a, body) ∈ entries ∨ body ∈ d.bodies a := by
  induction entries generalizing d with
  | nil => simp
  | cons entry entries ih =>
    rw [List.foldl_cons, ih, mem_bodies_add, List.mem_cons, eq_comm (a := entry)]
    tauto

theorem mem_bodies_ofRules {rules : List Rule} {possible : TermSet} {a : Term}
    {body : List Literal} :
    body ∈ (ofRules rules possible).bodies a ↔
      ∃ r ∈ rules, ∃ b ∈ (AtomIndex.ofList possible.toList).join r.positives,
        r.head.substitute b = a ∧ r.instanceBody possible b = body := by
  have hempty : ¬ body ∈ bodies ∅ a := by simp [bodies]
  simp only [ofRules, mem_bodies_foldl_add, hempty, or_false, List.mem_flatMap, Rule.instances,
    List.mem_map, Prod.mk.injEq]

theorem mem_dependencies {d : Definitions} {a dep : Term} :
    dep ∈ d.dependencies a ↔ ∃ body ∈ d.bodies a, ∃ l ∈ body, l.atom = dep := by
  simp [dependencies]

/-! ## Relevant atoms -/

/-- Taking atoms away leaves a part of the set, without the atoms that were to be taken away. -/
theorem mem_discard {d : Definitions} (left : TermSet) (stack : List Term) {a : Term}
    (h : a ∈ d.discard left stack) : a ∈ left ∧ a ∉ stack := by
  induction left, stack using discard.induct d with
  | case1 left =>
    rw [discard] at h
    exact ⟨h, by simp⟩
  | case2 left atom stack hmem ih =>
    rw [discard, if_pos hmem] at h
    obtain ⟨hleft, hstack⟩ := ih h
    rw [Std.ExtTreeSet.mem_erase] at hleft
    refine ⟨hleft.2, fun hcons => ?_⟩
    rcases List.mem_cons.1 hcons with rfl | hs
    · exact hleft.1 Std.ReflCmp.compare_self
    · exact hstack (List.mem_append_right _ hs)
  | case3 left atom stack hmem ih =>
    rw [discard, if_neg hmem] at h
    obtain ⟨hleft, hstack⟩ := ih h
    refine ⟨hleft, fun hcons => ?_⟩
    rcases List.mem_cons.1 hcons with rfl | hs
    · exact hmem hleft
    · exact hstack hs

theorem mem_relevant_of_mem_queried {d : Definitions} {possible : TermSet} {queried : List Term}
    {a : Term} (hp : a ∈ possible) (hq : a ∈ queried) : a ∈ d.relevant possible queried :=
  Std.ExtTreeSet.mem_diff_iff.2 ⟨hp, fun hd => (mem_discard possible queried hd).2 hq⟩

/-- With an atom that is taken away, its dependencies are. -/
theorem not_mem_discard_of_mem_dependencies {d : Definitions} (left : TermSet) (stack : List Term)
    {a dep : Term} (ha : a ∈ left) (hgone : a ∉ d.discard left stack)
    (hdep : dep ∈ d.dependencies a) : dep ∉ d.discard left stack := by
  induction left, stack using discard.induct d with
  | case1 left =>
    rw [discard] at hgone
    exact absurd ha hgone
  | case2 left atom stack hmem ih =>
    rw [discard, if_pos hmem] at hgone ⊢
    by_cases he : atom = a
    · subst he
      exact fun h => (mem_discard _ _ h).2 (List.mem_append_left stack hdep)
    · exact ih (by simpa [Std.ExtTreeSet.mem_erase, he] using ha) hgone
  | case3 left atom stack hmem ih =>
    rw [discard, if_neg hmem] at hgone ⊢
    exact ih ha hgone

/-- The atoms that dependencies lead to from an atom, itself included. -/
def Reaches (d : Definitions) : Term → Term → Prop :=
  Relation.ReflTransGen fun a dep => dep ∈ d.dependencies a

/-- Nothing is taken away but what dependencies lead to. -/
theorem exists_reaches_of_not_mem_discard {d : Definitions} (left : TermSet) (stack : List Term)
    {a : Term} (ha : a ∈ left) (hgone : a ∉ d.discard left stack) :
    ∃ s ∈ stack, s ∈ left ∧ d.Reaches s a := by
  induction left, stack using discard.induct d with
  | case1 left =>
    rw [discard] at hgone
    exact absurd ha hgone
  | case2 left atom stack hmem ih =>
    rw [discard, if_pos hmem] at hgone
    by_cases he : atom = a
    · subst he
      exact ⟨atom, List.mem_cons_self, hmem, .refl⟩
    · obtain ⟨s, hs, hleft, hreach⟩ := ih (by simpa [Std.ExtTreeSet.mem_erase, he] using ha) hgone
      rcases List.mem_append.1 hs with hs | hs
      · exact ⟨atom, List.mem_cons_self, hmem, hreach.head hs⟩
      · exact ⟨s, List.mem_cons_of_mem atom hs, (Std.ExtTreeSet.mem_erase.1 hleft).2, hreach⟩
  | case3 left atom stack hmem ih =>
    rw [discard, if_neg hmem] at hgone
    obtain ⟨s, hs, hleft, hreach⟩ := ih ha hgone
    exact ⟨s, List.mem_cons_of_mem atom hs, hleft, hreach⟩

/-- The relevant atoms are those that dependencies lead to from the queried atoms that are possible. -/
theorem mem_relevant_iff {d : Definitions} {possible : TermSet} {queried : List Term}
    (hclosed : ∀ a ∈ possible, ∀ dep ∈ d.dependencies a, dep ∈ possible) {a : Term} :
    a ∈ d.relevant possible queried ↔ ∃ q ∈ queried, q ∈ possible ∧ d.Reaches q a := by
  constructor
  · intro h
    obtain ⟨hp, hgone⟩ := Std.ExtTreeSet.mem_diff_iff.1 h
    exact exists_reaches_of_not_mem_discard possible queried hp hgone
  · rintro ⟨q, hq, hp, hreach⟩
    induction hreach with
    | refl => exact mem_relevant_of_mem_queried hp hq
    | tail _ hdep ih =>
      obtain ⟨hb, hgone⟩ := Std.ExtTreeSet.mem_diff_iff.1 ih
      exact Std.ExtTreeSet.mem_diff_iff.2 ⟨hclosed _ hb _ hdep,
        not_mem_discard_of_mem_dependencies possible queried hb hgone hdep⟩

/-! ## Dependents -/

theorem getD_foldl_insert (atom : Term) {deps : List Term} (hd : deps.Nodup)
    (m : TermMap (List Term)) (dep : Term) :
    (deps.foldl (fun m dep => m.insert dep (atom :: m.getD dep [])) m).getD dep [] =
      if dep ∈ deps then atom :: m.getD dep [] else m.getD dep [] := by
  induction deps generalizing m with
  | nil => simp
  | cons x deps ih =>
    rw [List.nodup_cons] at hd
    rw [List.foldl_cons, ih hd.2, Std.ExtTreeMap.getD_insert]
    by_cases hx : x = dep
    · subst hx
      simp [hd.1]
    · simp [hx, Ne.symm hx]

/-- The dependents of an atom are the listed atoms that depend on it directly, in order. -/
theorem getD_dependents (d : Definitions) (atoms : List Term) (dep : Term) :
    (d.dependents atoms).getD dep [] = atoms.filter fun a => dep ∈ d.dependencies a := by
  unfold dependents
  induction atoms with
  | nil => simp
  | cons a atoms ih =>
    rw [List.foldr_cons, getD_foldl_insert a (nodup_eraseDups (d.dependencies a)), ih]
    by_cases h : dep ∈ d.dependencies a <;> simp [h]

theorem mem_dependents {d : Definitions} {atoms : List Term} {a dep : Term} :
    a ∈ (d.dependents atoms).getD dep [] ↔ a ∈ atoms ∧ dep ∈ d.dependencies a := by
  rw [getD_dependents, List.mem_filter, decide_eq_true_iff]

end Definitions

/-! ## The walk -/

namespace Walk

/-- What happens between two stages of a walk through some atoms: what was met or finished stays so, an
atom that is met is also finished in the end, and no atom that is met leads to itself.  No atom is finished
that was met before, so none is finished twice. -/
structure Leads (next : Term → List Term) (inside : Term → Prop) (w w' : Walk) : Prop where
  met_of_met : ∀ {x}, x ∈ w.met → x ∈ w'.met
  finished_of_finished : ∀ {x}, x ∈ w.finished → x ∈ w'.finished
  new_of_met : ∀ {x}, x ∈ w'.met → x ∈ w.met ∨ (x ∈ w'.finished ∧ x ∉ next x ∧ inside x)
  met_of_finished : ∀ {x}, x ∈ w'.finished → x ∈ w.finished ∨ (x ∉ w.met ∧ x ∈ w'.met)
  nodup : (∀ x ∈ w.finished, x ∈ w.met) → w.finished.Nodup → w'.finished.Nodup

variable {next : Term → List Term} {inside : Term → Prop}

theorem Leads.refl (w : Walk) : Leads next inside w w :=
  ⟨id, id, .inl, .inl, fun _ => id⟩

theorem Leads.trans {u v w : Walk} (h : Leads next inside u v) (h' : Leads next inside v w) :
    Leads next inside u w where
  met_of_met hx := h'.met_of_met (h.met_of_met hx)
  finished_of_finished hx := h'.finished_of_finished (h.finished_of_finished hx)
  new_of_met hx := by
    rcases h'.new_of_met hx with hv | hnew
    · rcases h.new_of_met hv with hu | ⟨hf, hn, hi⟩
      · exact .inl hu
      · exact .inr ⟨h'.finished_of_finished hf, hn, hi⟩
    · exact .inr hnew
  met_of_finished hx := by
    rcases h'.met_of_finished hx with hv | ⟨hn, hw⟩
    · rcases h.met_of_finished hv with hu | ⟨hn, hm⟩
      · exact .inl hu
      · exact .inr ⟨hn, h'.met_of_met hm⟩
    · exact .inr ⟨fun hu => hn (h.met_of_met hu), hw⟩
  nodup hmet hu := by
    refine h'.nodup (fun x hx => ?_) (h.nodup hmet hu)
    rcases h.met_of_finished hx with hu | ⟨-, hm⟩
    · exact h.met_of_met (hmet x hu)
    · exact hm

theorem foldlM_leads {step : Walk → Term → Except EngineError Walk} {atoms : List Term}
    (h : ∀ a ∈ atoms, ∀ w w', step w a = .ok w' → Leads next inside w w') {w w' : Walk}
    (hw : atoms.foldlM step w = .ok w') : Leads next inside w w' := by
  refine foldlM_induction (motive := Leads next inside w) ?_ (Leads.refl w) hw
  intro a ha u u' hu hstep
  exact hu.trans (h a ha u u' hstep)

/-- What a visit does if it succeeds: nothing at an atom that was met before.  Another atom does not lead to
itself; it is met, those that it leads to are visited, and it is finished. -/
theorem visit_succ_eq_ok {fuel : Nat} {w w' : Walk} {a : Term}
    (h : visit next (fuel + 1) w a = .ok w') :
    (a ∈ w.met ∧ w' = w) ∨
      (a ∉ w.met ∧ a ∉ next a ∧
        ∃ v, (next a).foldlM (visit next fuel) { w with met := w.met.insert a } = .ok v ∧
          w' = { v with finished := a :: v.finished }) := by
  rw [visit] at h
  by_cases hmet : a ∈ w.met
  · rw [if_pos hmet] at h
    exact .inl ⟨hmet, (Except.ok.inj h).symm⟩
  · rw [if_neg hmet] at h
    by_cases hself : (next a).contains a = true
    · rw [if_pos hself] at h
      simp [throw, throwThe, MonadExceptOf.throw, bind, Except.bind] at h
    · rw [if_neg hself] at h
      obtain ⟨v, hv, hpure⟩ := bind_eq_ok.1 h
      exact .inr ⟨hmet, by simpa using hself, v, hv, (Except.ok.inj hpure).symm⟩

/-- An atom that is met for the first time is finished after all that is met from there. -/
theorem Leads.finish {w v : Walk} {a : Term}
    (hl : Leads next inside { w with met := w.met.insert a } v) (hmet : a ∉ w.met)
    (hself : a ∉ next a) (ha : inside a) :
    Leads next inside w { v with finished := a :: v.finished } where
  met_of_met hx := hl.met_of_met (Std.ExtTreeSet.mem_insert.2 (.inr hx))
  finished_of_finished hx := List.mem_cons_of_mem a (hl.finished_of_finished hx)
  new_of_met hx := by
    rcases hl.new_of_met hx with hi | ⟨hf, hn, hi⟩
    · rcases Std.ExtTreeSet.mem_insert.1 hi with he | hi
      · obtain rfl := Std.compare_eq_iff_eq.1 he
        exact .inr ⟨List.mem_cons_self, hself, ha⟩
      · exact .inl hi
    · exact .inr ⟨List.mem_cons_of_mem a hf, hn, hi⟩
  met_of_finished hx := by
    rcases List.mem_cons.1 hx with rfl | hx
    · exact .inr ⟨hmet, hl.met_of_met Std.ExtTreeSet.mem_insert_self⟩
    · refine (hl.met_of_finished hx).imp_right fun ⟨hn, hm⟩ => ⟨fun hw => ?_, hm⟩
      exact hn (Std.ExtTreeSet.mem_insert.2 (.inr hw))
  nodup hsub hw := by
    -- what is finished from there was not met before, so it is another atom
    have hfresh : a ∉ v.finished := by
      intro hf
      rcases hl.met_of_finished hf with hf | ⟨hn, -⟩
      · exact hmet (hsub a hf)
      · exact hn Std.ExtTreeSet.mem_insert_self
    refine List.nodup_cons.2 ⟨hfresh, hl.nodup (fun x hx => ?_) hw⟩
    exact Std.ExtTreeSet.mem_insert.2 (.inr (hsub x hx))

/-- One visit: it meets its atom, and what it meets it finishes. -/
theorem visit_leads (hnext : ∀ a, ∀ x ∈ next a, inside x) {fuel : Nat} {w w' : Walk} {a : Term}
    (ha : inside a) (h : visit next fuel w a = .ok w') :
    Leads next inside w w' ∧ (0 < fuel → a ∈ w'.met) := by
  induction fuel generalizing w w' a with
  | zero =>
    obtain rfl : w = w' := Except.ok.inj h
    exact ⟨Leads.refl w, by simp⟩
  | succ fuel ih =>
    obtain ⟨hmet, rfl⟩ | ⟨hmet, hself, v, hv, rfl⟩ := visit_succ_eq_ok h
    · exact ⟨Leads.refl w', fun _ => hmet⟩
    · have hl : Leads next inside { w with met := w.met.insert a } v :=
        foldlM_leads (fun b hb u u' hu => (ih (hnext a b hb) hu).1) hv
      exact ⟨hl.finish hmet hself ha, fun _ => hl.met_of_met Std.ExtTreeSet.mem_insert_self⟩

/-- Steps that each meet their atom meet all of them. -/
theorem mem_met_of_foldlM {step : Walk → Term → Except EngineError Walk} {atoms : List Term}
    (h : ∀ a ∈ atoms, ∀ w w', step w a = .ok w' → Leads next inside w w' ∧ a ∈ w'.met) {w w' : Walk}
    (hw : atoms.foldlM step w = .ok w') : ∀ a ∈ atoms, a ∈ w'.met := by
  induction atoms generalizing w with
  | nil => simp
  | cons b atoms ih =>
    rw [List.foldlM_cons] at hw
    rw [List.forall_mem_cons] at h ⊢
    obtain ⟨v, hb, hrest⟩ := bind_eq_ok.1 hw
    have hlater : Leads next inside v w' := foldlM_leads (fun a ha u u' hu => (h.2 a ha u u' hu).1) hrest
    exact ⟨hlater.met_of_met (h.1 w v hb).2, ih h.2 hrest⟩

/-- A walk from every atom of a list, if it stays among them, leads there and meets them all. -/
theorem visitAll_leads {atoms : List Term} (hnext : ∀ a, ∀ x ∈ next a, x ∈ atoms) {w : Walk}
    (h : visitAll next atoms = .ok w) :
    Leads next (· ∈ atoms) ⟨∅, []⟩ w ∧ ∀ a ∈ atoms, a ∈ w.met := by
  have hvisit : ∀ a ∈ atoms, ∀ u u', visit next atoms.length u a = .ok u' →
      Leads next (· ∈ atoms) u u' ∧ a ∈ u'.met := by
    intro a ha u u' hu
    have hv := visit_leads hnext ha hu
    exact ⟨hv.1, hv.2 (List.length_pos_of_mem ha)⟩
  exact ⟨foldlM_leads (fun a ha u u' hu => (hvisit a ha u u' hu).1) h, mem_met_of_foldlM hvisit h⟩

/-- A walk from every atom of a list finishes these atoms and no others, if it stays among them. -/
theorem mem_finished_visitAll {atoms : List Term} (hnext : ∀ a, ∀ x ∈ next a, x ∈ atoms) {w : Walk}
    (h : visitAll next atoms = .ok w) :
    ∀ x, (x ∈ w.finished ↔ x ∈ atoms) ∧ (x ∈ atoms → x ∉ next x) := by
  obtain ⟨hleads, hall⟩ := visitAll_leads hnext h
  have hmet {x : Term} (hx : x ∈ w.met) : x ∈ w.finished ∧ x ∉ next x ∧ x ∈ atoms := by
    rcases hleads.new_of_met hx with hn | hnew
    · simp at hn
    · exact hnew
  intro x
  refine ⟨⟨fun hx => ?_, fun hx => (hmet (hall x hx)).1⟩, fun hx => (hmet (hall x hx)).2.1⟩
  rcases hleads.met_of_finished hx with hn | ⟨-, hm⟩
  · simp at hn
  · exact (hmet hm).2.2

/-- A walk finishes no atom twice. -/
theorem nodup_finished_visitAll {atoms : List Term} (hnext : ∀ a, ∀ x ∈ next a, x ∈ atoms) {w : Walk}
    (h : visitAll next atoms = .ok w) : w.finished.Nodup :=
  (visitAll_leads hnext h).1.nodup (by simp) List.nodup_nil

end Walk

/-! ## The order -/

namespace Definitions

/-- Where the final check finds nothing, every dependency stands at or before its dependent. -/
theorem misplaced?_eq_none {d : Definitions} {before : TermSet} {atoms : List Term}
    (h : d.misplaced? before atoms = none) {i : Nat} {a dep : Term} (ha : atoms[i]? = some a)
    (hdep : dep ∈ d.dependencies a) :
    dep ∈ before ∨ ∃ j ≤ i, atoms[j]? = some dep := by
  induction atoms generalizing before i with
  | nil => simp at ha
  | cons x atoms ih =>
    simp only [misplaced?] at h
    cases hf : (d.dependencies x).find? fun dep => !(before.insert x).contains dep with
    | some y =>
      rw [hf] at h
      exact absurd h (by simp)
    | none =>
      rw [hf] at h
      cases i with
      | zero =>
        obtain rfl : x = a := by simpa using ha
        have hmem : dep ∈ before.insert x := by
          have hfound := List.find?_eq_none.1 hf dep hdep
          rw [Bool.not_eq_true', Bool.not_eq_false] at hfound
          exact Std.ExtTreeSet.mem_iff_contains.2 hfound
        rcases Std.ExtTreeSet.mem_insert.1 hmem with he | hb
        · exact .inr ⟨0, Nat.le_refl 0, by simp [Std.compare_eq_iff_eq.1 he]⟩
        · exact .inl hb
      | succ i =>
        rcases ih h (by simpa using ha) with hmem | ⟨j, hj, hjd⟩
        · rcases Std.ExtTreeSet.mem_insert.1 hmem with he | hb
          · exact .inr ⟨0, by omega, by simp [Std.compare_eq_iff_eq.1 he]⟩
          · exact .inl hb
        · exact .inr ⟨j + 1, by omega, by simpa using hjd⟩

/-- What a successful ordering goes through. -/
theorem order_eq_ok {d : Definitions} {relevant : TermSet} {order : List Term}
    (h : d.order relevant = .ok order) :
    ∃ w, Walk.visitAll (fun atom => (d.dependents relevant.toList).getD atom [])
        relevant.toList = .ok w ∧ d.misplaced? ∅ order = none ∧ w.finished = order := by
  simp only [Definitions.order] at h
  obtain ⟨w, hw, hchecked⟩ := bind_eq_ok.1 h
  cases hm : d.misplaced? ∅ w.finished with
  | some a => simp [hm, throw, throwThe, MonadExceptOf.throw] at hchecked
  | none =>
    rw [hm] at hchecked
    obtain rfl : w.finished = order := Except.ok.inj hchecked
    exact ⟨w, hw, hm, rfl⟩

/-- Definitions with the same dependencies order the relevant atoms alike. -/
theorem order_eq_of_dependencies {d d' : Definitions}
    (h : ∀ a dep, dep ∈ d'.dependencies a ↔ dep ∈ d.dependencies a) {relevant : TermSet}
    {order order' : List Term} (ho : d.order relevant = .ok order)
    (ho' : d'.order relevant = .ok order') : order' = order := by
  obtain ⟨w, hw, -, rfl⟩ := order_eq_ok ho
  obtain ⟨w', hw', -, rfl⟩ := order_eq_ok ho'
  have hnext : (fun atom => (d'.dependents relevant.toList).getD atom []) =
      fun atom => (d.dependents relevant.toList).getD atom [] := by
    funext atom
    simp only [getD_dependents, h]
  rw [hnext, hw] at hw'
  rw [Except.ok.inj hw']

theorem dependents_congr {d d' : Definitions} {atoms : List Term}
    (h : ∀ a ∈ atoms, d'.dependencies a = d.dependencies a) :
    d'.dependents atoms = d.dependents atoms := by
  induction atoms with
  | nil => rfl
  | cons x atoms ih =>
    rw [List.forall_mem_cons] at h
    simp only [dependents, List.foldr_cons] at ih ⊢
    rw [h.1, ih h.2]

theorem misplaced?_congr {d d' : Definitions} {atoms : List Term}
    (h : ∀ a ∈ atoms, d'.dependencies a = d.dependencies a) (before : TermSet) :
    d'.misplaced? before atoms = d.misplaced? before atoms := by
  induction atoms generalizing before with
  | nil => rfl
  | cons x atoms ih =>
    rw [List.forall_mem_cons] at h
    simp only [misplaced?, h.1, ih h.2]

/-- Definitions that give the relevant atoms the same dependencies order them alike, or fail alike. -/
theorem order_congr {d d' : Definitions} {relevant : TermSet}
    (h : ∀ a ∈ relevant, d'.dependencies a = d.dependencies a) :
    d'.order relevant = d.order relevant := by
  have hlist : ∀ a ∈ relevant.toList, d'.dependencies a = d.dependencies a := by
    intro a ha
    exact h a (Std.ExtTreeSet.mem_toList.1 ha)
  simp only [Definitions.order, dependents_congr hlist]
  cases hw : Walk.visitAll (fun atom => (d.dependents relevant.toList).getD atom [])
      relevant.toList with
  | error e => rfl
  | ok w =>
    have hfinished : ∀ a ∈ w.finished, d'.dependencies a = d.dependencies a := by
      intro a ha
      exact hlist a ((Walk.mem_finished_visitAll (fun a x hx => (mem_dependents.1 hx).1) hw a).1.1 ha)
    simp only [bind, Except.bind, misplaced?_congr hfinished]

/-- The order lists the relevant atoms. -/
theorem mem_order_iff {d : Definitions} {relevant : TermSet} {order : List Term}
    (h : d.order relevant = .ok order) {a : Term} : a ∈ order ↔ a ∈ relevant := by
  obtain ⟨w, hw, -, rfl⟩ := order_eq_ok h
  rw [← Std.ExtTreeSet.mem_toList]
  exact (Walk.mem_finished_visitAll (fun a x hx => (mem_dependents.1 hx).1) hw a).1

/-- The order lists no atom twice. -/
theorem nodup_order {d : Definitions} {relevant : TermSet} {order : List Term}
    (h : d.order relevant = .ok order) : order.Nodup := by
  obtain ⟨w, hw, -, rfl⟩ := order_eq_ok h
  exact Walk.nodup_finished_visitAll (fun a x hx => (mem_dependents.1 hx).1) hw

/-- Every atom of the order stands after those on which it depends. -/
theorem lt_of_mem_dependencies {d : Definitions} {relevant : TermSet} {order : List Term}
    (h : d.order relevant = .ok order) {i : Nat} {a dep : Term} (ha : order[i]? = some a)
    (hdep : dep ∈ d.dependencies a) : ∃ j < i, order[j]? = some dep := by
  have hmem := (mem_order_iff h).1 (List.mem_of_getElem? ha)
  obtain ⟨w, hw, hm, rfl⟩ := order_eq_ok h
  rcases misplaced?_eq_none hm ha hdep with hn | ⟨j, hj, hjd⟩
  · simp at hn
  · rcases Nat.lt_or_eq_of_le hj with hlt | rfl
    · exact ⟨j, hlt, hjd⟩
    · -- an atom that depends on itself would have been refused by the walk
      obtain rfl : a = dep := Option.some.inj (ha.symm.trans hjd)
      have hl := Std.ExtTreeSet.mem_toList.2 hmem
      exact absurd (mem_dependents.2 ⟨hl, hdep⟩)
        ((Walk.mem_finished_visitAll (fun a x hx => (mem_dependents.1 hx).1) hw a).2 hl)

end Definitions

end TimedInference
