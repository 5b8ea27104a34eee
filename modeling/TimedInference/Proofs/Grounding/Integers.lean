import Mathlib.Data.List.Basic
import TimedInference.Proofs.Grounding.GroundProgram
import TimedInference.Proofs.List.Distinct
import TimedInference.Proofs.Program.Integers

/-!
# Grounding commutes with a shift of time

A strictly increasing function on integers keeps the order of terms, and grounding looks at integers only
through this order.  So each of its stages commutes with such a function (`join_mapInts`,
`possible_mapInts`, `relevant_mapInts`, `order_mapInts`), and so does grounding as a whole
(`Program.ground_mapInts`): atoms, choices and queries correspond, with equal numbers.
-/

namespace TimedInference

variable {α : Type} {m : Int → Int}

/-! ## Joins -/

namespace AtomIndex

/-- Mapping integers leaves functor and arity. -/
theorem signature?_mapInts (t : Term) : (t.mapInts m).signature? = t.signature? := by
  simp only [Term.signature?, Term.functor?_mapInts, Term.arity_mapInts]

/-- The index finds the images of the candidates that it finds for the pattern. -/
theorem candidates_mapInts (atoms : List Term) (p : Term) :
    (ofList (atoms.map (Term.mapInts m))).candidates (p.mapInts m) =
      ((ofList atoms).candidates p).map (Term.mapInts m) := by
  cases hs : p.signature? with
  | none =>
    have hs' : (p.mapInts m).signature? = none := by rw [signature?_mapInts, hs]
    simp only [candidates, hs, hs', List.map_nil]
  | some s =>
    have hs' : (p.mapInts m).signature? = some s := by rw [signature?_mapInts, hs]
    rw [candidates_ofList _ hs, candidates_ofList _ hs', List.filter_map]
    simp only [Function.comp_def, signature?_mapInts]

/-- A pattern is matched with the images of the atoms that it is matched with. -/
theorem extend_mapInts (hm : Increasing m) (atoms : List Term) (p : Term) (b : Bindings) :
    (ofList (atoms.map (Term.mapInts m))).extend (p.mapInts m) (b.mapInts m) =
      ((ofList atoms).extend p b).map (Bindings.mapInts m) := by
  simp only [extend, ← Term.mapInts_substitute, candidates_mapInts, List.filterMap_map,
    Function.comp_def, Term.match?_mapInts hm, List.map_filterMap]

/-- Joins of images are the images of joins, in the same order. -/
theorem joinFrom_mapInts (hm : Increasing m) (atoms ps : List Term) (b : Bindings) :
    (ofList (atoms.map (Term.mapInts m))).joinFrom (ps.map (Term.mapInts m)) (b.mapInts m) =
      ((ofList atoms).joinFrom ps b).map (Bindings.mapInts m) := by
  induction ps generalizing b with
  | nil => rfl
  | cons p ps ih =>
    rw [List.map_cons, joinFrom, joinFrom, extend_mapInts hm, List.flatMap_map, List.map_flatMap]
    exact List.flatMap_congr fun c _ => ih c

/-- The bindings under which patterns become atoms correspond. -/
theorem join_mapInts (hm : Increasing m) (atoms ps : List Term) :
    (ofList (atoms.map (Term.mapInts m))).join (ps.map (Term.mapInts m)) =
      ((ofList atoms).join ps).map (Bindings.mapInts m) := by
  have h := joinFrom_mapInts hm atoms ps ∅
  rwa [Bindings.mapInts_empty] at h

end AtomIndex

/-! ## Possible atoms -/

namespace Rule

/-- A rule whose integers are mapped has the images of its consequences. -/
theorem consequences_mapInts (hm : Increasing m) (atoms : List Term) (r : Rule) :
    (r.mapInts m).consequences (AtomIndex.ofList (atoms.map (Term.mapInts m))) =
      (r.consequences (AtomIndex.ofList atoms)).map (Term.mapInts m) := by
  simp only [consequences, positives_mapInts, AtomIndex.join_mapInts hm, List.map_map]
  exact List.map_congr_left fun b _ => (Term.mapInts_substitute b r.head).symm

/-- A round commutes with mapping integers. -/
theorem round_mapInts (hm : Increasing m) (rules : List Rule) (atoms : TermSet) :
    round (rules.map (mapInts m)) (atoms.mapInts m) = (round rules atoms).mapInts m := by
  ext a
  simp only [mem_round, TermSet.mem_mapInts, TermSet.toList_mapInts hm, List.mem_map,
    exists_exists_and_eq_and, consequences_mapInts hm]
  constructor
  · rintro (⟨b, hb, rfl⟩ | ⟨r, hr, b, hb, rfl⟩)
    · exact ⟨b, .inl hb, rfl⟩
    · exact ⟨b, .inr ⟨r, hr, hb⟩, rfl⟩
  · rintro ⟨b, hb | ⟨r, hr, hb⟩, rfl⟩
    · exact .inl ⟨b, hb, rfl⟩
    · exact .inr ⟨r, hr, b, hb, rfl⟩

/-- The search for possible atoms commutes with mapping integers, and is refused in the same cases. -/
theorem closure_mapInts (hm : Increasing m) (rules : List Rule) (limit : Nat) (atoms : TermSet) :
    Alike (fun s s' => s' = s.mapInts m) (closure rules limit atoms)
      (closure (rules.map (mapInts m)) limit (atoms.mapInts m)) := by
  -- renamed rounds have as many atoms, so both searches end in the same round
  induction atoms using closure.induct rules limit with
  | case1 atoms next hsize =>
    rw [closure, if_pos hsize, closure, if_pos]
    · exact .ok rfl
    · rw [round_mapInts hm, TermSet.size_mapInts hm, TermSet.size_mapInts hm]
      exact hsize
  | case2 atoms next hsize hlimit =>
    rw [closure, if_neg hsize, if_pos hlimit, closure, if_neg, if_pos]
    · exact .error rfl
    · rw [round_mapInts hm, TermSet.size_mapInts hm]
      exact hlimit
    · rw [round_mapInts hm, TermSet.size_mapInts hm, TermSet.size_mapInts hm]
      exact hsize
  | case3 atoms next hsize hlimit ih =>
    rw [closure, if_neg hsize, if_neg hlimit, closure.eq_1 _ _ (atoms.mapInts m), if_neg, if_neg,
      round_mapInts hm]
    · exact ih
    · rw [round_mapInts hm, TermSet.size_mapInts hm]
      exact hlimit
    · rw [round_mapInts hm, TermSet.size_mapInts hm, TermSet.size_mapInts hm]
      exact hsize

end Rule

/-- The possible atoms of both programs correspond. -/
theorem Program.possible_mapInts (hm : Increasing m) (p : Program α) (limit : Nat) :
    Alike (fun s s' => s' = s.mapInts m) (p.possible limit) ((p.mapInts m).possible limit) := by
  unfold possible
  rw [factHeads_mapInts, rules_mapInts, TermSet.ofList_map]
  exact Rule.closure_mapInts hm _ limit _

/-! ## Definitions -/

namespace Literal

/-- Literals compare alike after an increasing function. -/
theorem compare_mapInts (hm : Increasing m) (k l : Literal) :
    Ord.compare (k.mapInts m) (l.mapInts m) = Ord.compare k l := by
  show ((k.atom.mapInts m).cmp (l.atom.mapInts m)).then _ = (k.atom.cmp l.atom).then _
  rw [Term.cmp_mapInts hm]
  rfl

/-- Bodies compare alike after an increasing function, so sets of bodies keep their order. -/
theorem compare_map_mapInts (hm : Increasing m) (ks ls : List Literal) :
    Ord.compare (ks.map (mapInts m)) (ls.map (mapInts m)) = Ord.compare ks ls := by
  induction ks generalizing ls with
  | nil => cases ls <;> rfl
  | cons k ks ih =>
    cases ls with
    | nil => rfl
    | cons l ls =>
      rw [List.map_cons, List.map_cons, List.compare_cons_cons, List.compare_cons_cons,
        compare_mapInts hm, ih]

end Literal

/-- The body of an instance is mapped with the rule and the bindings. -/
theorem Rule.instanceBody_mapInts (hm : Increasing m) (possible : TermSet) (b : Bindings)
    (r : Rule) :
    (r.mapInts m).instanceBody (possible.mapInts m) (b.mapInts m) =
      (r.instanceBody possible b).map (Literal.mapInts m) := by
  have hsubst (l : Literal) :
      (l.mapInts m).substitute (b.mapInts m) = (l.substitute b).mapInts m := by
    simp only [Literal.substitute, Literal.mapInts, Term.mapInts_substitute]
  simp only [instanceBody, mapInts, List.map_map, List.filter_map, Function.comp_def, hsubst]
  simp only [Literal.mapInts, TermSet.contains_mapInts hm]

namespace Definitions

/-- Definitions of corresponding atoms that correspond. -/
def Corresponds (m : Int → Int) (d d' : Definitions) : Prop :=
  ∀ a, d'.bodies (a.mapInts m) = (d.bodies a).map (List.map (Literal.mapInts m))

/-- Rules whose integers are mapped define the images of the atoms that the rules define. -/
theorem ofRules_mapInts (hm : Increasing m) (rules : List Rule) (possible : TermSet) :
    Corresponds m (ofRules rules possible)
      (ofRules (rules.map (Rule.mapInts m)) (possible.mapInts m)) := by
  intro a
  -- bodies are listed in their order, which an increasing renaming keeps
  refine toList_eq_map_toList (Literal.compare_map_mapInts hm) fun body => ?_
  rw [← Std.ExtTreeSet.mem_toList]
  have hmem (body : List Literal) :
      body ∈ (ofRules rules possible).getD a ∅ ↔ body ∈ (ofRules rules possible).bodies a :=
    Std.ExtTreeSet.mem_toList.symm
  simp only [hmem]
  show body ∈ bodies _ _ ↔ _
  simp only [mem_bodies_ofRules, List.mem_map, exists_exists_and_eq_and, TermSet.toList_mapInts hm,
    Rule.positives_mapInts, AtomIndex.join_mapInts hm, Rule.instanceBody_mapInts hm]
  have hhead (r : Rule) (b : Bindings) :
      (r.mapInts m).head.substitute (b.mapInts m) = a.mapInts m ↔ r.head.substitute b = a := by
    rw [← Term.mapInts_inj hm (t := r.head.substitute b), Term.mapInts_substitute]
    rfl
  simp only [hhead]
  constructor
  · rintro ⟨r, hr, b, hb, ha, rfl⟩
    exact ⟨_, ⟨r, hr, b, hb, ha, rfl⟩, rfl⟩
  · rintro ⟨_, ⟨r, hr, b, hb, ha, rfl⟩, rfl⟩
    exact ⟨r, hr, b, hb, ha, rfl⟩

variable {d d' : Definitions}

/-- Dependencies are mapped with the atom that has them. -/
theorem Corresponds.dependencies (h : Corresponds m d d') (a : Term) :
    d'.dependencies (a.mapInts m) = (d.dependencies a).map (Term.mapInts m) := by
  simp only [Definitions.dependencies, h a, List.flatMap_map, List.map_flatMap, List.map_map]
  rfl

/-! ## Relevant atoms -/

/-- Images are discarded when the atoms are. -/
theorem Corresponds.discard (hm : Increasing m) (h : Corresponds m d d') (left : TermSet)
    (stack : List Term) :
    d'.discard (left.mapInts m) (stack.map (Term.mapInts m)) =
      (d.discard left stack).mapInts m := by
  -- the walks take the same branch at every atom of their stacks
  induction left, stack using Definitions.discard.induct d with
  | case1 left =>
    rw [List.map_nil, Definitions.discard, Definitions.discard]
  | case2 left atom stack hmem ih =>
    rw [List.map_cons, Definitions.discard, if_pos ((TermSet.mapInts_mem_mapInts hm).2 hmem),
      h.dependencies, ← List.map_append, TermSet.erase_mapInts hm, ih, Definitions.discard.eq_2 d,
      if_pos hmem]
  | case3 left atom stack hmem ih =>
    rw [List.map_cons, Definitions.discard,
      if_neg (fun hm' => hmem ((TermSet.mapInts_mem_mapInts hm).1 hm')), ih,
      Definitions.discard.eq_2 d, if_neg hmem]

/-- The relevant atoms correspond. -/
theorem Corresponds.relevant (hm : Increasing m) (h : Corresponds m d d') (possible : TermSet)
    (queried : List Term) :
    d'.relevant (possible.mapInts m) (queried.map (Term.mapInts m)) =
      (d.relevant possible queried).mapInts m := by
  unfold Definitions.relevant
  rw [h.discard hm]
  ext b
  simp only [Std.ExtTreeSet.mem_diff_iff, TermSet.mem_mapInts]
  constructor
  · rintro ⟨⟨c, hc, rfl⟩, hn⟩
    exact ⟨c, ⟨hc, fun hd => hn ⟨c, hd, rfl⟩⟩, rfl⟩
  · rintro ⟨c, ⟨hc, hn⟩, rfl⟩
    refine ⟨⟨c, hc, rfl⟩, ?_⟩
    rintro ⟨b, hb, he⟩
    exact hn ((Term.mapInts_inj hm).1 he ▸ hb)

end Definitions

/-- Queries ask for the images of the atoms that they ask for. -/
theorem Program.queryAtoms_mapInts (hm : Increasing m) (p : Program α) (possible : TermSet) :
    (p.mapInts m).queryAtoms (possible.mapInts m) =
      (p.queryAtoms possible).map (Term.mapInts m) := by
  have hinj : Function.Injective (Term.mapInts m) := fun _ _ => (Term.mapInts_inj hm).1
  unfold queryAtoms
  rw [← eraseDups_map hinj, List.map_flatMap]
  refine congrArg List.eraseDups ?_
  simp only [mapInts, List.flatMap_map]
  refine List.flatMap_congr fun q _ => ?_
  have hmatch (a : Term) :
      ((q.mapInts m).match? (a.mapInts m) ∅).isSome = (q.match? a ∅).isSome := by
    have h := Term.match?_mapInts hm q a ∅
    rw [Bindings.mapInts_empty] at h
    rw [h, Option.isSome_map]
  rw [Term.isGround_mapInts, TermSet.toList_mapInts hm, List.filter_map, Function.comp_def]
  simp only [hmatch]
  split <;> rfl

/-! ## The order -/

/-- The dependents of an atom are mapped with it. -/
theorem Definitions.Corresponds.dependents (hm : Increasing m) {d d' : Definitions}
    (h : Definitions.Corresponds m d d') (atoms : List Term) (a : Term) :
    (d'.dependents (atoms.map (Term.mapInts m))).getD (a.mapInts m) [] =
      ((d.dependents atoms).getD a []).map (Term.mapInts m) := by
  have hinj : Function.Injective (Term.mapInts m) := fun _ _ => (Term.mapInts_inj hm).1
  rw [Definitions.getD_dependents, Definitions.getD_dependents, List.filter_map, Function.comp_def]
  simp only [h.dependencies, List.mem_map_of_injective hinj]

namespace Walk

/-- The walk with a function applied to the integers of its atoms. -/
def mapInts (m : Int → Int) (w : Walk) : Walk :=
  ⟨w.met.mapInts m, w.finished.map (Term.mapInts m)⟩

variable {next next' : Term → List Term}

/-- A visit to the image of an atom goes the way of the visit to the atom. -/
theorem visit_mapInts (hm : Increasing m)
    (hnext : ∀ a, next' (a.mapInts m) = (next a).map (Term.mapInts m)) (fuel : Nat) (w : Walk)
    (a : Term) :
    Alike (fun w w' => w' = w.mapInts m) (visit next fuel w a)
      (visit next' fuel (w.mapInts m) (a.mapInts m)) := by
  induction fuel generalizing w a with
  | zero => exact .ok rfl
  | succ fuel ih =>
    have hinj : Function.Injective (Term.mapInts m) := fun _ _ => (Term.mapInts_inj hm).1
    have hmet : a.mapInts m ∈ (w.mapInts m).met ↔ a ∈ w.met := TermSet.mapInts_mem_mapInts hm
    have hself : (next' (a.mapInts m)).contains (a.mapInts m) = (next a).contains a := by
      rw [Bool.eq_iff_iff, List.contains_iff_mem, List.contains_iff_mem, hnext,
        List.mem_map_of_injective hinj]
    rw [visit, visit, hself, hnext]
    by_cases h : a ∈ w.met
    · rw [if_pos h, if_pos (hmet.2 h)]
      exact .ok rfl
    · rw [if_neg h, if_neg fun h' => h (hmet.1 h')]
      cases (next a).contains a with
      | true => exact .error rfl
      | false =>
        refine (Alike.foldlM (R := fun v v' => v' = v.mapInts m) (fun b _ v v' hv => ?_) ?_).bind
          fun v v' hv => .ok ?_
        · subst hv
          exact ih v b
        · exact congrArg (fun met => (⟨met, w.finished.map (Term.mapInts m)⟩ : Walk))
            (TermSet.insert_mapInts w.met a)
        · subst hv
          rfl

/-- The walk over images is the image of the walk. -/
theorem visitAll_mapInts (hm : Increasing m)
    (hnext : ∀ a, next' (a.mapInts m) = (next a).map (Term.mapInts m)) (atoms : List Term) :
    Alike (fun w w' => w' = w.mapInts m) (visitAll next atoms)
      (visitAll next' (atoms.map (Term.mapInts m))) := by
  unfold visitAll
  rw [List.length_map]
  refine Alike.foldlM (fun a _ w w' hw => ?_) rfl
  subst hw
  exact visit_mapInts hm hnext atoms.length w a

end Walk

namespace Definitions

/-- The same atoms are misplaced before and after. -/
theorem Corresponds.misplaced? (hm : Increasing m) {d d' : Definitions} (h : Corresponds m d d')
    (before : TermSet) (atoms : List Term) :
    d'.misplaced? (before.mapInts m) (atoms.map (Term.mapInts m)) =
      (d.misplaced? before atoms).map (Term.mapInts m) := by
  induction atoms generalizing before with
  | nil => rfl
  | cons a atoms ih =>
    rw [List.map_cons, Definitions.misplaced?, Definitions.misplaced?]
    simp only [h.dependencies, TermSet.insert_mapInts, List.find?_map, Function.comp_def,
      TermSet.contains_mapInts hm]
    cases (d.dependencies a).find? fun dep => !(before.insert a).contains dep with
    | some dep => rfl
    | none => exact ih (before.insert a)

/-- The orders of the relevant atoms correspond. -/
theorem Corresponds.order (hm : Increasing m) {d d' : Definitions} (h : Corresponds m d d')
    (relevant : TermSet) :
    Alike (fun o o' => o' = o.map (Term.mapInts m)) (d.order relevant)
      (d'.order (relevant.mapInts m)) := by
  unfold Definitions.order
  rw [TermSet.toList_mapInts hm]
  refine (Walk.visitAll_mapInts hm (h.dependents hm relevant.toList) relevant.toList).bind ?_
  rintro w _ rfl
  have hempty : TermSet.mapInts m ∅ = ∅ := rfl
  have hmis := h.misplaced? hm ∅ w.finished
  rw [hempty] at hmis
  have hfinished : (w.mapInts m).finished = w.finished.map (Term.mapInts m) := rfl
  rw [hfinished, hmis]
  cases d.misplaced? ∅ w.finished with
  | some a => exact .error rfl
  | none => exact .ok rfl

end Definitions

/-! ## Ground programs -/

namespace Program

/-- The image of an atom stands at the position of the atom. -/
theorem positions_mapInts (hm : Increasing m) (order : List Term) (a : Term) :
    (positions (order.map (Term.mapInts m)))[a.mapInts m]? = (positions order)[a]? := by
  have hinj : Function.Injective (Term.mapInts m) := fun _ _ => (Term.mapInts_inj hm).1
  have hidx : (order.map (Term.mapInts m)).idxOf (a.mapInts m) = order.idxOf a := by
    induction order with
    | nil => rfl
    | cons b order ih =>
      rw [List.map_cons, List.idxOf_cons, List.idxOf_cons, ih]
      simp only [beq_iff_eq, Term.mapInts_inj hm, Bool.cond_eq_ite]
  simp only [positions_eq, List.mem_map_of_injective hinj, hidx]

/-- The image of an atom has the choices of the atom. -/
theorem choicesByAtom_mapInts (hm : Increasing m) (choices : List (Choice α)) (a : Term) :
    (choicesByAtom (choices.map (Choice.mapInts m))).getD (a.mapInts m) [] =
      (choicesByAtom choices).getD a [] := by
  rw [getD_choicesByAtom, getD_choicesByAtom, List.zipIdx_map, List.filter_map, List.map_map]
  have hatom (c : Choice α × Nat) :
      (Prod.map (Choice.mapInts m) id c).1.atom = a.mapInts m ↔ c.1.atom = a :=
    Term.mapInts_inj hm
  simp only [Function.comp_def, hatom]
  rfl

/-- Over given possible atoms, the images ground to the image of the ground program, or fail like it. -/
theorem groundOver_mapInts (hm : Increasing m) (p : Program α) (possible : TermSet) :
    Alike (fun g g' => g' = g.mapInts m) (p.groundOver possible)
      ((p.mapInts m).groundOver (possible.mapInts m)) := by
  have hd := Definitions.ofRules_mapInts hm p.rules possible
  unfold groundOver
  simp only [rules_mapInts, queryAtoms_mapInts hm, hd.relevant hm]
  refine (hd.order hm _).bind ?_
  rintro order _ rfl
  refine .ok ?_
  have hchoices (relevant : TermSet) : (p.mapInts m).relevantChoices (relevant.mapInts m) =
      (p.relevantChoices relevant).map (Choice.mapInts m) := by
    simp only [relevantChoices, chances_mapInts, List.filter_map, List.map_map, Function.comp_def,
      TermSet.contains_mapInts hm]
    rfl
  have hposition (a : Term) : (positions (order.map (Term.mapInts m))).getD (a.mapInts m) 0 =
      (positions order).getD a 0 := by
    rw [Std.ExtTreeMap.getD_eq_getD_getElem?, Std.ExtTreeMap.getD_eq_getD_getElem?,
      positions_mapInts hm]
  simp only [hchoices, certainFacts_mapInts, TermSet.ofList_map, List.map_map, Function.comp_def,
    TermSet.contains_mapInts hm, choicesByAtom_mapInts hm, hd _, positions_mapInts hm,
    GroundProgram.mapInts, AtomDefinition.mapInts, Literal.mapInts, hposition]

/-- Grounding commutes with a strictly increasing function on integers: both programs fail, for the same
kind of reason, or the ground programs correspond. -/
theorem ground_mapInts [Probability α] (hm : Increasing m) (p : Program α) (limit : Nat) :
    Alike (fun g g' => g' = g.mapInts m) (p.ground limit).outcome
      ((p.mapInts m).ground limit).outcome := by
  rw [outcome_ground, outcome_ground]
  refine p.check_mapInts.bind fun _ _ _ => (p.possible_mapInts hm limit).bind ?_
  rintro possible _ rfl
  exact p.groundOver_mapInts hm possible

end Program

end TimedInference
