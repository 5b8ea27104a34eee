import Mathlib.Data.List.Basic
import TimedInference.Circuit.Worlds
import TimedInference.Proofs.Grounding.Dependencies
import TimedInference.Proofs.Grounding.LeastModel

/-!
# What a ground program holds

The parts of a ground program, read off the order of its atoms: where an atom stands (`positions_eq`),
which choices declare it (`getD_choicesByAtom`), and which declarations of the program the choices are
(`Program.keptDeclarations`).  In every world the truth value of an atom follows from those of the atoms before it
(`truthValues_eq_holds`).
-/

namespace TimedInference

variable {α : Type}

/-! ## Positions -/

namespace Program

theorem foldr_insert_zipIdx (order : List Term) (k : Nat) (a : Term) :
    ((order.zipIdx k).foldr (fun a m => m.insert a.1 a.2) (∅ : TermMap Nat))[a]? =
      if a ∈ order then some (k + order.idxOf a) else none := by
  induction order generalizing k with
  | nil => simp
  | cons b order ih =>
    rw [List.zipIdx_cons, List.foldr_cons, Std.ExtTreeMap.getElem?_insert, ih]
    by_cases h : b = a
    · subst h
      simp
    · have h' : a ≠ b := Ne.symm h
      simp only [Std.compare_eq_iff_eq, h, if_false, List.mem_cons, h', false_or,
        List.idxOf_cons_ne order h]
      split
      · rw [Nat.succ_eq_add_one, Nat.add_assoc, Nat.add_comm 1]
      · rfl

/-- The position of an atom is that of its first occurrence. -/
theorem positions_eq (order : List Term) (a : Term) :
    (positions order)[a]? = if a ∈ order then some (order.idxOf a) else none := by
  rw [positions, foldr_insert_zipIdx]
  simp only [Nat.zero_add]

/-- An atom stands at its position. -/
theorem getElem?_of_positions {order : List Term} {a : Term} {i : Nat}
    (h : (positions order)[a]? = some i) : order[i]? = some a := by
  rw [positions_eq] at h
  split at h
  · obtain rfl : order.idxOf a = i := Option.some.inj h
    exact List.getElem?_idxOf ‹_›
  · simp at h

/-- No occurrence of an atom stands before its position. -/
theorem exists_position_le {order : List Term} {a : Term} {j : Nat} (h : order[j]? = some a) :
    ∃ i ≤ j, (positions order)[a]? = some i := by
  refine ⟨order.idxOf a, ?_, by rw [positions_eq, if_pos (List.mem_of_getElem? h)]⟩
  obtain ⟨hj, rfl⟩ := List.getElem?_eq_some_iff.1 h
  by_contra hlt
  have hne := List.not_of_lt_findIdx (Nat.lt_of_not_le hlt)
  simp at hne

/-! ## Choices -/

theorem getD_foldr_insert_choice (cs : List (Choice α × Nat)) (a : Term) :
    (cs.foldr (fun c m => m.insert c.1.atom (c.2 :: m.getD c.1.atom []))
        (∅ : TermMap (List Nat))).getD a [] =
      (cs.filter fun c => c.1.atom = a).map (·.2) := by
  induction cs with
  | nil => simp
  | cons c cs ih =>
    rw [List.foldr_cons, Std.ExtTreeMap.getD_insert]
    by_cases h : c.1.atom = a
    · subst h
      simp [ih]
    · simp [h, ih]

/-- An atom lists the numbers of the choices that declare it, in order. -/
theorem getD_choicesByAtom (choices : List (Choice α)) (a : Term) :
    (choicesByAtom choices).getD a [] =
      (choices.zipIdx.filter fun c => c.1.atom = a).map (·.2) :=
  getD_foldr_insert_choice choices.zipIdx a

/-- The choices of an atom are those that declare it. -/
theorem mem_choicesByAtom {choices : List (Choice α)} {a : Term} {j : Nat} :
    j ∈ (choicesByAtom choices).getD a [] ↔ ∃ c, choices[j]? = some c ∧ c.atom = a := by
  simp only [getD_choicesByAtom, List.mem_map, List.mem_filter, decide_eq_true_iff, Prod.exists,
    List.mem_zipIdx_iff_getElem?]
  constructor
  · rintro ⟨c, k, ⟨hc, ha⟩, rfl⟩
    exact ⟨c, hc, ha⟩
  · rintro ⟨c, hc, ha⟩
    exact ⟨c, j, ⟨hc, ha⟩, rfl⟩

/-- The choices of an atom are listed in ascending order. -/
theorem pairwise_choicesByAtom (choices : List (Choice α)) (a : Term) :
    ((choicesByAtom choices).getD a []).Pairwise (· < ·) := by
  have hnumbers : (choices.zipIdx.map (·.2)).Pairwise (· < ·) := by
    rw [List.zipIdx_map_snd]
    exact List.pairwise_lt_range'
  rw [getD_choicesByAtom]
  exact hnumbers.sublist (List.filter_sublist.map _)

/-! ## Declarations that are kept -/

/-- The declarations of probabilistic facts, with their numbers, whose atoms a ground program has. -/
def keptDeclarations (p : Program α) (g : GroundProgram α) : List ((Term × α) × Nat) :=
  p.chances.zipIdx.filter fun c => (g.atoms.map (·.atom)).contains c.1.1

/-- The choices are the declarations that are kept, without their numbers. -/
theorem map_keptDeclarations (p : Program α) (g : GroundProgram α) :
    ((p.keptDeclarations g).map fun c => (⟨c.1.1, c.1.2⟩ : Choice α)) =
      (p.chances.filter fun c => (g.atoms.map (·.atom)).contains c.1).map fun c => ⟨c.1, c.2⟩ := by
  conv_rhs => rw [← List.zipIdx_map_fst 0 p.chances, List.filter_map, List.map_map]
  rfl

/-- The world in which, of some numbered declarations, those hold that are chosen. -/
def worldOf (chosen : Nat → Bool) : List ((Term × α) × Nat) → Nat
  | [] => 0
  | c :: cs => (if chosen c.2 then 1 else 0) + 2 * worldOf chosen cs

/-- A choice of declarations of a program, restricted to those that a ground program keeps. -/
def restrict (p : Program α) (g : GroundProgram α) (chosen : Nat → Bool) : Nat :=
  worldOf chosen (p.keptDeclarations g)

theorem testBit_worldOf (chosen : Nat → Bool) (cs : List ((Term × α) × Nat)) (j : Nat) :
    (worldOf chosen cs).testBit j = cs[j]?.any fun c => chosen c.2 := by
  induction cs generalizing j with
  | nil => simp [worldOf]
  | cons c cs ih =>
    cases j with
    | zero =>
      rw [worldOf, Nat.testBit_zero, List.getElem?_cons_zero, Option.any_some]
      cases chosen c.2
      · exact decide_eq_false (by rw [if_neg (by decide)]; omega)
      · exact decide_eq_true (by rw [if_pos rfl]; omega)
    | succ j =>
      -- the first bit is shifted out
      have hdiv : worldOf chosen (c :: cs) / 2 = worldOf chosen cs := by
        rw [worldOf]
        split <;> omega
      rw [Nat.testBit_succ, hdiv, ih, List.getElem?_cons_succ]

/-- The parts of a ground program. -/
structure GroundsTo (p : Program α) (possible : TermSet) (order : List Term)
    (g : GroundProgram α) : Prop where
  /-- The order is one of the relevant atoms. -/
  order_eq : (Definitions.ofRules p.rules possible).order
    ((Definitions.ofRules p.rules possible).relevant possible (p.queryAtoms possible)) = .ok order
  /-- The choices are the declarations that are kept. -/
  choices_eq : g.choices = (p.keptDeclarations g).map fun c => ⟨c.1.1, c.1.2⟩
  /-- The definitions of the atoms. -/
  atoms_eq : g.atoms = order.map fun a => {
    atom := a
    certain := (Std.ExtTreeSet.ofList p.certainFacts : TermSet).contains a
    choices := (choicesByAtom g.choices).getD a []
    bodies := ((Definitions.ofRules p.rules possible).bodies a).map fun body =>
      body.map fun l => ⟨(positions order).getD l.atom 0, l.positive⟩ }
  /-- The queries and the positions of their atoms. -/
  queries_eq : g.queries = (p.queryAtoms possible).map fun q => (q, (positions order)[q]?)

/-- The atoms in order. -/
theorem GroundsTo.map_atom_eq {p : Program α} {possible : TermSet} {order : List Term}
    {g : GroundProgram α} (h : p.GroundsTo possible order g) : g.atoms.map (·.atom) = order := by
  rw [h.atoms_eq, List.map_map]
  exact List.map_id' order

/-- The queried atoms in order. -/
theorem GroundsTo.map_query_eq {p : Program α} {possible : TermSet} {order : List Term}
    {g : GroundProgram α} (h : p.GroundsTo possible order g) :
    g.queries.map (·.1) = p.queryAtoms possible := by
  rw [h.queries_eq, List.map_map]
  exact List.map_id' _

/-- Only possible atoms are put in order. -/
theorem GroundsTo.mem_possible_of_mem_order {p : Program α} {possible : TermSet} {order : List Term}
    {g : GroundProgram α} (h : p.GroundsTo possible order g) {a : Term} (ha : a ∈ order) :
    a ∈ possible :=
  (Std.ExtTreeSet.mem_diff_iff.1 ((Definitions.mem_order_iff h.order_eq).1 ha)).1

/-- The atoms in the bodies of an atom have positions before it. -/
theorem GroundsTo.exists_position_lt {p : Program α} {possible : TermSet} {order : List Term}
    {g : GroundProgram α} (h : p.GroundsTo possible order g) {i : Nat} {a : Term}
    (ha : order[i]? = some a) {body : List Literal}
    (hbody : body ∈ (Definitions.ofRules p.rules possible).bodies a) {l : Literal} (hl : l ∈ body) :
    ∃ j < i, (positions order)[l.atom]? = some j := by
  obtain ⟨k, hk, hkl⟩ := Definitions.lt_of_mem_dependencies h.order_eq ha
    (Definitions.mem_dependencies.2 ⟨body, hbody, l, hl, rfl⟩)
  obtain ⟨j, hj, hjl⟩ := exists_position_le hkl
  exact ⟨j, Nat.lt_of_le_of_lt hj hk, hjl⟩

/-- The number that a body gives to an atom is smaller, and is that of the atom. -/
theorem GroundsTo.position_lt {p : Program α} {possible : TermSet} {order : List Term}
    {g : GroundProgram α} (h : p.GroundsTo possible order g) {i : Nat} {a : Term}
    (ha : order[i]? = some a) {body : List Literal}
    (hbody : body ∈ (Definitions.ofRules p.rules possible).bodies a) {l : Literal} (hl : l ∈ body) :
    (positions order).getD l.atom 0 < i ∧ order[(positions order).getD l.atom 0]? = some l.atom := by
  obtain ⟨j, hlt, hj⟩ := h.exists_position_lt ha hbody hl
  rw [Std.ExtTreeMap.getD_eq_getD_getElem?, hj, Option.getD_some]
  exact ⟨hlt, getElem?_of_positions hj⟩

/-- The definition of an atom of the order. -/
theorem GroundsTo.exists_of_getElem?_atoms {p : Program α} {possible : TermSet} {order : List Term}
    {g : GroundProgram α} (h : p.GroundsTo possible order g) {i : Nat} {d : AtomDefinition}
    (hd : g.atoms[i]? = some d) :
    order[i]? = some d.atom ∧
      (d.certain = true ↔ d.atom ∈ p.certainFacts) ∧
      d.choices = (choicesByAtom g.choices).getD d.atom [] ∧
      d.bodies = ((Definitions.ofRules p.rules possible).bodies d.atom).map fun body =>
        body.map fun l => ⟨(positions order).getD l.atom 0, l.positive⟩ := by
  rw [h.atoms_eq, List.getElem?_map, Option.map_eq_some_iff] at hd
  obtain ⟨a, ha, rfl⟩ := hd
  refine ⟨ha, ?_, rfl, rfl⟩
  rw [← Std.ExtTreeSet.mem_iff_contains, Std.ExtTreeSet.mem_ofList, List.contains_iff_mem]

/-- Bodies refer to earlier atoms only. -/
theorem GroundsTo.bodies_lt {p : Program α} {possible : TermSet} {order : List Term}
    {g : GroundProgram α} (h : p.GroundsTo possible order g) {i : Nat} {d : AtomDefinition}
    (hd : g.atoms[i]? = some d) : ∀ body ∈ d.bodies, ∀ l ∈ body, l.atom < i := by
  obtain ⟨ha, -, -, hbodies⟩ := h.exists_of_getElem?_atoms hd
  rw [hbodies]
  intro _ hbody' _ hl'
  obtain ⟨body, hbody, rfl⟩ := List.mem_map.1 hbody'
  obtain ⟨l, hl, rfl⟩ := List.mem_map.1 hl'
  exact (h.position_lt ha hbody hl).1

/-- Grounding that succeeds has put the relevant atoms in order. -/
theorem groundsTo_of_groundOver {p : Program α} {possible : TermSet} {g : GroundProgram α}
    (h : p.groundOver possible = .ok g) : ∃ order, p.GroundsTo possible order g := by
  simp only [groundOver] at h
  obtain ⟨order, ho, hpure⟩ := bind_eq_ok.1 h
  obtain rfl := Except.ok.inj hpure
  refine ⟨order, ho, ?_, rfl, rfl⟩
  have hkeep (a : Term) : (order.map fun a => a).contains a =
      ((Definitions.ofRules p.rules possible).relevant possible
        (p.queryAtoms possible)).contains a := by
    rw [List.map_id', Bool.eq_iff_iff, List.contains_iff_mem, Definitions.mem_order_iff ho,
      Std.ExtTreeSet.mem_iff_contains]
  rw [map_keptDeclarations]
  simp only [relevantChoices, List.map_map, Function.comp_def, hkeep]

/-- Grounding is a check, a search for the possible atoms and what is done with them. -/
theorem outcome_ground [Probability α] (p : Program α) (limit : Nat) :
    (p.ground limit).outcome =
      p.check >>= fun _ => p.possible limit >>= fun possible => p.groundOver possible := by
  show (Logged.ofExcept p.check >>= fun _ => Logged.ofExcept (p.possible limit) >>=
    fun possible => Logged.ofExcept (p.groundOver possible) >>= fun g =>
      Logged.report (.grounded possible.size g.atoms.length g.choices.length) >>= fun _ =>
        pure g).outcome = _
  simp only [Logged.outcome_bind, Logged.outcome_ofExcept, Logged.outcome_report,
    Logged.outcome_pure]
  cases p.check with
  | error e => rfl
  | ok u =>
    cases p.possible limit with
    | error e => rfl
    | ok possible => cases hg : p.groundOver possible <;> simp [hg, bind, Except.bind]

/-- A program grounds when it passes the check, its possible atoms are found and it grounds over them. -/
theorem ground_eq_ok_iff [Probability α] {p : Program α} {limit : Nat} {g : GroundProgram α} :
    (p.ground limit).outcome = .ok g ↔
      p.check = .ok () ∧ ∃ possible, p.possible limit = .ok possible ∧
        p.groundOver possible = .ok g := by
  rw [outcome_ground, bind_eq_ok]
  simp only [bind_eq_ok]
  constructor
  · rintro ⟨_, hc, hrest⟩
    exact ⟨hc, hrest⟩
  · rintro ⟨hc, hrest⟩
    exact ⟨(), hc, hrest⟩

/-- Grounding succeeds over the possible atoms of a safe program. -/
theorem groundsTo_of_ground [Probability α] {p : Program α} {limit : Nat} {g : GroundProgram α}
    (h : (p.ground limit).outcome = .ok g) :
    p.check = .ok () ∧ ∃ possible order, p.possible limit = .ok possible ∧
      p.GroundsTo possible order g := by
  obtain ⟨hc, possible, hp, hover⟩ := ground_eq_ok_iff.1 h
  obtain ⟨order, ho⟩ := groundsTo_of_groundOver hover
  exact ⟨hc, possible, order, hp, ho⟩

/-- The probabilistic facts are the clauses that are such. -/
theorem mem_chances_iff {p : Program α} {c : Term × α} :
    c ∈ p.chances ↔ Clause.chance c.2 c.1 ∈ p.clauses := by
  rw [chances, List.mem_filterMap]
  constructor
  · rintro ⟨clause, hclause, hc⟩
    cases clause with
    | chance q a =>
      obtain rfl := Option.some.inj hc
      exact hclause
    | _ => simp [Clause.chance?] at hc
  · intro hclause
    exact ⟨_, hclause, rfl⟩

/-- Every choice is a declaration of the program. -/
theorem mem_chances_of_mem_choices [Probability α] {p : Program α} {limit : Nat} {g : GroundProgram α}
    (h : (p.ground limit).outcome = .ok g) {c : Choice α} (hc : c ∈ g.choices) :
    Clause.chance c.probability c.atom ∈ p.clauses := by
  obtain ⟨-, possible, order, -, hg⟩ := groundsTo_of_ground h
  rw [hg.choices_eq, List.mem_map] at hc
  obtain ⟨d, hd, rfl⟩ := hc
  rw [keptDeclarations, List.mem_filter] at hd
  exact mem_chances_iff.1 (List.mem_of_getElem? (List.mem_zipIdx_iff_getElem?.1 hd.1))

end Program

/-! ## Truth values -/

namespace AtomDefinition

/-- Whether an atom holds depends on the atoms of its bodies only. -/
theorem holds_congr {d : AtomDefinition} {world : Nat} {known known' : Array Bool}
    (h : ∀ body ∈ d.bodies, ∀ l ∈ body, known.getD l.atom false = known'.getD l.atom false) :
    d.holds world known = d.holds world known' := by
  unfold holds
  congr 1
  rw [Bool.eq_iff_iff, List.any_eq_true, List.any_eq_true]
  refine exists_congr fun body => and_congr_right fun hbody => ?_
  rw [List.all_eq_true, List.all_eq_true]
  exact forall₂_congr fun l hl => by rw [h body hbody l hl]

end AtomDefinition

namespace GroundProgram

/-- More atoms do not change the truth values of those before them. -/
theorem getD_foldl_holds (world : Nat) (atoms : List AtomDefinition) (known : Array Bool) {i : Nat}
    (h : i < known.size) :
    (atoms.foldl (fun known d => known.push (d.holds world known)) known).getD i false =
      known.getD i false := by
  induction atoms generalizing known with
  | nil => rfl
  | cons d atoms ih =>
    have hlt : i < (known.push (d.holds world known)).size := by
      rw [Array.size_push]
      omega
    rw [List.foldl_cons, ih _ hlt]
    simp [Array.getD_eq_getD_getElem?, Array.getElem?_push, Nat.ne_of_lt h]

theorem foldl_holds_eq (world : Nat) (atoms : List AtomDefinition) (known : Array Bool) {i : Nat}
    {d : AtomDefinition} (h : atoms[i]? = some d)
    (hd : ∀ body ∈ d.bodies, ∀ l ∈ body, l.atom < known.size + i) :
    (atoms.foldl (fun known d => known.push (d.holds world known)) known).getD (known.size + i)
        false =
      d.holds world (atoms.foldl (fun known d => known.push (d.holds world known)) known) := by
  induction atoms generalizing known i with
  | nil => simp at h
  | cons c atoms ih =>
    cases i with
    | zero =>
      obtain rfl : c = d := by simpa using h
      have hself : (known.push (c.holds world known)).getD known.size false =
          c.holds world known := by
        simp [Array.getD_eq_getD_getElem?]
      rw [Nat.add_zero, List.foldl_cons, getD_foldl_holds _ _ _ (by simp), hself]
      -- atoms before it keep the values they had when it was reached
      refine AtomDefinition.holds_congr fun body hbody l hl => ?_
      exact (getD_foldl_holds world (c :: atoms) known (hd body hbody l hl)).symm
    | succ i =>
      have hsize : (known.push (c.holds world known)).size = known.size + 1 := Array.size_push _
      have hi := ih (known.push (c.holds world known)) (i := i) (by simpa using h)
        fun body hbody l hl => by
          have hlt := hd body hbody l hl
          omega
      rwa [hsize, show known.size + 1 + i = known.size + (i + 1) by omega] at hi

/-- The truth value of an atom follows from those of the atoms before it. -/
theorem truthValues_eq_holds {g : GroundProgram α} (world : Nat) {i : Nat} {d : AtomDefinition}
    (h : g.atoms[i]? = some d) (hd : ∀ body ∈ d.bodies, ∀ l ∈ body, l.atom < i) :
    (g.truthValues world).getD i false = d.holds world (g.truthValues world) := by
  have ht := foldl_holds_eq world g.atoms #[] h fun body hbody l hl => by
    simpa using hd body hbody l hl
  rwa [List.size_toArray, List.length_nil, Nat.zero_add] at ht

end GroundProgram

end TimedInference
