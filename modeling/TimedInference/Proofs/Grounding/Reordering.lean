import Mathlib.Data.List.Forall2
import TimedInference.Proofs.Circuit.Values
import TimedInference.Proofs.Grounding.Meaning
import TimedInference.Proofs.Grounding.Relevance
import TimedInference.Syntax.Resolve

/-!
# The order of literals

Two programs may differ in the order of the literals of their rules (`Program.SameUpToOrder`).  A rule is
joined from left to right, and a literal that is a bare variable finds nothing unless an earlier one has
bound the variable, so an order can lose instances that another one has (`not_commutes_variableFirst`).
Where the orders of every two rules agree about that, as they do when positive literals are compounds
(`Program.SameUpToOrder.searchedAlike`), the rules have the same instances, up to the order of their bodies
(`Rule.JoinedAlike`).  Both programs then have the same possible atoms, choices and queries, and their
circuits give the same probabilities (`Program.ground_reordered`).
-/

namespace TimedInference

variable {α : Type}

/-! ## Rules and programs -/

/-- The rules have the same head, and bodies of the same literals in any order. -/
structure Rule.SameUpToOrder (r r' : Rule) : Prop where
  head_eq : r'.head = r.head
  perm : r.body.Perm r'.body

/-- The clauses are the same up to the order of literals. -/
inductive Clause.SameUpToOrder : Clause α → Clause α → Prop where
  | fact (h : Term) : SameUpToOrder (fact h) (fact h)
  | chance (p : α) (h : Term) : SameUpToOrder (chance p h) (chance p h)
  | rule {r r' : Rule} (h : r.SameUpToOrder r') : SameUpToOrder (rule r) (rule r')

/-- The programs differ only in the order of the literals of their rules. -/
structure Program.SameUpToOrder (p p' : Program α) : Prop where
  clauses : List.Forall₂ Clause.SameUpToOrder p.clauses p'.clauses
  queries : p'.queries = p.queries

/-- The positive literals of both rules can be looked up from left to right, or those of neither can. -/
def Rule.SearchedAlike (r r' : Rule) : Prop :=
  AtomIndex.searchable [] r'.positives = AtomIndex.searchable [] r.positives

/-- Rules that differ in the order of their literals, but not in what a join makes of it. -/
structure Rule.JoinedAlike (r r' : Rule) : Prop extends Rule.SameUpToOrder r r' where
  searchedAlike : r.SearchedAlike r'

/-- Programs whose rules are joined alike, and that are the same otherwise. -/
structure Program.JoinedAlike (p p' : Program α) : Prop where
  factHeads_eq : p'.factHeads = p.factHeads
  certainFacts_eq : p'.certainFacts = p.certainFacts
  chances_eq : p'.chances = p.chances
  queries_eq : p'.queries = p.queries
  rules : List.Forall₂ Rule.JoinedAlike p.rules p'.rules

/-- The positive literals are reordered with the body. -/
theorem Rule.SameUpToOrder.positives_perm {r r' : Rule} (h : r.SameUpToOrder r') :
    r.positives.Perm r'.positives :=
  (h.perm.filter _).map _

theorem Rule.JoinedAlike.symm {r r' : Rule} (h : r.JoinedAlike r') : r'.JoinedAlike r :=
  ⟨⟨h.head_eq.symm, h.perm.symm⟩, Eq.symm h.searchedAlike⟩

namespace Program

variable {p p' : Program α}

theorem JoinedAlike.symm (h : p.JoinedAlike p') : p'.JoinedAlike p where
  factHeads_eq := h.factHeads_eq.symm
  certainFacts_eq := h.certainFacts_eq.symm
  chances_eq := h.chances_eq.symm
  queries_eq := h.queries_eq.symm
  rules := (h.rules.imp fun _ _ hr => hr.symm).flip

/-- What is read off a clause and is not a rule does not depend on the order of literals. -/
theorem SameUpToOrder.filterMap_eq {β : Type} (h : p.SameUpToOrder p') {f : Clause α → Option β}
    (hf : ∀ r, f (.rule r) = none) : p'.clauses.filterMap f = p.clauses.filterMap f := by
  have hrel : List.Forall₂ (· = ·) (p.clauses.filterMap f) (p'.clauses.filterMap f) := by
    refine List.rel_filterMap (fun c c' hc => ?_) h.clauses
    -- a clause that is not a rule is kept as it is
    have hcc : f c = f c' := by
      cases hc with
      | rule hr => rw [hf, hf]
      | _ => rfl
    rw [hcc]
    cases f c' with
    | none => exact .none
    | some b => exact .some rfl
  rw [List.forall₂_eq_eq_eq] at hrel
  exact hrel.symm

/-- The rules are equal one by one, up to the order of their bodies. -/
theorem SameUpToOrder.rules (h : p.SameUpToOrder p') :
    List.Forall₂ Rule.SameUpToOrder p.rules p'.rules := by
  refine List.rel_filterMap (fun c c' hc => ?_) h.clauses
  cases hc with
  | rule hr => exact .some hr
  | _ => exact .none

/-- Rules that are searched alike are joined alike. -/
theorem SameUpToOrder.joinedAlike (h : p.SameUpToOrder p')
    (hs : List.Forall₂ Rule.SearchedAlike p.rules p'.rules) : p.JoinedAlike p' where
  factHeads_eq := h.filterMap_eq fun _ => rfl
  certainFacts_eq := h.filterMap_eq fun _ => rfl
  chances_eq := h.filterMap_eq fun _ => rfl
  queries_eq := h.queries
  rules := List.Forall₂.mp (fun _ _ hr hr' => ⟨hr, hr'⟩) h.rules hs

/-- Positive literals that are compounds can be looked up in any order. -/
theorem SameUpToOrder.searchedAlike (h : p.SameUpToOrder p') (hc : p.CompoundBodies) :
    List.Forall₂ Rule.SearchedAlike p.rules p'.rules := by
  have hcompound : ∀ r ∈ p.rules, ∀ a ∈ r.positives, a.functor?.isSome = true := by
    intro r hr a ha
    obtain ⟨l, hl, hpos, rfl⟩ := Rule.mem_positives.1 ha
    exact hc r hr l hl hpos
  refine ((List.forall₂_and_left _ _).2 ⟨hcompound, h.rules⟩).imp fun r r' ⟨hr, hrr⟩ => ?_
  have hr' : ∀ a ∈ r'.positives, a.functor?.isSome = true := fun a ha =>
    hr a (hrr.positives_perm.mem_iff.2 ha)
  rw [Rule.SearchedAlike, AtomIndex.searchable_of_isCompound hr,
    AtomIndex.searchable_of_isCompound hr']

end Program

/-! ## Rule instances -/

namespace Rule.JoinedAlike

variable {r r' : Rule}

/-- Both rules are joined to the same bindings. -/
theorem mem_join_iff (h : r.JoinedAlike r') {atoms : List Term} (ha : GroundAtoms atoms)
    {b : Bindings} : b ∈ (AtomIndex.ofList atoms).join r'.positives ↔
      b ∈ (AtomIndex.ofList atoms).join r.positives := by
  rw [AtomIndex.mem_join_iff ha, AtomIndex.mem_join_iff ha, h.searchedAlike]
  exact and_congr_right fun _ =>
    ⟨fun hs => hs.perm h.positives_perm.symm, fun hs => hs.perm h.positives_perm⟩

/-- The body of an instance is reordered with the rule's. -/
theorem instanceBody_perm (h : r.JoinedAlike r') (possible : TermSet) (b : Bindings) :
    (r.instanceBody possible b).Perm (r'.instanceBody possible b) :=
  (h.perm.map _).filter _

end Rule.JoinedAlike

namespace Program.JoinedAlike

variable {p p' : Program α}

/-! ## Possible atoms -/

/-- What one program derives the other one does. -/
theorem mem_possible (h : p.JoinedAlike p') (hp : p.Safe) {limit limit' : Nat} {s s' : TermSet}
    (hs : p.possible limit = .ok s) (hs' : p'.possible limit' = .ok s') : ∀ a ∈ s', a ∈ s := by
  obtain ⟨hfacts, hclosed⟩ := Rule.closure_closed hs
  have hground := groundAtoms_of_derivable hp (derivable_of_mem_possible hp hs)
  apply mem_of_mem_possible hground _ _ hs'
  · intro a ha
    rw [h.factHeads_eq] at ha
    exact hfacts a (by simpa using ha)
  · intro r' hr' b hb
    obtain ⟨r, hr, hrr⟩ := exists_of_mem_forall₂ h.symm.rules hr'
    apply hclosed r hr _ (Rule.mem_consequences.2 ⟨b, (hrr.mem_join_iff hground).2 hb, ?_⟩)
    rw [hrr.head_eq]

/-- Both programs have the same possible atoms, whatever the limits. -/
theorem possible_eq (h : p.JoinedAlike p') (hp : p.Safe) (hp' : p'.Safe) {limit limit' : Nat}
    {s s' : TermSet} (hs : p.possible limit = .ok s) (hs' : p'.possible limit' = .ok s') :
    s' = s := by
  ext a
  exact ⟨h.mem_possible hp hs hs' a, h.symm.mem_possible hp' hs' hs a⟩

/-! ## Definitions -/

variable {possible : TermSet}

/-- The bodies of an atom are the same up to the order of literals. -/
theorem exists_body (h : p.JoinedAlike p') (hground : GroundAtoms possible.toList) {a : Term}
    {body : List Literal} (hb : body ∈ (Definitions.ofRules p.rules possible).bodies a) :
    ∃ body' ∈ (Definitions.ofRules p'.rules possible).bodies a, body.Perm body' := by
  obtain ⟨r, hr, b, hjoin, rfl, rfl⟩ := Definitions.mem_bodies_ofRules.1 hb
  obtain ⟨r', hr', hrr⟩ := exists_of_mem_forall₂ h.rules hr
  refine ⟨r'.instanceBody possible b, Definitions.mem_bodies_ofRules.2
    ⟨r', hr', b, (hrr.mem_join_iff hground).2 hjoin, ?_, rfl⟩, hrr.instanceBody_perm possible b⟩
  rw [hrr.head_eq]

/-- So they are after their literals are numbered. -/
theorem exists_body_map (h : p.JoinedAlike p') (hground : GroundAtoms possible.toList) {a : Term}
    (f : Literal → GroundLiteral) :
    ∀ body ∈ ((Definitions.ofRules p.rules possible).bodies a).map (List.map f),
      ∃ body' ∈ ((Definitions.ofRules p'.rules possible).bodies a).map (List.map f),
        body.Perm body' := by
  intro _ hb
  obtain ⟨body, hbody, rfl⟩ := List.mem_map.1 hb
  obtain ⟨body', hbody', hperm⟩ := h.exists_body hground hbody
  exact ⟨_, List.mem_map_of_mem hbody', hperm.map f⟩

/-- An atom depends on the same atoms after reordering. -/
theorem mem_dependencies (h : p.JoinedAlike p') (hground : GroundAtoms possible.toList)
    {a dep : Term} (hdep : dep ∈ (Definitions.ofRules p.rules possible).dependencies a) :
    dep ∈ (Definitions.ofRules p'.rules possible).dependencies a := by
  obtain ⟨body, hbody, l, hl, rfl⟩ := Definitions.mem_dependencies.1 hdep
  obtain ⟨body', hbody', hperm⟩ := h.exists_body hground hbody
  exact Definitions.mem_dependencies.2 ⟨body', hbody', l, hperm.mem_iff.1 hl, rfl⟩

theorem mem_dependencies_iff (h : p.JoinedAlike p') (hground : GroundAtoms possible.toList)
    (a dep : Term) :
    dep ∈ (Definitions.ofRules p'.rules possible).dependencies a ↔
      dep ∈ (Definitions.ofRules p.rules possible).dependencies a :=
  ⟨h.symm.mem_dependencies hground, h.mem_dependencies hground⟩

/-- The same atoms are relevant after reordering. -/
theorem relevant_eq (h : p.JoinedAlike p') (hground : GroundAtoms possible.toList)
    (queried : List Term) :
    (Definitions.ofRules p'.rules possible).relevant possible queried =
      (Definitions.ofRules p.rules possible).relevant possible queried := by
  have hdepends : p'.DependsOn possible = p.DependsOn possible := by
    funext a dep
    rw [← propext mem_dependencies_ofRules, ← propext mem_dependencies_ofRules]
    exact propext (h.mem_dependencies_iff hground a dep)
  ext a
  rw [mem_relevant_iff hground, mem_relevant_iff hground, hdepends]

end Program.JoinedAlike

/-! ## Ground programs -/

/-- The definitions are the same up to the order of bodies and of their literals. -/
structure AtomDefinition.SameUpToOrder (d d' : AtomDefinition) : Prop where
  atom_eq : d'.atom = d.atom
  certain_eq : d'.certain = d.certain
  choices_eq : d'.choices = d.choices
  exists_body : ∀ body ∈ d.bodies, ∃ body' ∈ d'.bodies, body.Perm body'
  exists_body' : ∀ body' ∈ d'.bodies, ∃ body ∈ d.bodies, body'.Perm body

/-- The ground programs are the same up to the order of bodies and of their literals. -/
structure GroundProgram.SameUpToOrder (g g' : GroundProgram α) : Prop where
  choices_eq : g'.choices = g.choices
  queries_eq : g'.queries = g.queries
  atoms : List.Forall₂ AtomDefinition.SameUpToOrder g.atoms g'.atoms

/-- Programs whose rules are joined alike ground alike over the same possible atoms. -/
theorem Program.JoinedAlike.groundsTo {p p' : Program α} (h : p.JoinedAlike p') {possible : TermSet}
    (hground : GroundAtoms possible.toList) {order order' : List Term} {g g' : GroundProgram α}
    (hg : p.GroundsTo possible order g) (hg' : p'.GroundsTo possible order' g') :
    g.SameUpToOrder g' := by
  have hqueries : p'.queryAtoms possible = p.queryAtoms possible := by
    rw [queryAtoms, queryAtoms, h.queries_eq]
  have hrelevant := hg'.order_eq
  rw [hqueries, h.relevant_eq hground] at hrelevant
  -- the order follows from the dependencies, which are the same
  obtain rfl : order' = order := Definitions.order_eq_of_dependencies
    (h.mem_dependencies_iff hground) hg.order_eq hrelevant
  have hchoices : g'.choices = g.choices := by
    rw [hg.choices_eq, hg'.choices_eq, keptDeclarations, keptDeclarations, hg.map_atom_eq,
      hg'.map_atom_eq, h.chances_eq]
  refine ⟨hchoices, by rw [hg.queries_eq, hg'.queries_eq, hqueries], ?_⟩
  rw [hg.atoms_eq, hg'.atoms_eq, hchoices, h.certainFacts_eq, List.forall₂_map_left_iff,
    List.forall₂_map_right_iff, List.forall₂_same]
  exact fun a _ => ⟨rfl, rfl, rfl, h.exists_body_map hground _, h.symm.exists_body_map hground _⟩

/-! ## Truth values and circuits -/

/-- Whether an atom holds does not depend on the order of its bodies and of their literals. -/
theorem AtomDefinition.SameUpToOrder.holds_eq {d d' : AtomDefinition} (h : d.SameUpToOrder d')
    (world : Nat) (known : Array Bool) : d'.holds world known = d.holds world known := by
  rw [holds, holds, h.certain_eq, h.choices_eq]
  congr 1
  rw [Bool.eq_iff_iff, List.any_eq_true, List.any_eq_true]
  constructor
  · rintro ⟨body', hbody', htrue⟩
    obtain ⟨body, hbody, hperm⟩ := h.exists_body' body' hbody'
    exact ⟨body, hbody, hperm.all_eq ▸ htrue⟩
  · rintro ⟨body, hbody, htrue⟩
    obtain ⟨body', hbody', hperm⟩ := h.exists_body body hbody
    exact ⟨body', hbody', hperm.all_eq ▸ htrue⟩

namespace GroundProgram.SameUpToOrder

/-- The same atoms are true in each world after reordering. -/
theorem truthValues_eq {g g' : GroundProgram α} (h : g.SameUpToOrder g') (world : Nat) :
    g'.truthValues world = g.truthValues world := by
  have hfold {ds ds' : List AtomDefinition} (hds : List.Forall₂ AtomDefinition.SameUpToOrder ds ds')
      (known : Array Bool) :
      ds'.foldl (fun known d => known.push (d.holds world known)) known =
        ds.foldl (fun known d => known.push (d.holds world known)) known := by
    induction hds generalizing known with
    | nil => rfl
    | cons hd _ ih => rw [List.foldl_cons, List.foldl_cons, hd.holds_eq, ih]
  exact hfold h.atoms #[]

/-- With exact numbers, circuits of both ground programs answer all weights alike, whatever their kinds. -/
theorem evaluate_eq {g g' : GroundProgram ℚ} (h : g.SameUpToOrder g') {kind kind' : EngineKind}
    {maxChoices maxChoices' : Nat} {c c' : Circuit ℚ} (hc : Engine.circuit kind maxChoices g = .ok c)
    (hc' : Engine.circuit kind' maxChoices' g' = .ok c') (w : Weights ℚ) :
    c'.evaluate w = c.evaluate w := by
  rw [(Engine.isCircuitOf_values hc).answers w, (Engine.isCircuitOf_values hc').answers w,
    h.choices_eq, h.queries_eq]
  cases hw : w.check g.choices.length with
  | error e => rfl
  | ok u =>
    have hsize : w.size = g.choices.length := (Weights.check_eq_ok_iff.1 hw).1
    -- either engine gives the mass of the worlds in which a query holds
    have hmass : WorldCircuit.massBelow g' w (2 ^ w.size) =
        WorldCircuit.massBelow g w (2 ^ w.size) := by
      funext q
      simp only [WorldCircuit.massBelow, h.truthValues_eq]
    rw [Engine.values_eq_masses kind hsize,
      Engine.values_eq_masses kind' (hsize.trans (congrArg List.length h.choices_eq).symm), hmass,
      h.queries_eq]

end GroundProgram.SameUpToOrder

namespace Program

/-- Programs that differ only in the order of literals, and agree for every rule about whether its positive
literals can be looked up from left to right, ask for the same atoms, have the same named nodes and the same
baseline, and with exact numbers their circuits answer all weights alike. -/
theorem ground_reordered {p p' : Program ℚ} (h : p.SameUpToOrder p')
    (hs : List.Forall₂ Rule.SearchedAlike p.rules p'.rules) {limit limit' : Nat}
    {g g' : GroundProgram ℚ} (hg : (p.ground limit).outcome = .ok g)
    (hg' : (p'.ground limit').outcome = .ok g') :
    g'.queries.map (·.1) = g.queries.map (·.1) ∧ g'.named = g.named ∧ g'.baseline = g.baseline ∧
      ∀ {kind kind' : EngineKind} {maxChoices maxChoices' : Nat} {c c' : Circuit ℚ},
        Engine.circuit kind maxChoices g = .ok c → Engine.circuit kind' maxChoices' g' = .ok c' →
          ∀ w, c'.evaluate w = c.evaluate w := by
  obtain ⟨hcheck, possible, order, hpossible, hto⟩ := groundsTo_of_ground hg
  obtain ⟨hcheck', possible', order', hpossible', hto'⟩ := groundsTo_of_ground hg'
  have halike := h.joinedAlike hs
  have hp := safe_of_check hcheck
  obtain rfl := halike.possible_eq hp (safe_of_check hcheck') hpossible hpossible'
  have hsame := halike.groundsTo
    (groundAtoms_of_derivable hp (derivable_of_mem_possible hp hpossible)) hto hto'
  refine ⟨by rw [hsame.queries_eq], ?_, ?_, fun hc hc' => hsame.evaluate_eq hc hc'⟩
  · rw [GroundProgram.named, GroundProgram.named, hsame.choices_eq]
  · rw [GroundProgram.baseline, GroundProgram.baseline, hsame.choices_eq]

/-- One toss of a coin, with the negated literal in front. -/
def turnedCoin : Program ℚ where
  clauses := [.chance (mkRat 1 2) (.compound "heads" [.int 0]), .fact (.compound "tossed" [.int 0]),
    .rule ⟨.compound "tails" [.var "T"],
      [⟨.compound "heads" [.var "T"], false⟩, ⟨.compound "tossed" [.var "T"], true⟩]⟩]
  queries := [.compound "tails" [.int 0]]

/-- What the program with the negated literal in front says about tails, without variables. -/
def groundTurnedCoin : GroundProgram ℚ :=
  { groundCoin with atoms := [⟨.compound "tossed" [.int 0], true, [], []⟩,
      ⟨.compound "heads" [.int 0], false, [0], []⟩,
      ⟨.compound "tails" [.int 0], false, [], [[⟨1, false⟩, ⟨0, true⟩]]⟩] }

theorem ground_reordered_coin :
    coin.SameUpToOrder turnedCoin ∧ (coin.ground 10).outcome = .ok groundCoin ∧
      (turnedCoin.ground 10).outcome = .ok groundTurnedCoin ∧
      ∀ w, (DiagramCircuit.compile groundTurnedCoin).toCircuit.evaluate w =
        (DiagramCircuit.compile groundCoin).toCircuit.evaluate w := by
  have same : coin.SameUpToOrder turnedCoin :=
    ⟨.cons (.chance _ _) (.cons (.fact _) (.cons (.rule ⟨rfl, .swap _ _ _⟩) .nil)), rfl⟩
  have hbodies : coin.CompoundBodies := by
    show ∀ r ∈ coin.rules, ∀ l ∈ r.body, l.positive = true → l.atom.functor?.isSome = true
    decide
  have grounds : (coin.ground 10).outcome = .ok groundCoin := by decide +kernel
  have grounds' : (turnedCoin.ground 10).outcome = .ok groundTurnedCoin := by decide +kernel
  obtain ⟨-, -, -, halike⟩ := ground_reordered same (same.searchedAlike hbodies) grounds grounds'
  have hc : Engine.circuit .diagrams 0 groundCoin = .ok (DiagramCircuit.compile groundCoin).toCircuit :=
    rfl
  have hc' : Engine.circuit .diagrams 0 groundTurnedCoin =
      .ok (DiagramCircuit.compile groundTurnedCoin).toCircuit := rfl
  exact ⟨same, grounds, grounds', halike hc hc'⟩

/-- What is drawn is known when it is marked and holds itself. -/
def markFirstText : String :=
  "0.5::drawn(1). marked(drawn(1)). known(X) :- marked(X), X. query(known(drawn(1))). query(drawn(1))."

/-- What the text says. -/
def markFirst : Program ℚ where
  clauses := [.chance (mkRat 1 2) (.compound "drawn" [.int 1]),
    .fact (.compound "marked" [.compound "drawn" [.int 1]]),
    .rule ⟨.compound "known" [.var "X"], [⟨.compound "marked" [.var "X"], true⟩, ⟨.var "X", true⟩]⟩]
  queries := [.compound "known" [.compound "drawn" [.int 1]], .compound "drawn" [.int 1]]

/-- What it says without variables. -/
def groundMarkFirst : GroundProgram ℚ where
  choices := [⟨.compound "drawn" [.int 1], mkRat 1 2⟩]
  atoms := [⟨.compound "marked" [.compound "drawn" [.int 1]], true, [], []⟩,
    ⟨.compound "drawn" [.int 1], false, [0], []⟩,
    ⟨.compound "known" [.compound "drawn" [.int 1]], false, [], [[⟨0, true⟩, ⟨1, true⟩]]⟩]
  queries := [(.compound "known" [.compound "drawn" [.int 1]], some 2),
    (.compound "drawn" [.int 1], some 1)]

/-- The same text, with the literal in front that is a variable. -/
def variableFirstText : String :=
  "0.5::drawn(1). marked(drawn(1)). known(X) :- X, marked(X). query(known(drawn(1))). query(drawn(1))."

/-- What this text says. -/
def variableFirst : Program ℚ where
  clauses := [.chance (mkRat 1 2) (.compound "drawn" [.int 1]),
    .fact (.compound "marked" [.compound "drawn" [.int 1]]),
    .rule ⟨.compound "known" [.var "X"], [⟨.var "X", true⟩, ⟨.compound "marked" [.var "X"], true⟩]⟩]
  queries := [.compound "known" [.compound "drawn" [.int 1]], .compound "drawn" [.int 1]]

/-- What that says without variables. -/
def groundVariableFirst : GroundProgram ℚ where
  choices := [⟨.compound "drawn" [.int 1], mkRat 1 2⟩]
  atoms := [⟨.compound "drawn" [.int 1], false, [0], []⟩]
  queries := [(.compound "known" [.compound "drawn" [.int 1]], none),
    (.compound "drawn" [.int 1], some 0)]

/-- Two programs that can be written and differ in the order of two literals have the same choices, and give a
query different probabilities under the same weights. -/
theorem not_commutes_variableFirst :
    (ofText markFirstText : Except EngineError (Program ℚ)) = .ok markFirst ∧
      (ofText variableFirstText : Except EngineError (Program ℚ)) = .ok variableFirst ∧
      markFirst.SameUpToOrder variableFirst ∧
      (markFirst.ground 10).outcome = .ok groundMarkFirst ∧
      (variableFirst.ground 10).outcome = .ok groundVariableFirst ∧
      groundVariableFirst.baseline = groundMarkFirst.baseline ∧
      (Engine.circuit .worlds 20 groundMarkFirst >>= fun c => c.evaluate ⟨#[mkRat 1 2]⟩).map (·.toList) =
        .ok [(.compound "drawn" [.int 1], mkRat 1 2),
          (.compound "known" [.compound "drawn" [.int 1]], mkRat 1 2)] ∧
      (Engine.circuit .worlds 20 groundVariableFirst >>= fun c =>
          c.evaluate ⟨#[mkRat 1 2]⟩).map (·.toList) =
        .ok [(.compound "drawn" [.int 1], mkRat 1 2),
          (.compound "known" [.compound "drawn" [.int 1]], 0)] := by
  refine ⟨by decide +kernel, by decide +kernel, ?_, by decide +kernel, by decide +kernel, rfl,
    by decide +kernel, by decide +kernel⟩
  exact ⟨.cons (.chance _ _) (.cons (.fact _) (.cons (.rule ⟨rfl, .swap _ _ _⟩) .nil)), rfl⟩

end Program

end TimedInference
