import TimedInference.Proofs.Cache.Answers
import TimedInference.Proofs.Cache.Rewriting
import TimedInference.Proofs.Template.Verbatim

/-!
# Tracked facts

An entry tracks the declared facts that have a node.  Facts that are written in different ways may name one
node (`Entry.IsOver.node_eq_iff`).  Then the events of the later fact, or their absence, decide the weight of
the node: weights are set in the order of the declarations (`Entry.assign_compiled`), so an event of the
earlier fact is lost (`Entry.assign_respelled`).  Facts in the default format have nodes of their own, and
no event of theirs is lost (`Entry.assign_of_format`).
-/

namespace TimedInference

variable {α : Type} [Probability α]

/-! ## Setting several weights -/

namespace Weights

theorem setAll_append_eq_ok_iff {w w' : Weights α} {first others : List (Nat × α)} :
    w.setAll (first ++ others) = .ok w' ↔
      ∃ v, w.setAll first = .ok v ∧ v.setAll others = .ok w' := by
  rw [setAll, List.foldlM_append, bind_eq_ok]
  rfl

/-- The weight of a node is the one that it is set to last. -/
theorem get?_of_setAll_of_last {w w' : Weights α} {before after : List (Nat × α)} {s : Nat × α}
    (h : w.setAll (before ++ s :: after) = .ok w') (hafter : ∀ t ∈ after, t.1 ≠ s.1) :
    w'.get? s.1 = some s.2 := by
  obtain ⟨v, -, hv⟩ := setAll_append_eq_ok_iff.1 h
  obtain ⟨u, hu, hrest⟩ := setAll_cons_eq_ok_iff.1 hv
  rw [get?_of_setAll_of_ne hrest hafter, get?_of_set hu, if_pos rfl]

end Weights

/-! ## Bindings -/

namespace Binding

variable {declarations : List (Event α)} {named : Std.ExtTreeMap String Nat}

/-- Texts that are kept differ in more than white space. -/
theorem nodup_normalize_distinctMocks :
    ((distinctMocks declarations).map Text.normalize).Nodup := by
  rw [List.Nodup, List.pairwise_map]
  refine (pairwise_eraseDupsBy _ _).imp fun hab heq => ?_
  simp [heq] at hab

theorem mem_tracked_iff {fact : TrackedFact} :
    fact ∈ (ofDeclarations declarations named).tracked ↔
      fact.mock ∈ distinctMocks declarations ∧ fact.key = Text.normalize fact.mock ∧
        named[nodeName fact.mock]? = some fact.node := by
  obtain ⟨mock, key, node⟩ := fact
  simp only [ofDeclarations, List.mem_filterMap, Option.map_eq_some_iff, TrackedFact.mk.injEq]
  constructor
  · rintro ⟨_, hm, _, hnode, rfl, rfl, rfl⟩
    exact ⟨hm, rfl, hnode⟩
  · rintro ⟨hm, rfl, hnode⟩
    exact ⟨mock, hm, node, hnode, rfl, rfl, rfl⟩

end Binding

omit [Probability α] in
/-- A choice has one name. -/
theorem GroundProgram.text_eq_of_named {g : GroundProgram α} {text text' : String} {i : Nat}
    (h : g.named[text]? = some i) (h' : g.named[text']? = some i) : text = text' := by
  obtain ⟨⟨c, hc, htext⟩, -⟩ := named_eq_some_iff.1 h
  obtain ⟨⟨c', hc', htext'⟩, -⟩ := named_eq_some_iff.1 h'
  obtain rfl := Option.some.inj (hc.symm.trans hc')
  exact htext.symm.trans htext'

/-! ## Entries -/

namespace Entry

/-- What an entry holds of the ground program that it is compiled from: the tracked facts are the
declarations that name a choice, and the weights are those of the choices. -/
structure IsOver (e : Entry α) (declarations : List (Event α)) (g : GroundProgram α) : Prop where
  tracked_eq : e.tracked = (Binding.ofDeclarations declarations g.named).tracked
  baseline_eq : e.circuit.baseline = .ofList g.baseline

theorem exists_isOver_of_compile {kind : EngineKind} {maxChoices atomLimit : Nat} {warnUnbound : Bool}
    {program : String} {declarations : List (Event α)} {query : Query} {e : Entry α}
    (h : (compile (.ofKind kind maxChoices atomLimit) warnUnbound program declarations query).outcome =
      .ok e) : ∃ g, e.IsOver declarations g := by
  obtain ⟨p, g, c, -, -, hc, rfl⟩ := compile_eq_ok_iff.1 h
  have hcircuit := Engine.isCircuitOf_values hc
  refine ⟨g, ?_, hcircuit.baseline_eq⟩
  rw [← hcircuit.named_eq]
  rfl

variable {e : Entry α} {declarations : List (Event α)} {g : GroundProgram α}

/-- Tracked facts have one node when they name one. -/
theorem IsOver.node_eq_iff (h : e.IsOver declarations g) {fact fact' : TrackedFact}
    (hf : fact ∈ e.tracked) (hf' : fact' ∈ e.tracked) :
    fact.node = fact'.node ↔ nodeName fact.mock = nodeName fact'.mock := by
  rw [h.tracked_eq] at hf hf'
  obtain ⟨-, -, hnode⟩ := Binding.mem_tracked_iff.1 hf
  obtain ⟨-, -, hnode'⟩ := Binding.mem_tracked_iff.1 hf'
  constructor
  · intro heq
    rw [← heq] at hnode'
    exact GroundProgram.text_eq_of_named hnode hnode'
  · intro heq
    rw [heq, hnode'] at hnode
    exact (Option.some.inj hnode).symm

/-- A tracked fact is declared, and recognised by the text of its declaration. -/
theorem IsOver.exists_declaration (h : e.IsOver declarations g) {fact : TrackedFact}
    (hf : fact ∈ e.tracked) :
    ∃ d ∈ declarations, d.mock = fact.mock ∧ fact.key = Text.normalize d.mock := by
  rw [h.tracked_eq] at hf
  obtain ⟨hmem, hkey, -⟩ := Binding.mem_tracked_iff.1 hf
  obtain ⟨d, hdm, hdf⟩ := List.mem_map.1 (mem_of_mem_eraseDupsBy hmem)
  refine ⟨d, hdm, hdf, ?_⟩
  rw [hkey, hdf]

/-- Every tracked fact has a weight. -/
theorem IsOver.node_lt (h : e.IsOver declarations g) {fact : TrackedFact} (hf : fact ∈ e.tracked) :
    fact.node < e.circuit.baseline.size := by
  rw [h.tracked_eq] at hf
  obtain ⟨-, -, hnode⟩ := Binding.mem_tracked_iff.1 hf
  rw [h.baseline_eq, g.size_baseline]
  exact GroundProgram.lt_of_named hnode

/-- The probability that events give to a tracked fact; zero without one. -/
def given (rebased : Rebased α) (fact : TrackedFact) : α := rebased.getD fact.key 0

theorem inUnit_given {rebased : Rebased α}
    (hunit : ∀ (key : String) (p : α), rebased[key]? = some p → Probability.inUnit p = true) (fact : TrackedFact) :
    Probability.inUnit (given rebased fact) = true := by
  rw [given, Std.ExtTreeMap.getD_eq_getD_getElem?]
  cases hkey : rebased[fact.key]? with
  | none => exact Probability.inUnit_zero
  | some p => exact hunit fact.key p hkey

theorem IsOver.exists_assign (h : e.IsOver declarations g) {rebased : Rebased α}
    (hunit : ∀ (key : String) (p : α), rebased[key]? = some p → Probability.inUnit p = true) :
    ∃ w, e.assign rebased = .ok w := by
  rw [assign_eq_setAll]
  apply Weights.exists_setAll
  intro s hs
  obtain ⟨fact, hfact, rfl⟩ := List.mem_map.1 hs
  exact ⟨h.node_lt hfact, inUnit_given hunit fact⟩

variable {rebased : Rebased α} {w : Weights α} (hw : e.assign rebased = .ok w)
include hw

/-- The weight of a tracked node is that of the last fact that names it. -/
theorem get?_of_assign_of_last {before after : List TrackedFact} {fact : TrackedFact}
    (htracked : e.tracked = before ++ fact :: after) (hafter : ∀ f ∈ after, f.node ≠ fact.node) :
    w.get? fact.node = some (given rebased fact) := by
  rw [assign_eq_setAll, htracked, List.map_append, List.map_cons] at hw
  refine Weights.get?_of_setAll_of_last hw fun t ht => ?_
  obtain ⟨f, hf, rfl⟩ := List.mem_map.1 ht
  exact hafter f hf

/-- The weight of a node that is not tracked stays. -/
theorem get?_of_assign_of_ne {node : Nat} (hnode : ∀ fact ∈ e.tracked, fact.node ≠ node) :
    w.get? node = e.circuit.baseline.get? node := by
  rw [assign_eq_setAll] at hw
  refine Weights.get?_of_setAll_of_ne hw fun t ht => ?_
  obtain ⟨f, hf, rfl⟩ := List.mem_map.1 ht
  exact hnode f hf

/-- Every tracked fact has the weight that events give to it when facts of one node are given the same. -/
theorem get?_of_assign_iff :
    (∀ fact ∈ e.tracked, w.get? fact.node = some (given rebased fact)) ↔
      ∀ fact ∈ e.tracked, ∀ fact' ∈ e.tracked, fact.node = fact'.node →
        given rebased fact = given rebased fact' := by
  constructor
  · intro hall fact hf fact' hf' hnode
    have hfact := hall fact hf
    rw [hnode, hall fact' hf'] at hfact
    exact (Option.some.inj hfact).symm
  · intro hsame fact hf
    rw [assign_eq_setAll] at hw
    refine Weights.get?_of_setAll_of_mem hw (List.mem_map.2 ⟨fact, hf, rfl⟩) fun s hs hnode => ?_
    obtain ⟨fact', hf', rfl⟩ := List.mem_map.1 hs
    exact hsame fact' hf' fact hf hnode

omit hw

/-- Setting the weights of an entry succeeds.  The last tracked fact of each node decides its weight, other
nodes keep theirs, and every tracked fact has the weight that events give to it exactly when facts that
name one node are given the same. -/
theorem assign_compiled {kind : EngineKind} {maxChoices atomLimit : Nat} {warnUnbound : Bool}
    {program : String} {query : Query}
    (h : (compile (.ofKind kind maxChoices atomLimit) warnUnbound program declarations query).outcome =
      .ok e)
    (hunit : ∀ (key : String) (p : α), rebased[key]? = some p → Probability.inUnit p = true) :
    ∃ w, e.assign rebased = .ok w ∧
      (∀ before fact after, e.tracked = before ++ fact :: after →
        (∀ f ∈ after, nodeName f.mock ≠ nodeName fact.mock) →
          w.get? fact.node = some (given rebased fact)) ∧
      (∀ node, (∀ fact ∈ e.tracked, fact.node ≠ node) →
        w.get? node = e.circuit.baseline.get? node) ∧
      e.matched rebased = (e.tracked.filter fun fact => rebased[fact.key]?.isSome).length ∧
      ((∀ fact ∈ e.tracked, w.get? fact.node = some (given rebased fact)) ↔
        ∀ fact ∈ e.tracked, ∀ fact' ∈ e.tracked, nodeName fact.mock = nodeName fact'.mock →
          given rebased fact = given rebased fact') := by
  obtain ⟨g, hover⟩ := exists_isOver_of_compile h
  obtain ⟨w, hw⟩ := hover.exists_assign hunit
  refine ⟨w, hw, ?_, fun node hnode => get?_of_assign_of_ne hw hnode, ?_, ?_⟩
  · intro before fact after htracked hafter
    have hfact : fact ∈ e.tracked := by simp [htracked]
    refine get?_of_assign_of_last hw htracked fun f hf hnode => hafter f hf ?_
    have hf : f ∈ e.tracked := by simp [htracked, hf]
    exact (hover.node_eq_iff hf hfact).1 hnode
  · rw [matched, List.countP_eq_length_filter]
    simp only [Std.ExtTreeMap.isSome_getElem?_eq_contains]
  · rw [get?_of_assign_iff hw]
    constructor
    · intro hsame fact hf fact' hf' hname
      exact hsame fact hf fact' hf' ((hover.node_eq_iff hf hf').2 hname)
    · intro hsame fact hf fact' hf' hnode
      exact hsame fact hf fact' hf' ((hover.node_eq_iff hf hf').1 hnode)

end Entry

theorem Event.inUnit_of_getElem?_rebase {events : List (Event α)} {shift : Int} (key : String) (p : α)
    (h : (rebase events shift)[key]? = some p) : Probability.inUnit p = true := by
  rw [getElem?_rebase, Option.map_eq_some_iff] at h
  obtain ⟨e, -, rfl⟩ := h
  exact e.inUnit

/-- Events set the weights of a compiled entry. -/
theorem Entry.exists_assign_rebase {kind : EngineKind} {maxChoices atomLimit : Nat} {warnUnbound : Bool}
    {program : String} {declarations : List (Event α)} {query : Query} {e : Entry α}
    (h : (compile (.ofKind kind maxChoices atomLimit) warnUnbound program declarations query).outcome =
      .ok e) (events : List (Event α)) (shift : Int) :
    ∃ w, e.assign (Event.rebase events shift) = .ok w := by
  obtain ⟨g, hover⟩ := exists_isOver_of_compile h
  exact hover.exists_assign Event.inUnit_of_getElem?_rebase

/-- The coin of the game has a node, which its event sets. -/
theorem Entry.assign_compiled_game :
    ∃ (e : Entry Float) (w : Weights Float) (fact : TrackedFact),
      (compile (.ofKind .worlds 20 100) true "win(T) :- heads(T)." coinAtThree ⟨win, 3⟩).outcome =
        .ok e ∧
      e.assign (Event.rebase seenHeads 0) = .ok w ∧ e.tracked = [fact] ∧
      w.get? fact.node = some 0.5 := by
  have hcompiled : ((compile (.ofKind .worlds 20 100) true "win(T) :- heads(T)." coinAtThree
      ⟨win, 3⟩).outcome.toOption.map Entry.tracked) =
        some [⟨"0::heads(3).", "0::heads(3).", 0⟩] := by decide +kernel
  have hgiven : given (Event.rebase seenHeads 0) ⟨"0::heads(3).", "0::heads(3).", 0⟩ = 0.5 := by
    decide +kernel
  obtain ⟨e, he, htracked⟩ := Option.map_eq_some_iff.1 hcompiled
  obtain ⟨w, hw, hlast, -⟩ := assign_compiled (eq_ok_of_toOption he)
    Event.inUnit_of_getElem?_rebase
  refine ⟨e, w, _, eq_ok_of_toOption he, hw, htracked, ?_⟩
  rw [hlast [] _ [] htracked (by simp), hgiven]

/-! ## Declarations in the default format -/

/-- When declarations are in the default format every tracked fact has the weight that events give to
it. -/
theorem Entry.assign_of_format {kind : EngineKind} {maxChoices atomLimit : Nat} {warnUnbound : Bool}
    {program : String} {declarations : List (Event α)} {query : Query} {e : Entry α}
    (h : (compile (.ofKind kind maxChoices atomLimit) warnUnbound program declarations query).outcome =
      .ok e) (hd : ∀ d ∈ declarations, d.template.format = FactTemplate.defaultFormat)
    {rebased : Rebased α} {w : Weights α} (hw : e.assign rebased = .ok w) :
    ∀ fact ∈ e.tracked, w.get? fact.node = some (given rebased fact) := by
  obtain ⟨g, hover⟩ := exists_isOver_of_compile h
  rw [get?_of_assign_iff hw]
  intro fact hf fact' hf' hnode
  rw [hover.node_eq_iff hf hf'] at hnode
  -- the key of a fact in the default format can be read off the name of its node
  have hread {f : TrackedFact} (hf : f ∈ e.tracked) :
      f.key.toList = "0::".toList ++ ((nodeName f.mock).toList ++ ['.']) := by
    obtain ⟨d, hdm, hdf, hkey⟩ := hover.exists_declaration hf
    rw [hkey, ← hdf]
    exact FactTemplate.toList_normalize_mock_eq_nodeName (hd d hdm) d.time
  have hkey : fact.key = fact'.key := by
    apply String.toList_inj.1
    rw [hread hf, hread hf', hnode]
  rw [given, given, hkey]

/-! ## Another spelling -/

/-- Heads, with a digit before the probability. -/
def paddedHeads : FactTemplate := ⟨"heads", "0" ++ FactTemplate.defaultFormat⟩

/-- The coin at time 3 in two spellings. -/
def respelledCoin : List (Event Float) := [.declaration heads 3, .declaration paddedHeads 3]

/-- The coin that is declared in two spellings was seen in the first, but its node keeps the weight zero of
the second. -/
theorem Entry.assign_respelled :
    FactTemplate.withFormat "heads" paddedHeads.format = .ok paddedHeads ∧
      ∃ (e : Entry Float) (w : Weights Float) (fact : TrackedFact),
        (compile (.ofKind .worlds 20 100) true "win(T) :- heads(T)." respelledCoin ⟨win, 3⟩).outcome =
          .ok e ∧
        e.assign (Event.rebase seenHeads 0) = .ok w ∧ fact ∈ e.tracked ∧
        (Event.rebase seenHeads 0)[fact.key]? = some 0.5 ∧ w.get? fact.node = some 0 ∧
        w.get? fact.node ≠ some (given (Event.rebase seenHeads 0) fact) := by
  refine ⟨by decide +kernel, ?_⟩
  have hcompiled : ((compile (.ofKind .worlds 20 100) true "win(T) :- heads(T)." respelledCoin
      ⟨win, 3⟩).outcome.toOption.bind fun e =>
        (e.assign (Event.rebase seenHeads 0)).toOption.bind fun w =>
          e.tracked.head?.map fun fact => (fact.key, w.get? fact.node)) =
            some ("0::heads(3).", some 0) := by decide +kernel
  have hseen : (Event.rebase seenHeads 0)["0::heads(3)."]? = some 0.5 := by decide +kernel
  have hlost : some (0 : Float) ≠ some 0.5 := by decide +kernel
  obtain ⟨e, he, hassign⟩ := Option.bind_eq_some_iff.1 hcompiled
  obtain ⟨w, hw, hfirst⟩ := Option.bind_eq_some_iff.1 hassign
  obtain ⟨fact, hfact, hpair⟩ := Option.map_eq_some_iff.1 hfirst
  obtain ⟨hkey, hweight⟩ := Prod.mk.inj hpair
  refine ⟨e, w, fact, eq_ok_of_toOption he, eq_ok_of_toOption hw, List.mem_of_mem_head? hfact, ?_,
    hweight, ?_⟩
  · rw [hkey, hseen]
  · rw [hweight, given, Std.ExtTreeMap.getD_eq_getD_getElem?, hkey, hseen]
    exact hlost

end TimedInference
