import Mathlib.Data.List.Find
import TimedInference.Proofs.Cache.Outcomes
import TimedInference.Proofs.List.Distinct
import TimedInference.Proofs.Log.Success
import TimedInference.Proofs.Template.Lines

/-!
# The weights that events set

An entry sets the weight of every declared fact that has a node to the probability of the fact's first
event, or to zero (`Entry.assign_ofCircuit`).  When the declarations and the events are in the default
format, facts are recognised by their identifiers and times, so which weights are set can be said without
texts.
-/

namespace TimedInference

open Syntax

variable {α : Type} [Probability α]

/-! ## Setting several weights -/

namespace Weights

/-- The weights with those of several nodes replaced, one after the other. -/
def setAll (w : Weights α) (settings : List (Nat × α)) : Except EngineError (Weights α) :=
  settings.foldlM (fun w s => w.set s.1 s.2) w

theorem setAll_cons_eq_ok_iff {w w' : Weights α} {s : Nat × α} {settings : List (Nat × α)} :
    w.setAll (s :: settings) = .ok w' ↔ ∃ v, w.set s.1 s.2 = .ok v ∧ v.setAll settings = .ok w' := by
  rw [setAll, List.foldlM_cons, bind_eq_ok]
  rfl

/-- Weights of nodes can be set to probabilities. -/
theorem exists_setAll {w : Weights α} {settings : List (Nat × α)}
    (h : ∀ s ∈ settings, s.1 < w.size ∧ Probability.inUnit s.2 = true) :
    ∃ w', w.setAll settings = .ok w' := by
  induction settings generalizing w with
  | nil => exact ⟨w, rfl⟩
  | cons s settings ih =>
    rw [List.forall_mem_cons] at h
    have hset := set_eq_ok_iff.2 ⟨h.1.2, h.1.1, rfl⟩
    obtain ⟨w', hw'⟩ := ih fun t ht => by
      rw [size_of_set hset]
      exact h.2 t ht
    exact ⟨w', setAll_cons_eq_ok_iff.2 ⟨_, hset, hw'⟩⟩

theorem size_of_setAll {w w' : Weights α} {settings : List (Nat × α)}
    (h : w.setAll settings = .ok w') : w'.size = w.size := by
  induction settings generalizing w with
  | nil => rw [Except.ok.inj h]
  | cons s settings ih =>
    obtain ⟨v, hv, h⟩ := setAll_cons_eq_ok_iff.1 h
    rw [ih h, size_of_set hv]

omit [Probability α] in
theorem ext_get? {w w' : Weights α} (h : ∀ n, w.get? n = w'.get? n) : w = w' :=
  congrArg Weights.mk (Array.ext_getElem? h)

/-- The weight of a node that is not set stays. -/
theorem get?_of_setAll_of_ne {w w' : Weights α} {settings : List (Nat × α)}
    (h : w.setAll settings = .ok w') {n : Nat} (hn : ∀ s ∈ settings, s.1 ≠ n) :
    w'.get? n = w.get? n := by
  induction settings generalizing w with
  | nil => rw [Except.ok.inj h]
  | cons s settings ih =>
    rw [List.forall_mem_cons] at hn
    obtain ⟨v, hv, h⟩ := setAll_cons_eq_ok_iff.1 h
    rw [ih h hn.2, get?_of_set hv, if_neg hn.1]

/-- The weight of a node that is always set to the same number is this number. -/
theorem get?_of_setAll_of_mem {w w' : Weights α} {settings : List (Nat × α)}
    (h : w.setAll settings = .ok w') {n : Nat} {p : α} (hm : (n, p) ∈ settings)
    (hn : ∀ s ∈ settings, s.1 = n → s.2 = p) : w'.get? n = some p := by
  induction settings generalizing w with
  | nil => simp at hm
  | cons s settings ih =>
    rw [List.forall_mem_cons] at hn
    obtain ⟨v, hv, hrest⟩ := setAll_cons_eq_ok_iff.1 h
    -- the last setting of the node counts, and all of them give the same weight
    by_cases hlater : ∃ t ∈ settings, t.1 = n
    · obtain ⟨t, ht, rfl⟩ := hlater
      refine ih hrest ?_ hn.2
      rw [← hn.2 t ht rfl]
      exact ht
    · push Not at hlater
      have hs : s = (n, p) := by
        rcases List.mem_cons.1 hm with hs | hs
        · exact hs.symm
        · exact absurd rfl (hlater _ hs)
      subst hs
      rw [get?_of_setAll_of_ne hrest hlater, get?_of_set hv, if_pos rfl]

/-- Weights that are probabilities stay so. -/
theorem inUnit_of_setAll {w w' : Weights α} {settings : List (Nat × α)}
    (h : w.setAll settings = .ok w') (hw : ∀ p ∈ w.values, Probability.inUnit p = true) :
    ∀ p ∈ w'.values, Probability.inUnit p = true := by
  induction settings generalizing w with
  | nil =>
    obtain rfl := Except.ok.inj h
    exact hw
  | cons s settings ih =>
    obtain ⟨v, hv, h⟩ := setAll_cons_eq_ok_iff.1 h
    refine ih h fun p hp => ?_
    obtain ⟨hs, -, rfl⟩ := set_eq_ok_iff.1 hv
    rcases Array.mem_or_eq_of_mem_setIfInBounds hp with hp | rfl
    · exact hw p hp
    · exact hs

/-- Weights that fit a circuit still do when some are set. -/
theorem check_of_setAll {w w' : Weights α} {settings : List (Nat × α)} {count : Nat}
    (h : w.setAll settings = .ok w') (hw : w.check count = .ok ()) : w'.check count = .ok () := by
  obtain ⟨hsize, hunit⟩ := check_eq_ok_iff.1 hw
  exact check_eq_ok_iff.2 ⟨(size_of_setAll h).trans hsize, inUnit_of_setAll h hunit⟩

end Weights

/-! ## Declared facts -/

namespace Event

/-- Whether two events are about the same fact. -/
def sameFact (d e : Event α) : Bool := d.identifier == e.identifier && d.time == e.time

theorem mock_eq_iff {d e : Event α} (hd : d.template.Standard) (he : e.template.Standard) :
    d.mock = e.mock ↔ d.identifier = e.identifier ∧ d.time = e.time :=
  FactTemplate.mock_inj hd he

/-- The probability of the first event of a fact; zero without one. -/
def probabilityAt (events : List (Event α)) (identifier : String) (time : Int) : α :=
  ((events.find? fun e => e.identifier = identifier ∧ e.time = time).map (·.probability)).getD 0

theorem inUnit_probabilityAt (events : List (Event α)) (identifier : String) (time : Int) :
    Probability.inUnit (probabilityAt events identifier time) = true := by
  unfold probabilityAt
  cases events.find? fun e => e.identifier = identifier ∧ e.time = time with
  | none => exact Probability.inUnit_zero
  | some e => exact e.inUnit

/-- When the text of a fact shows its time, an event is recognised as the fact if it has the time of the fact
after the move, besides what else the text shows. -/
theorem key?_eq_some_iff_of_normalize {d e : Event α} {shown : Prop} (ht : Time.Fits d.time)
    (h : ∀ time, Text.normalize (e.template.mock α time) = Text.normalize d.mock ↔
      shown ∧ time = d.time) (shift : Int) :
    e.key? shift = some (Text.normalize d.mock) ↔ shown ∧ e.time = d.time + shift := by
  simp only [key?, movedMock?, Option.map_map, Option.map_eq_some_iff, Time.fit?_eq_some_iff,
    Function.comp_apply, h]
  constructor
  · rintro ⟨time, ⟨-, rfl⟩, hshown, htime⟩
    exact ⟨hshown, by omega⟩
  · rintro ⟨hshown, htime⟩
    have hmoved : e.time - shift = d.time := by omega
    exact ⟨d.time, ⟨by rwa [hmoved], hmoved⟩, hshown, rfl⟩

/-- An event is recognised as the fact that it is about after the move. -/
theorem key?_eq_some_mock_iff {d e : Event α} (hd : d.template.Standard) (ht : Time.Fits d.time)
    (he : e.template.Standard) (shift : Int) :
    e.key? shift = some d.mock ↔ e.identifier = d.identifier ∧ e.time = d.time + shift := by
  have hnormal : Text.normalize d.mock = d.mock := FactTemplate.normalize_mock hd d.time
  rw [← hnormal]
  refine key?_eq_some_iff_of_normalize ht (fun time => ?_) shift
  rw [hnormal, FactTemplate.normalize_mock he]
  exact FactTemplate.mock_inj he hd

/-- The probability of a fact among moved events is that of the first event that is recognised as it. -/
theorem getD_rebase_eq {events : List (Event α)} {shift : Int} {key : String} {about : Event α → Prop}
    [DecidablePred about] (h : ∀ e ∈ events, e.key? shift = some key ↔ about e) :
    (rebase events shift).getD key 0 =
      ((events.find? fun e => about e).map (·.probability)).getD 0 := by
  rw [Std.ExtTreeMap.getD_eq_getD_getElem?, getElem?_rebase]
  congr 2
  refine List.find?_congr fun e hm => ?_
  rw [decide_eq_decide]
  exact h e hm

/-- The probability of a declared fact among moved events is that of its first event. -/
theorem getD_rebase {events : List (Event α)} (he : ∀ e ∈ events, e.template.Standard) {d : Event α}
    (hd : d.template.Standard) (ht : Time.Fits d.time) (shift : Int) :
    (rebase events shift).getD d.mock 0 = probabilityAt events d.identifier (d.time + shift) :=
  getD_rebase_eq fun e hm => key?_eq_some_mock_iff hd ht (he e hm) shift

end Event

namespace Binding

variable {declarations : List (Event α)}

/-- Declarations are told apart by the facts that they are about. -/
theorem distinctMocks_eq (h : ∀ d ∈ declarations, d.template.Standard) :
    distinctMocks declarations = (declarations.eraseDupsBy Event.sameFact).map Event.mock := by
  refine eraseDupsBy_map fun d hd e he => ?_
  have hnormal {d : Event α} (hd : d ∈ declarations) : Text.normalize d.mock = d.mock :=
    FactTemplate.normalize_mock (h d hd) d.time
  rw [hnormal hd, hnormal he, Bool.eq_iff_iff, beq_iff_eq, Event.mock_eq_iff (h d hd) (h e he),
    Event.sameFact, Bool.and_eq_true, beq_iff_eq, beq_iff_eq]

theorem tracked_ofDeclarations (h : ∀ d ∈ declarations, d.template.Standard)
    (named : Std.ExtTreeMap String Nat) :
    (ofDeclarations declarations named).tracked =
      (declarations.eraseDupsBy Event.sameFact).filterMap fun d =>
        named[d.atom.text]?.map fun node => ⟨d.mock, d.mock, node⟩ := by
  show (distinctMocks declarations).filterMap _ = _
  rw [distinctMocks_eq h, List.filterMap_map]
  refine List.filterMap_congr fun d hd => ?_
  have hs := h d (mem_of_mem_eraseDupsBy hd)
  have hname : nodeName d.mock = d.atom.text := FactTemplate.nodeName_mock hs d.time
  have hnormal : Text.normalize d.mock = d.mock := FactTemplate.normalize_mock hs d.time
  simp only [Function.comp_apply, hname, hnormal]

end Binding

/-! ## Entries -/

namespace Entry

/-- The nodes whose weights events set, and the weights. -/
def settings (declarations events : List (Event α)) (named : Std.ExtTreeMap String Nat)
    (shift : Int) : List (Nat × α) :=
  (declarations.eraseDupsBy Event.sameFact).filterMap fun d =>
    named[d.atom.text]?.map fun node =>
      (node, Event.probabilityAt events d.identifier (d.time + shift))

/-- An entry sets the weights of the nodes of its tracked facts, one after the other. -/
theorem assign_eq_setAll (e : Entry α) (rebased : Rebased α) :
    e.assign rebased = e.circuit.baseline.setAll
      (e.tracked.map fun fact => (fact.node, rebased.getD fact.key 0)) := by
  rw [Weights.setAll, List.foldlM_map]
  rfl

/-- An entry sets the weight of every declared fact that has a node. -/
theorem assign_ofCircuit {declarations events : List (Event α)}
    (hd : ∀ d ∈ declarations, d.template.Standard ∧ Time.Fits d.time)
    (he : ∀ e ∈ events, e.template.Standard) (program : String) (query : Query) (c : Circuit α)
    (shift : Int) :
    (ofCircuit program declarations query c).assign (Event.rebase events shift) =
      c.baseline.setAll (settings declarations events c.named shift) := by
  have hsettings : settings declarations events c.named shift =
      (Binding.ofDeclarations declarations c.named).tracked.map fun fact =>
        (fact.node, (Event.rebase events shift).getD fact.key 0) := by
    rw [Binding.tracked_ofDeclarations fun d hm => (hd d hm).1, settings, List.map_filterMap]
    refine List.filterMap_congr fun d hm => ?_
    obtain ⟨hs, ht⟩ := hd d (mem_of_mem_eraseDupsBy hm)
    rw [Option.map_map, ← Event.getD_rebase he hs ht]
    rfl
  rw [hsettings, assign_eq_setAll]
  rfl

end Entry

end TimedInference
