import Std.Data.ExtTreeMap.Lemmas
import TimedInference.Template.Event

/-!
# Events in the frame of an entry

Events are moved back to the time at which an entry was compiled and are known there by the texts of
their facts without white space. Of several events of one fact the first counts. An event whose time
does not fit after the move can match no compiled fact and is left out.
-/

namespace TimedInference

/-- The probabilities of facts by the texts that recognise them. -/
abbrev Rebased (α : Type) := Std.ExtTreeMap String α

namespace Event

variable {α : Type} [Probability α]

/-- The text that recognises an event moved back by a shift, if its time fits. -/
def key? (e : Event α) (shift : Int) : Option String := (e.movedMock? shift).map Text.normalize

/-- The probabilities with that of an event moved back by a shift, unless its fact has one. -/
def addTo (shift : Int) (m : Rebased α) (e : Event α) : Rebased α :=
  match e.key? shift with
  | some key => m.insertIfNew key e.probability
  | none => m

/-- The events moved back by a shift, by the texts that recognise them. -/
def rebase (events : List (Event α)) (shift : Int) : Rebased α := events.foldl (addTo shift) ∅

/-- The events whose times do not fit after the move. -/
def outOfFrame (events : List (Event α)) (shift : Int) : List (Event α) :=
  events.filter fun e => (e.key? shift).isNone

theorem getElem?_addTo (shift : Int) (m : Rebased α) (e : Event α) (key : String) :
    (addTo shift m e)[key]? =
      m[key]?.or (if e.key? shift = some key then some e.probability else none) := by
  unfold addTo
  cases hk : e.key? shift with
  | none => simp
  | some k =>
    rw [Std.ExtTreeMap.getElem?_insertIfNew]
    by_cases he : k = key
    · subst he
      by_cases hm : k ∈ m <;> simp [hm]
    · simp [he]

/-- The probability of a fact is that of its first event. -/
theorem getElem?_rebase (events : List (Event α)) (shift : Int) (key : String) :
    (rebase events shift)[key]? =
      (events.find? fun e => e.key? shift = some key).map (·.probability) := by
  suffices h : ∀ m : Rebased α, (events.foldl (addTo shift) m)[key]? =
      m[key]?.or ((events.find? fun e => e.key? shift = some key).map (·.probability)) by
    simpa [rebase] using h ∅
  induction events with
  | nil => simp
  | cons e es ih =>
    intro m
    rw [List.foldl_cons, ih, List.find?_cons, getElem?_addTo]
    by_cases he : e.key? shift = some key <;> simp [he]

end Event

end TimedInference
