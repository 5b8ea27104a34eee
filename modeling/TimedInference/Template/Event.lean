import TimedInference.Template.Fact
import TimedInference.Text.Quoted
import TimedInference.Time

/-!
# Events

An event is a fact of a family at a time, with a probability. As a declaration it only says that its
fact has a node whose weight later events may set.
-/

namespace TimedInference

/-- A fact of a family at a time, with a probability. -/
structure Event (α : Type) [Probability α] where
  template : FactTemplate
  time : Int
  probability : α
  /-- The probability lies between zero and one. -/
  inUnit : Probability.inUnit probability = true

namespace Event

variable {α : Type} [Probability α]

/-- The event with a probability, which must lie between zero and one. -/
def ofProbability (template : FactTemplate) (time : Int) (p : α) :
    Except TemplateError (Event α) :=
  if h : Probability.inUnit p = true then .ok ⟨template, time, p, h⟩
  else .error (.improbable template.identifier (Probability.text p))

/-- The declaration of a fact. -/
def declaration (template : FactTemplate) (time : Int) : Event α :=
  ⟨template, time, 0, Probability.inUnit_zero⟩

/-- The name of the event's family. -/
def identifier (e : Event α) : String := e.template.identifier

/-- The text of the event. -/
def text (e : Event α) : String := e.template.render e.time e.probability

/-- The text of the event's fact with probability zero. -/
def mock (e : Event α) : String := e.template.mock α e.time

/-- The text of the event's fact moved back by a shift, with probability zero, if its time fits. -/
def movedMock? (e : Event α) (shift : Int) : Option String :=
  (Time.fit? (e.time - shift)).map fun time => e.template.mock α time

/-- A description of the event. -/
def description (e : Event Float) : String :=
  "FactInstance \x7b identifier: " ++ Text.quoted e.identifier ++ ", timestamp: " ++
    toString e.time ++ ", probability: " ++ Layout.described.text e.probability ++ " \x7d"

end Event

end TimedInference
