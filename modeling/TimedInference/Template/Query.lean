import TimedInference.Template.Feedback

/-!
# Query templates

A family of queries that differ in one argument, their timestamp; the other arguments are fixed and
belong to the name of the family.
-/

namespace TimedInference

/-- A family of queries. -/
structure QueryTemplate where
  functor : String
  /-- The arguments besides the timestamp. -/
  args : List Term
  /-- The position of the timestamp among the arguments; beyond the end it stands last. -/
  timePosition : Nat
  feedback : Option Feedback
  deriving DecidableEq

namespace QueryTemplate

/-- The family of queries with only a timestamp. -/
def ofFunctor (functor : String) : Except TemplateError QueryTemplate :=
  if Text.isBlankText functor then .error .emptyIdentifier else .ok ⟨functor, [], 0, none⟩

/-- The name of the family. -/
def identifier (t : QueryTemplate) : String :=
  String.intercalate "_" (t.functor :: t.args.map Term.text)

/-- The position of the timestamp among all arguments. -/
def position (t : QueryTemplate) : Nat := min t.timePosition t.args.length

theorem position_le (t : QueryTemplate) : t.position ≤ t.args.length := Nat.min_le_right _ _

/-- The atom that the query at a time asks for. -/
def atom (t : QueryTemplate) (time : Int) : Term :=
  .compound t.functor (t.args.insertIdx t.position (.int time))

/-- The text of the query at a time. -/
def render (t : QueryTemplate) (time : Int) : String := "query(" ++ (t.atom time).text ++ ")."

/-- A result with its timestamp moved. -/
def translate (t : QueryTemplate) (result : Term) (shift : Int) : Except CacheError Term :=
  (result.moveArg t.position shift).mapError .overflow

end QueryTemplate

/-- A query of a family at a time. -/
structure Query where
  template : QueryTemplate
  time : Int
  deriving DecidableEq

namespace Query

/-- The name of the query's family. -/
def identifier (q : Query) : String := q.template.identifier

/-- The text of the query. -/
def text (q : Query) : String := q.template.render q.time

/-- A description of the query. -/
def description (q : Query) : String :=
  "QueryInstance \x7b identifier: " ++ Text.quoted q.identifier ++ ", timestamp: " ++
    toString q.time ++ " \x7d"

end Query

end TimedInference
