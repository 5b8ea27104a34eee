import TimedInference.Circuit.Basic
import TimedInference.Json.Text
import TimedInference.Text.Blank

/-!
# Evaluations

An evaluation gives atoms their probabilities. It can be asked by the text of an atom and written as
a JSON object.
-/

namespace TimedInference.Evaluation

variable {α : Type}

/-- The probability of the first atom with a text, in which white space does not count. -/
def probabilityOf (e : Evaluation α) (text : String) : Option α :=
  (e.toList.find? fun r => r.1.text == Text.normalize text).map (·.2)

/-- The JSON object of an evaluation, whose keys are the texts of the atoms. -/
def json (e : Evaluation Float) : String :=
  let member (r : Term × Float) := Json.string r.1.text ++ ":" ++ Layout.json.text r.2
  "\x7b" ++ String.intercalate "," (e.toList.map member) ++ "\x7d"

end TimedInference.Evaluation
