/-!
# Replacing a text within a text

Replacing every occurrence of a text by another, from left to right; what is put in is not looked at
again.
-/

namespace TimedInference.Text

/-- Every occurrence of `old` in `cs` replaced by `new`. The first argument counts the characters that
belong to an occurrence already replaced. -/
def replaceFrom (old new : List Char) : Nat → List Char → List Char
  | _, [] => []
  | skip + 1, _ :: cs => replaceFrom old new skip cs
  | 0, c :: cs =>
    if old.isPrefixOf (c :: cs) then new ++ replaceFrom old new (old.length - 1) cs
    else c :: replaceFrom old new 0 cs

/-- Every occurrence of the nonempty text `old` in `cs` replaced by `new`. -/
def replace (old new cs : List Char) : List Char := replaceFrom old new 0 cs

/-- A text without the first character of `old` stays as it is. -/
theorem replace_of_not_mem {o : Char} {old new cs : List Char} (h : o ∉ cs) :
    replace (o :: old) new cs = cs := by
  unfold replace
  induction cs with
  | nil => rfl
  | cons c cs ih =>
    have hc : (o == c) = false := by
      simp only [beq_eq_false_iff_ne]
      rintro rfl
      exact h (by simp)
    simp [replaceFrom, List.isPrefixOf, hc, ih (fun hm => h (by simp [hm]))]

end TimedInference.Text
