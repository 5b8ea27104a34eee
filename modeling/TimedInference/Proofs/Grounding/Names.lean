import Mathlib.Data.List.Induction
import TimedInference.Proofs.Program.Integers

/-!
# The names of choices

The names of a ground program are the texts of the atoms that choices declare (`mem_named_iff`), and the text of
an atom names the last choice that declares an atom with this text (`named_eq_some_iff`).
-/

namespace TimedInference.GroundProgram

variable {α : Type}

/-- The names are the texts of the choices' atoms. -/
theorem mem_named_iff {g : GroundProgram α} {text : String} :
    text ∈ g.named ↔ ∃ c ∈ g.choices, c.atom.text = text := by
  unfold named
  induction g.choices using List.reverseRecOn with
  | nil => simp
  | append_singleton cs c ih =>
    rw [List.zipIdx_append, List.foldl_append]
    show text ∈ Std.ExtTreeMap.insert _ c.atom.text (0 + cs.length) ↔ _
    rw [Std.ExtTreeMap.mem_insert, ih, Std.compare_eq_iff_eq]
    simp only [List.mem_append, List.mem_singleton, or_and_right, exists_or, exists_eq_left]
    exact Or.comm

/-- What stands in a list with one more member stood in it before, or is this member. -/
theorem getElem?_concat_eq_some_iff {β : Type} {bs : List β} {b d : β} {j : Nat} :
    (bs ++ [b])[j]? = some d ↔ bs[j]? = some d ∨ j = bs.length ∧ b = d := by
  rcases Nat.lt_trichotomy j bs.length with hj | rfl | hj
  · rw [List.getElem?_append_left hj, or_iff_left fun h => Nat.ne_of_lt hj h.1]
  · simp
  · rw [List.getElem?_eq_none (by simp; omega), List.getElem?_eq_none (Nat.le_of_lt hj)]
    simp [Nat.ne_of_gt hj]

/-- A text names a choice when it is the text of the choice's atom, and of no later one. -/
theorem named_eq_some_iff {g : GroundProgram α} {text : String} {i : Nat} :
    g.named[text]? = some i ↔
      (∃ c, g.choices[i]? = some c ∧ c.atom.text = text) ∧
        ∀ j > i, ∀ c, g.choices[j]? = some c → c.atom.text ≠ text := by
  unfold named
  induction g.choices using List.reverseRecOn generalizing i with
  | nil => simp
  | append_singleton cs c ih =>
    -- the last choice names its text, whatever the text named before
    rw [List.zipIdx_append, List.foldl_append]
    show (Std.ExtTreeMap.insert _ c.atom.text (0 + cs.length))[text]? = some i ↔ _
    rw [Std.ExtTreeMap.getElem?_insert, Nat.zero_add]
    by_cases hc : c.atom.text = text
    · rw [if_pos (Std.compare_eq_iff_eq.2 hc)]
      constructor
      · intro h
        obtain rfl := Option.some.inj h
        refine ⟨⟨c, getElem?_concat_eq_some_iff.2 (.inr ⟨rfl, rfl⟩), hc⟩, fun j hj d hd => ?_⟩
        rcases getElem?_concat_eq_some_iff.1 hd with hd | ⟨rfl, -⟩
        · exact absurd (List.getElem?_eq_some_iff.1 hd).1 (Nat.lt_asymm hj)
        · exact absurd hj (Nat.lt_irrefl _)
      · rintro ⟨⟨d, hd, -⟩, hlater⟩
        rcases getElem?_concat_eq_some_iff.1 hd with hd | ⟨rfl, -⟩
        · exact absurd hc (hlater cs.length (List.getElem?_eq_some_iff.1 hd).1 c
            (getElem?_concat_eq_some_iff.2 (.inr ⟨rfl, rfl⟩)))
        · rfl
    · rw [if_neg fun h => hc (Std.compare_eq_iff_eq.1 h), ih]
      constructor
      · rintro ⟨⟨d, hd, ht⟩, hlater⟩
        refine ⟨⟨d, getElem?_concat_eq_some_iff.2 (.inl hd), ht⟩, fun j hj e he => ?_⟩
        rcases getElem?_concat_eq_some_iff.1 he with he | ⟨-, rfl⟩
        · exact hlater j hj e he
        · exact hc
      · rintro ⟨⟨d, hd, ht⟩, hlater⟩
        rcases getElem?_concat_eq_some_iff.1 hd with hd | ⟨-, rfl⟩
        · exact ⟨⟨d, hd, ht⟩, fun j hj e he => hlater j hj e (getElem?_concat_eq_some_iff.2 (.inl he))⟩
        · exact absurd ht hc

end TimedInference.GroundProgram
