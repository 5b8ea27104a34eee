import TimedInference.Cache.Binding
import TimedInference.Proofs.Syntax.Programs
import TimedInference.Template.Query

/-!
# Texts of templates

A fact in the default format is written as its probability, its name and its timestamp
(`FactTemplate.toList_render_of_format`), and with a legal name as its probability and its atom
(`FactTemplate.toList_render`).  The text with probability zero holds no white space, names the atom
(`nodeName_mock`) and is known by it, so different facts have different such texts
(`FactTemplate.mock_inj`).
-/

namespace TimedInference

open Syntax Syntax.Resolving

/-! ## Filling in -/

namespace Text

/-- Nothing is replaced in front of the first character of what is looked for. -/
theorem replace_append {o : Char} {old new cs : List Char} (h : o ∉ cs) (rest : List Char) :
    replace (o :: old) new (cs ++ rest) = cs ++ replace (o :: old) new rest := by
  unfold replace
  induction cs with
  | nil => rfl
  | cons c cs ih =>
    rw [List.mem_cons, not_or] at h
    have hc : (o == c) = false := beq_eq_false_iff_ne.2 h.1
    rw [List.cons_append, replaceFrom, List.isPrefixOf, hc, Bool.false_and, if_neg Bool.false_ne_true,
      ih h.2, List.cons_append]

/-- What is looked for is replaced where it stands, and then what comes after it. -/
theorem replaceFrom_append (old new rest : List Char) (cs : List Char) :
    replaceFrom old new cs.length (cs ++ rest) = replaceFrom old new 0 rest := by
  induction cs with
  | nil => rfl
  | cons c cs ih => exact ih

/-- Where a text begins with what is replaced, its replacement comes first. -/
theorem replace_self_append (o : Char) (old new rest : List Char) :
    replace (o :: old) new (o :: old ++ rest) = new ++ replace (o :: old) new rest := by
  have hp : (o :: old).isPrefixOf (o :: (old ++ rest)) = true :=
    List.isPrefixOf_iff_prefix.2 (List.prefix_append (o :: old) rest)
  unfold replace
  rw [List.cons_append, replaceFrom, if_pos hp]
  exact congrArg (new ++ ·) (replaceFrom_append (o :: old) new rest old)

/-- A text without a character begins only what comes before the character. -/
theorem prefix_of_prefix_append_cons {old cs rest : List Char} {c : Char} (hc : c ∉ old)
    (h : old <+: cs ++ c :: rest) : old <+: cs := by
  rcases List.prefix_or_prefix_of_prefix h (List.prefix_append cs (c :: rest)) with hcs | ⟨more, rfl⟩
  · exact hcs
  · rw [List.prefix_append_right_inj] at h
    cases more with
    | nil => simp
    | cons m more =>
      obtain ⟨rfl, -⟩ := List.cons_prefix_cons.1 h
      simp at hc

/-- Nothing that is replaced goes across a character that does not occur in it. -/
theorem replaceFrom_append_cons {o c : Char} {old : List Char} (hc : c ∉ o :: old) (new : List Char)
    {cs : List Char} (rest : List Char) {skip : Nat} (hskip : skip ≤ cs.length) :
    replaceFrom (o :: old) new skip (cs ++ c :: rest) =
      replaceFrom (o :: old) new skip cs ++ c :: replaceFrom (o :: old) new 0 rest := by
  induction cs generalizing skip with
  | nil =>
    rw [List.length_nil, Nat.le_zero] at hskip
    subst hskip
    have hp : ¬ o :: old <+: c :: rest := by
      intro h
      rw [← List.nil_append (c :: rest)] at h
      simpa using prefix_of_prefix_append_cons hc h
    show replaceFrom (o :: old) new 0 (c :: rest) = c :: replaceFrom (o :: old) new 0 rest
    rw [replaceFrom, if_neg (mt List.isPrefixOf_iff_prefix.1 hp)]
  | cons d cs ih =>
    cases skip with
    | succ skip => exact ih (Nat.le_of_succ_le_succ hskip)
    | zero =>
      rw [List.cons_append, replaceFrom, replaceFrom]
      by_cases hp : o :: old <+: d :: cs
      · -- the occurrence ends before the character
        have hp' : o :: old <+: d :: (cs ++ c :: rest) := hp.trans (List.prefix_append _ _)
        have hlength : (o :: old).length - 1 ≤ cs.length := by
          have := hp.length_le
          simpa using this
        rw [if_pos (List.isPrefixOf_iff_prefix.2 hp), if_pos (List.isPrefixOf_iff_prefix.2 hp'),
          ih hlength, List.append_assoc]
      · have hp' : ¬ o :: old <+: d :: (cs ++ c :: rest) := fun h =>
          hp (prefix_of_prefix_append_cons hc h)
        rw [if_neg (mt List.isPrefixOf_iff_prefix.1 hp), if_neg (mt List.isPrefixOf_iff_prefix.1 hp'),
          ih (Nat.zero_le _), List.cons_append]

/-- A character that is not in what is replaced keeps replacements before it and after it apart. -/
theorem replace_append_cons {o c : Char} {old : List Char} (hc : c ∉ o :: old) (new cs rest : List Char) :
    replace (o :: old) new (cs ++ c :: rest) =
      replace (o :: old) new cs ++ c :: replace (o :: old) new rest :=
  replaceFrom_append_cons hc new rest (Nat.zero_le _)

end Text

/-! ## Facts in the default format -/

/-- A family in the default format whose name is a functor. -/
structure FactTemplate.Standard (t : FactTemplate) : Prop where
  format_eq : t.format = defaultFormat
  isFunctor : IsFunctor t.identifier.toList

/-- A number has digits and perhaps a minus sign. -/
theorem not_mem_toString {n : Int} {c : Char} (hc : (c.isDigit || c = '-') = false) :
    c ∉ (toString n).toList := by
  rw [Bool.or_eq_false_iff, decide_eq_false_iff_not] at hc
  have hdigits : c ∉ Nat.toDigits 10 n.natAbs := fun hm => by
    have := Nat.isDigit_of_mem_toDigits (by decide) (Nat.le_refl 10) hm
    rw [hc.1] at this
    exact absurd this (by decide)
  rw [show (toString n).toList = _ from Term.toList_text_int n]
  split
  · rw [List.mem_cons, not_or]
    exact ⟨hc.2, hdigits⟩
  · exact hdigits

namespace FactTemplate

variable {α : Type} [Probability α] {t : FactTemplate}

/-- The atom of a fact in the default format. -/
def atom (t : FactTemplate) (time : Int) : Term := .compound t.identifier [.int time]

theorem toList_text_atom (t : FactTemplate) (time : Int) :
    (t.atom time).text.toList =
      t.identifier.toList ++ ("(".toList ++ ((toString time).toList ++ ")".toList)) := by
  rw [atom, Term.text]
  simp only [String.toList_append, List.append_assoc]
  rfl

/-- The fact of a template in the default format is lexical. -/
theorem lexical_atom (h : t.Standard) (time : Int) : (t.atom time).Lexical :=
  ⟨h.isFunctor, trivial, trivial⟩

/-- No placeholder goes across an opening bracket. -/
theorem fill_append_bracket (h : Placeholder) (time : Int) (p : α) (cs rest : List Char) :
    t.fill time p (cs ++ '(' :: rest) h = t.fill time p cs h ++ '(' :: t.fill time p rest h := by
  cases h
  all_goals exact Text.replace_append_cons (by decide) _ cs rest

/-- The name of a family as it stands in the text of a fact: the placeholders that it brings in are filled
in as well. -/
def written (t : FactTemplate) (time : Int) (p : α) : List Char :=
  t.fill time p (t.fill time p t.identifier.toList .timestamp) .probability

/-- A fact in the default format is written as its probability, a double colon, its name, the timestamp
between brackets and a point. -/
theorem toList_render_of_format (h : t.format = defaultFormat) (time : Int) (p : α) :
    (t.render time p).toList = (Probability.text p).toList ++ ("::".toList ++
      (t.written time p ++ '(' :: ((toString time).toList ++ ").".toList))) := by
  have hidentifier : t.fill time p t.format.toList .identifier =
      Placeholder.probability.mark ++ ("::".toList ++
        (t.identifier.toList ++ '(' :: (Placeholder.timestamp.mark ++ ").".toList))) := by
    rw [h]
    rfl
  have htimestamp (cs : List Char) :
      t.fill time p (Placeholder.probability.mark ++ ("::".toList ++ cs)) .timestamp =
        Placeholder.probability.mark ++ ("::".toList ++ t.fill time p cs .timestamp) := rfl
  have htime : t.fill time p (Placeholder.timestamp.mark ++ ").".toList) .timestamp =
      (toString time).toList ++ ").".toList :=
    (Text.replace_self_append _ _ _ _).trans (congrArg _ (Text.replace_of_not_mem (by decide)))
  have hprobability (cs : List Char) :
      t.fill time p (Placeholder.probability.mark ++ ("::".toList ++ cs)) .probability =
        (Probability.text p).toList ++ ("::".toList ++ t.fill time p cs .probability) := by
    refine (Text.replace_self_append _ _ _ _).trans (congrArg _ ?_)
    exact Text.replace_append (by decide) cs
  have hrest : t.fill time p ((toString time).toList ++ ").".toList) .probability =
      (toString time).toList ++ ").".toList := by
    apply Text.replace_of_not_mem
    rw [List.mem_append, not_or]
    exact ⟨not_mem_toString (by decide), by decide⟩
  rw [render, String.toList_ofList, List.foldl_cons, List.foldl_cons, List.foldl_cons,
    List.foldl_nil, hidentifier, htimestamp, fill_append_bracket, htime, hprobability,
    fill_append_bracket, hrest]
  rfl

/-- A fact in the default format is written as its probability, a double colon, its atom and a point. -/
theorem toList_render (h : t.Standard) (time : Int) (p : α) :
    (t.render time p).toList = (Probability.text p).toList ++ ("::".toList ++
      ((t.atom time).text.toList ++ ['.'])) := by
  have hname : '\x7b' ∉ t.identifier.toList := h.isFunctor.not_mem (by decide)
  have htimestamp : t.fill time p t.identifier.toList .timestamp = t.identifier.toList :=
    Text.replace_of_not_mem hname
  have hwritten : t.written time p = t.identifier.toList := by
    rw [written, htimestamp]
    exact Text.replace_of_not_mem hname
  rw [toList_render_of_format h.format_eq, hwritten, toList_text_atom]
  simp only [List.append_assoc]
  rfl

end FactTemplate

/-! ## Texts without white space -/

namespace Text

/-- Characters of names are no white space. -/
theorem isBlank_of_isNameChar {c : Char} (h : isNameChar c = true) : isBlank c = false := by
  have hrange : 48 ≤ c.toNat ∧ c.toNat ≤ 122 := by
    rw [isNameChar_iff, isUpper_iff, isLower_iff, isDigit_iff] at h
    rcases h with h | rfl
    · omega
    · decide
  simp only [isBlank, blankRanges, List.any_cons, List.any_nil, Bool.or_false, Bool.or_eq_false_iff,
    Bool.and_eq_false_iff, decide_eq_false_iff_not]
  omega

/-- A text without white space stays as it is. -/
theorem squeeze_eq_self {cs : List Char} (h : ∀ c ∈ cs, isBlank c = false) : squeeze cs = cs :=
  List.filter_eq_self.2 fun c hc => by rw [h c hc]; rfl

end Text

/-- The tokens of terms and bodies have no white space. -/
theorem Syntax.IsPart.not_blank {t : Token} (h : IsPart t) : ∀ c ∈ t, Text.isBlank c = false := by
  have hnames {cs : List Char} (hcs : cs.all isNameChar = true) : ∀ c ∈ cs, Text.isBlank c = false :=
    fun c hc => Text.isBlank_of_isNameChar (List.all_eq_true.1 hcs c hc)
  have hdigits {ds : List Char} (hds : IsDigits ds) : ∀ d ∈ ds, Text.isBlank d = false := fun d hd =>
    Text.isBlank_of_isNameChar (isNameChar_iff.2 (.inl (.inr (List.all_eq_true.1 hds.2 d hd))))
  cases h with
  | functor h =>
    obtain ⟨x, name, rfl, hx, hname⟩ := h
    refine List.forall_mem_cons.2 ⟨Text.isBlank_of_isNameChar ?_, hnames hname⟩
    exact isNameChar_iff.2 (.inl (.inl (.inr hx)))
  | var h =>
    obtain ⟨x, name, rfl, hx, hname⟩ := h
    refine List.forall_mem_cons.2 ⟨?_, hnames hname⟩
    simp only [Bool.or_eq_true, decide_eq_true_eq] at hx
    rcases hx with hx | rfl
    · exact Text.isBlank_of_isNameChar (isNameChar_iff.2 (.inl (.inl (.inl hx))))
    · decide
  | digits h => exact hdigits h
  | negative h => exact List.forall_mem_cons.2 ⟨by decide, hdigits h⟩
  | negation => exact List.forall_mem_cons.2 ⟨by decide, List.forall_mem_singleton.2 (by decide)⟩
  | _ => exact List.forall_mem_singleton.2 (by decide)

/-- The text of a term whose names have the forms of the grammar has no white space. -/
theorem Term.Lexical.not_blank {t : Term} (h : t.Lexical) :
    ∀ c ∈ t.text.toList, Text.isBlank c = false := by
  intro c hc
  rw [t.toList_text, List.mem_flatten] at hc
  obtain ⟨tok, htok, hc⟩ := hc
  exact (WrittenTerm.isPart_of_mem_tokens h.written tok htok).not_blank c hc

/-! ## Texts with probability zero -/

@[simp] theorem withoutFinalPoint_append (cs : List Char) : withoutFinalPoint (cs ++ ['.']) = cs := by
  rw [withoutFinalPoint, List.getLast?_concat, if_pos rfl, List.dropLast_concat]

namespace FactTemplate

variable {α : Type} [Probability α] {t u : FactTemplate}

/-- The text of a declaration in the default format is zero, two colons, the fact and a point. -/
theorem toList_mock (h : t.Standard) (time : Int) :
    (t.mock α time).toList = "0::".toList ++ ((t.atom time).text.toList ++ ['.']) := by
  rw [mock, toList_render h, Probability.text_zero]
  rfl

/-- The text of a declaration in the default format holds no white space. -/
theorem not_blank_mock (h : t.Standard) (time : Int) :
    ∀ c ∈ (t.mock α time).toList, Text.isBlank c = false := by
  rw [toList_mock h]
  simp only [List.mem_append]
  rintro c (hc | hc | hc)
  · have hall := List.all_eq_true.1 (show "0::".toList.all (fun c => !Text.isBlank c) = true by decide)
    simpa using hall c hc
  · exact (lexical_atom h time).not_blank c hc
  · obtain rfl : c = '.' := by simpa using hc
    decide

@[simp] theorem normalize_mock (h : t.Standard) (time : Int) :
    Text.normalize (t.mock α time) = t.mock α time := by
  rw [Text.normalize, Text.squeeze_eq_self (not_blank_mock h time), String.ofList_toList]

/-- The text with probability zero names the atom. -/
theorem nodeName_mock (h : t.Standard) (time : Int) :
    nodeName (t.mock α time) = (t.atom time).text := by
  have hafter : afterSeparator? (t.mock α time).toList =
      some ((t.atom time).text.toList ++ ['.']) := by
    rw [toList_mock h]
    rfl
  unfold nodeName
  simp only [Text.squeeze_eq_self (not_blank_mock h time), hafter, Option.getD_some]
  rw [withoutFinalPoint_append, String.ofList_toList]

/-- Different facts have different texts with probability zero. -/
theorem mock_inj (ht : t.Standard) (hu : u.Standard) {time time' : Int} :
    t.mock α time = u.mock α time' ↔ t.identifier = u.identifier ∧ time = time' := by
  constructor
  · intro h
    have hatom : t.atom time = u.atom time' := by
      refine Term.eq_of_text_eq (lexical_atom ht time) (lexical_atom hu time') ?_
      rw [← nodeName_mock (α := α) ht, ← nodeName_mock (α := α) hu, h]
    simpa [atom] using hatom
  · rintro ⟨hid, rfl⟩
    have : t = u := by
      cases t
      cases u
      simp only [mk.injEq]
      exact ⟨hid, ht.format_eq.trans hu.format_eq.symm⟩
    rw [this]

end FactTemplate

end TimedInference
