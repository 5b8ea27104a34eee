import TimedInference.Proofs.Template.Texts

/-!
# Recognising facts by their texts

A fact in the default format is recognised by its text with probability zero, from which white space is
removed.  This text ends in the timestamp between brackets, whatever the name is, so it shows the time of the
fact (`FactTemplate.time_eq_of_normalize_mock_eq`).  It also names the node of the fact
(`FactTemplate.toList_normalize_mock_eq_nodeName`).

Placeholders are filled in one after the other, also where the name brings them in.  A name without the
placeholders that are filled in after it stands in the text as it is (`FactTemplate.Verbatim`), and then the
text also shows the name, up to white space (`FactTemplate.normalize_mock_eq_iff`).
-/

namespace TimedInference

/-! ## Texts in general -/

namespace Text

/-- A text in which `old` does not occur stays as it is. -/
theorem replace_of_not_infix {old new cs : List Char} (h : ¬ old <:+: cs) : replace old new cs = cs := by
  unfold replace
  induction cs with
  | nil => rfl
  | cons c cs ih =>
    have hp : ¬ old.isPrefixOf (c :: cs) = true := fun hp =>
      h (List.isPrefixOf_iff_prefix.1 hp).isInfix
    rw [replaceFrom, if_neg hp, ih fun hi => h (List.infix_cons hi)]

end Text

/-- A text is cut in one way at the last occurrence of a character. -/
theorem eq_of_append_cons_eq {as bs xs ys : List Char} {c : Char} (hx : c ∉ xs) (hy : c ∉ ys)
    (h : as ++ c :: xs = bs ++ c :: ys) : as = bs ∧ xs = ys := by
  induction as generalizing bs with
  | nil =>
    cases bs with
    | nil => exact ⟨rfl, (List.cons.inj h).2⟩
    | cons b bs =>
      obtain ⟨-, rfl⟩ := List.cons.inj h
      simp at hx
  | cons a as ih =>
    cases bs with
    | nil =>
      obtain ⟨-, rfl⟩ := List.cons.inj h
      simp at hy
    | cons b bs =>
      obtain ⟨rfl, hrest⟩ := List.cons.inj h
      obtain ⟨rfl, rfl⟩ := ih hrest
      exact ⟨rfl, rfl⟩

/-! ## Texts of facts -/

namespace FactTemplate

variable {α : Type} [Probability α] {t u : FactTemplate} {time time' : Int}

/-- A family is made of a name when this is not blank, and has the default format. -/
theorem ofIdentifier_eq_ok_iff {identifier : String} :
    ofIdentifier identifier = .ok t ↔
      Text.isBlankText identifier = false ∧ t.identifier = identifier ∧ t.format = defaultFormat := by
  have hformat : checkFormat defaultFormat = .ok () := by decide +kernel
  unfold ofIdentifier withFormat
  cases Text.isBlankText identifier with
  | true => simp [throw, throwThe, MonadExceptOf.throw, bind, Except.bind]
  | false =>
    rw [hformat]
    constructor
    · rintro ⟨⟩
      exact ⟨rfl, rfl, rfl⟩
    · rintro ⟨-, rfl, hf⟩
      rw [← hf]
      rfl

/-! ## The time of a fact -/

/-- The text by which a fact is recognised ends in its timestamp between brackets. -/
theorem toList_normalize_mock (h : t.format = defaultFormat) (time : Int) :
    (Text.normalize (t.mock α time)).toList = "0::".toList ++
      (Text.squeeze (t.written time (0 : α)) ++ '(' :: ((toString time).toList ++ ").".toList)) := by
  have htime : ∀ c ∈ (toString time).toList, Text.isBlank c = false :=
    (show (Term.int time).Lexical from trivial).not_blank
  have hend : Text.squeeze (['('] ++ ((toString time).toList ++ ").".toList)) =
      '(' :: ((toString time).toList ++ ").".toList) := by
    rw [Text.squeeze_append, Text.squeeze_append, Text.squeeze_eq_self htime]
    rfl
  rw [Text.normalize, String.toList_ofList, mock, toList_render_of_format h, Probability.text_zero,
    Text.squeeze_append, Text.squeeze_append, Text.squeeze_append, ← List.singleton_append, hend]
  rfl

/-- The text by which a fact is recognised shows its time, and its name as it is written. -/
theorem eq_of_normalize_mock_eq (ht : t.format = defaultFormat) (hu : u.format = defaultFormat)
    (h : Text.normalize (t.mock α time) = Text.normalize (u.mock α time')) :
    Text.squeeze (t.written time (0 : α)) = Text.squeeze (u.written time' (0 : α)) ∧ time = time' := by
  have hbracket (time : Int) : '(' ∉ (toString time).toList ++ ").".toList := by
    rw [List.mem_append, not_or]
    exact ⟨not_mem_toString (by decide), by decide⟩
  have hlist := congrArg String.toList h
  rw [toList_normalize_mock ht, toList_normalize_mock hu] at hlist
  obtain ⟨hwritten, hend⟩ :=
    eq_of_append_cons_eq (hbracket time) (hbracket time') (List.append_cancel_left hlist)
  have htime : (Term.int time).text = (Term.int time').text :=
    String.toList_inj.1 (List.append_cancel_right hend)
  have hterm : Term.int time = Term.int time' := Term.eq_of_text_eq trivial trivial htime
  exact ⟨hwritten, Term.int.inj hterm⟩

/-- The text by which a fact is recognised can be read off the name of its node. -/
theorem toList_normalize_mock_eq_nodeName (h : t.format = defaultFormat) (time : Int) :
    (Text.normalize (t.mock α time)).toList =
      "0::".toList ++ ((nodeName (t.mock α time)).toList ++ ['.']) := by
  have hmock := toList_normalize_mock (α := α) h time
  rw [Text.normalize, String.toList_ofList] at hmock
  -- the text after the double colon, without the point at its end
  have hafter : afterSeparator? (Text.squeeze (t.mock α time).toList) =
      some (Text.squeeze (t.written time (0 : α)) ++ '(' :: ((toString time).toList ++ [')']) ++ ['.']) := by
    rw [hmock]
    show some _ = some _
    simp
  have hname : (nodeName (t.mock α time)).toList =
      Text.squeeze (t.written time (0 : α)) ++ '(' :: ((toString time).toList ++ [')']) := by
    rw [nodeName, String.toList_ofList, hafter, Option.getD_some, withoutFinalPoint_append]
  rw [hname, toList_normalize_mock h]
  simp

/-! ## The name of a fact -/

/-- A family in the default format whose name brings in no placeholder that is filled in after it. -/
structure Verbatim (t : FactTemplate) : Prop where
  made : ofIdentifier t.identifier = .ok t
  timestamp : ¬ Placeholder.timestamp.mark <:+: t.identifier.toList
  probability : ¬ Placeholder.probability.mark <:+: t.identifier.toList

theorem Verbatim.format_eq (h : t.Verbatim) : t.format = defaultFormat :=
  (ofIdentifier_eq_ok_iff.1 h.made).2.2

theorem Verbatim.written_eq (h : t.Verbatim) (time : Int) :
    t.written time (0 : α) = t.identifier.toList := by
  have htimestamp : t.fill time (0 : α) t.identifier.toList .timestamp = t.identifier.toList :=
    Text.replace_of_not_infix h.timestamp
  rw [written, htimestamp]
  exact Text.replace_of_not_infix h.probability

/-- The text by which a fact is recognised shows its time and, up to white space, its name. -/
theorem normalize_mock_eq_iff (ht : t.Verbatim) (hu : u.Verbatim) :
    Text.normalize (t.mock α time) = Text.normalize (u.mock α time') ↔
      Text.normalize t.identifier = Text.normalize u.identifier ∧ time = time' := by
  constructor
  · intro h
    obtain ⟨hwritten, htime⟩ := eq_of_normalize_mock_eq ht.format_eq hu.format_eq h
    rw [ht.written_eq, hu.written_eq] at hwritten
    exact ⟨congrArg String.ofList hwritten, htime⟩
  · rintro ⟨hname, rfl⟩
    apply String.toList_inj.1
    rw [toList_normalize_mock ht.format_eq, toList_normalize_mock hu.format_eq, ht.written_eq,
      hu.written_eq, String.ofList_inj.1 hname]

end FactTemplate

end TimedInference
