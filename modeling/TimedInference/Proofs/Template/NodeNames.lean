import TimedInference.Cache.Binding
import TimedInference.Proofs.Syntax.FactLines

/-!
# Node names of facts

The name that a text is bound by is what stands between its first double colon and its final point, when
white space is left out (`nodeName_eq_iff`).  It is the text of an atom exactly when the text shows this name
(`nodeName_eq_text_iff`): no comment stands after the double colon of the fact and no other double colon
before it, and the atom is written as atoms are displayed (`Syntax.WrittenTerm.Canonical`).  Other texts of a
fact are bound by the name of no atom at all (`showsName_of_nodeName_eq`).
-/

namespace TimedInference

open Syntax

/-! ## First double colons -/

theorem exists_cons_of_colon {front more cs : List Char} {d : Char} (e : d :: cs = front ++ ':' :: more) :
    ∃ more', front ++ [':'] = d :: more' := by
  cases front with
  | nil => exact ⟨[], by rw [(List.cons.inj e).1, List.nil_append]⟩
  | cons x front => exact ⟨front ++ [':'], by rw [(List.cons.inj e).1, List.cons_append]⟩

/-- A text is cut at its first double colon, which no earlier colon makes part of another one. -/
theorem afterSeparator?_eq_some_iff {cs rest : List Char} :
    afterSeparator? cs = some rest ↔
      ∃ front, cs = front ++ ':' :: ':' :: rest ∧ ¬ "::".toList <:+: front ++ [':'] := by
  fun_induction afterSeparator? cs with
  | case1 => simp
  | case2 c =>
    constructor
    · simp
    · rintro ⟨front, e, -⟩
      have hlength := congrArg List.length e
      simp only [List.length_append, List.length_cons, List.length_nil] at hlength
      omega
  | case3 c d cs h =>
    obtain ⟨rfl, rfl⟩ := h
    constructor
    · rintro ⟨⟩
      exact ⟨[], rfl, by decide⟩
    · rintro ⟨front, e, hfront⟩
      cases front with
      | nil => simpa using e
      | cons x front =>
        rw [List.cons_append, List.cons.injEq] at e
        obtain ⟨more, hmore⟩ := exists_cons_of_colon e.2
        refine absurd ?_ hfront
        rw [List.cons_append, hmore, ← e.1]
        exact ⟨[], more, rfl⟩
  | case4 c d cs h ih =>
    rw [ih]
    constructor
    · rintro ⟨front, e, hfront⟩
      obtain ⟨more, hmore⟩ := exists_cons_of_colon e
      refine ⟨c :: front, by rw [e, List.cons_append], ?_⟩
      rw [List.cons_append, List.infix_cons_iff, not_or]
      refine ⟨?_, hfront⟩
      rw [hmore, show "::".toList = [':', ':'] from rfl, List.cons_prefix_cons, List.cons_prefix_cons]
      rintro ⟨rfl, rfl, -⟩
      exact h ⟨rfl, rfl⟩
    · rintro ⟨front, e, hfront⟩
      cases front with
      | nil =>
        rw [List.nil_append, List.cons.injEq, List.cons.injEq] at e
        exact absurd ⟨e.1, e.2.1⟩ h
      | cons x front =>
        rw [List.cons_append, List.cons.injEq] at e
        exact ⟨front, e.2, fun hm => hfront (List.infix_cons hm)⟩

/-- Where what follows the first double colon has no colon, this is the only place of a double colon. -/
theorem eq_of_afterSeparator? {front back rest : List Char}
    (h : afterSeparator? (front ++ ':' :: ':' :: back) = some rest) (hrest : ':' ∉ rest) :
    rest = back ∧ ¬ "::".toList <:+: front ++ [':'] := by
  obtain ⟨front', e, hfront'⟩ := afterSeparator?_eq_some_iff.1 h
  rcases cut_append e with ⟨more, rfl, hmore⟩ | ⟨more, rfl, hmore⟩
  · -- the rest would have the double colon that is cut at
    refine absurd ?_ hrest
    cases more with
    | nil => simp [(List.cons.inj hmore).2]
    | cons x more => simp [(List.cons.inj hmore).2]
  · cases more with
    | nil =>
      rw [List.nil_append, List.cons.injEq, List.cons.injEq] at hmore
      rw [List.append_nil] at hfront'
      exact ⟨hmore.2.2.symm, hfront'⟩
    | cons x more =>
      rw [List.cons_append, List.cons.injEq] at hmore
      obtain ⟨more', hmore'⟩ := exists_cons_of_colon hmore.2
      refine absurd ?_ hfront'
      rw [List.append_assoc, List.cons_append, hmore', ← hmore.1]
      exact ⟨front, more', by simp⟩

/-! ## Points -/

/-- Only a point is left out. -/
theorem mem_withoutFinalPoint {c : Char} {cs : List Char} (hc : c ∈ cs) (hne : c ≠ '.') :
    c ∈ withoutFinalPoint cs := by
  rw [withoutFinalPoint]
  split
  · rename_i hlast
    obtain ⟨init, rfl⟩ := List.getLast?_eq_some_iff.1 hlast
    rw [List.dropLast_concat]
    simpa [hne] using hc
  · exact hc

/-- The name of a text is a name without colons exactly when it stands after the first double colon, up to
white space and the final point. -/
theorem nodeName_eq_iff {text name : String} {front back : List Char}
    (htext : text.toList = front ++ ':' :: ':' :: back) (hname : ':' ∉ name.toList) :
    nodeName text = name ↔ ¬ "::".toList <:+: Text.squeeze front ++ [':'] ∧
      withoutFinalPoint (Text.squeeze back) = name.toList := by
  have hsqueezed : Text.squeeze text.toList =
      Text.squeeze front ++ ':' :: ':' :: Text.squeeze back := by
    rw [htext, Text.squeeze_append]
    rfl
  have hcolon {cs : List Char} (h : withoutFinalPoint cs = name.toList) : ':' ∉ cs := fun hm =>
    hname (h ▸ mem_withoutFinalPoint hm (by decide))
  simp only [nodeName, hsqueezed]
  rw [← String.toList_inj, String.toList_ofList]
  constructor
  · intro h
    cases hafter : afterSeparator? (Text.squeeze front ++ ':' :: ':' :: Text.squeeze back) with
    | none =>
      rw [hafter] at h
      exact absurd (by simp) (hcolon h)
    | some rest =>
      rw [hafter, Option.getD_some] at h
      obtain ⟨rfl, hfront⟩ := eq_of_afterSeparator? hafter (hcolon h)
      exact ⟨hfront, h⟩
  · rintro ⟨hfront, h⟩
    rw [afterSeparator?_eq_some_iff.2 ⟨_, rfl, hfront⟩, Option.getD_some, h]

/-! ## Layouts without comments -/

namespace Syntax

theorem isBlank_of_isSpace {c : Char} (h : isSpace c = true) : Text.isBlank c = true := by
  simp only [isSpace, Bool.or_eq_true, decide_eq_true_eq] at h
  rcases h with ((rfl | rfl) | rfl) | rfl <;> decide

/-- Without comments, nothing is left of a gap when white space is left out. -/
theorem squeeze_gap {g : List Char} (hg : FinalGap g) (hp : '%' ∉ g) : Text.squeeze g = [] := by
  induction g with
  | nil => rfl
  | cons c g ih =>
    rw [List.mem_cons, not_or] at hp
    rw [FinalGap, endsInside?] at hg
    split at hg
    · rename_i hs
      rw [Text.squeeze, List.filter_cons_of_neg (by simp [isBlank_of_isSpace hs])]
      exact ih hg hp.2
    · rw [if_neg (Ne.symm hp.1)] at hg
      simp at hg

/-- The tokens are left of a layout without comments when white space is left out. -/
theorem Laid.squeeze_eq {ts : List Token} {cs : List Char} (h : Laid ts cs)
    (ht : ∀ t ∈ ts, ∀ c ∈ t, Text.isBlank c = false) (hp : '%' ∉ cs) : Text.squeeze cs = ts.flatten := by
  induction ts generalizing cs with
  | nil =>
    obtain rfl : cs = [] := h
    rfl
  | cons t ts ih =>
    rw [List.forall_mem_cons] at ht
    obtain ⟨gap, rest, rfl, hgap, hr⟩ := h
    simp only [List.mem_append, not_or] at hp
    rw [Text.squeeze_append, Text.squeeze_append, squeeze_gap hgap.final hp.1, List.nil_append,
      Text.squeeze_eq_self ht.1, ih hr ht.2 hp.2.2, List.flatten_cons]

theorem LaidOut.squeeze_eq {ts : List Token} {cs : List Char} (h : LaidOut ts cs)
    (ht : ∀ t ∈ ts, ∀ c ∈ t, Text.isBlank c = false) (hp : '%' ∉ cs) : Text.squeeze cs = ts.flatten := by
  obtain ⟨xs, g, rfl, hx, hg⟩ := h
  rw [List.mem_append, not_or] at hp
  rw [Text.squeeze_append, hx.squeeze_eq ht hp.1, squeeze_gap hg hp.2, List.append_nil]

/-! ## Terms written as they are displayed -/

namespace WrittenTerm

mutual

/-- The term is written as terms are displayed: no variable is a bare underscore, and each integer has the
digits and the sign that it is displayed with. -/
def Canonical : WrittenTerm → Prop
  | var x => x ≠ "_"
  | integer _ negative digits =>
    digits = Nat.toDigits 10 (Decimal.ofDigits digits) ∧ (negative = true → Decimal.ofDigits digits ≠ 0)
  | compound _ ts => AllCanonical ts

/-- The terms are written as terms are displayed. -/
def AllCanonical : List WrittenTerm → Prop
  | [] => True
  | t :: ts => t.Canonical ∧ AllCanonical ts

end

theorem allCanonical_iff {ts : List WrittenTerm} : AllCanonical ts ↔ ∀ t ∈ ts, t.Canonical := by
  induction ts with
  | nil => simp [AllCanonical]
  | cons t ts ih => rw [AllCanonical, ih, List.forall_mem_cons]

/-- Such a term is the written form of what it stands for. -/
theorem Canonical.written_value {w : WrittenTerm} (h : w.Canonical) (count : Nat) :
    (w.value count).written = w.unplaced := by
  induction w generalizing count with
  | var x =>
    rw [value, if_neg h]
    rfl
  | integer o negative ds =>
    obtain ⟨hdigits, hsign⟩ := h
    have habs : (signed negative ds).natAbs = Decimal.ofDigits ds := by
      rw [signed]
      split <;> omega
    have hnegative : decide (signed negative ds < 0) = negative := by
      cases negative with
      | true =>
        have := hsign rfl
        rw [decide_eq_true_eq, signed, if_pos rfl]
        omega
      | false =>
        rw [decide_eq_false_iff_not, signed, if_neg Bool.false_ne_true]
        omega
    rw [value, Term.written, hnegative, habs, ← hdigits]
    rfl
  | compound f ts ih =>
    rw [Canonical, allCanonical_iff] at h
    rw [value, Term.written, Term.writtenAll_eq_map, unplaced, unplacedAll_eq_map]
    congr 1
    induction ts generalizing count with
    | nil => rfl
    | cons t ts ihs =>
      rw [List.forall_mem_cons] at ih h
      rw [valueAll, List.map_cons, List.map_cons, ih.1 h.1, ihs ih.2 h.2]

/-- Only such terms have the places left out as a term with named variables is written. -/
theorem canonical_of_unplaced {w : WrittenTerm} {t : Term} (hn : ∀ x ∈ t.occurrences, x ≠ "_")
    (h : t.written = w.unplaced) : w.Canonical := by
  induction w generalizing t with
  | var x =>
    cases t with
    | var y =>
      obtain rfl : y = x := by simpa [Term.written, unplaced] using h
      exact hn y (by simp [Term.occurrences])
    | _ => simp [Term.written, unplaced] at h
  | integer o negative ds =>
    cases t with
    | int n =>
      simp only [Term.written, unplaced, integer.injEq, true_and] at h
      obtain ⟨rfl, rfl⟩ := h
      rw [Canonical, ofDigits_toDigits]
      refine ⟨rfl, fun hneg => ?_⟩
      rw [decide_eq_true_eq] at hneg
      omega
    | _ => simp [Term.written, unplaced] at h
  | compound f ts ih =>
    cases t with
    | compound g us =>
      simp only [Term.written, Term.writtenAll_eq_map, unplaced, unplacedAll_eq_map, compound.injEq] at h
      simp only [Term.occurrences, Term.allOccurrences_eq_flatMap, List.mem_flatMap] at hn
      rw [Canonical, allCanonical_iff]
      intro w hw
      have hm : w.unplaced ∈ us.map Term.written := by
        rw [h.2]
        exact List.mem_map_of_mem hw
      obtain ⟨u, hu, hwritten⟩ := List.mem_map.1 hm
      exact ih w hw (fun x hx => hn x ⟨u, hu, hx⟩) hwritten
    | _ => simp [Term.written, unplaced] at h

/-- Places are not in the text. -/
theorem tokens_unplaced (w : WrittenTerm) : w.unplaced.tokens = w.tokens := by
  induction w with
  | compound f ts ih =>
    cases ts with
    | nil => rfl
    | cons t ts =>
      rw [List.forall_mem_cons] at ih
      rw [unplaced, unplacedAll, tokens, tokens, ih.1, unplacedAll_eq_map, moreTokens_eq_flatMap,
        moreTokens_eq_flatMap, List.flatMap_map, List.flatMap_congr fun u hu => by rw [ih.2 u hu]]
  | _ => rfl

end WrittenTerm

end Syntax

/-! ## Texts that show a name -/

/-- The text of a probabilistic fact shows the name of its atom: when white space is left out, its double
colon is the first one, and no comment stands after it, where the atom is written as atoms are displayed. -/
def ShowsName (text : List Char) (a : Term) : Prop :=
  ∃ front back p w, WritesFact text front back p w ∧ w.value 0 = a ∧
    ¬ "::".toList <:+: Text.squeeze front ++ [':'] ∧ '%' ∉ back ∧ w.Canonical

/-- What follows the double colon without comments is the term and a point. -/
theorem Syntax.WritesFact.squeeze_back {text front back : List Char} {p : Token} {w : WrittenTerm}
    (h : WritesFact text front back p w) (hp : '%' ∉ back) :
    withoutFinalPoint (Text.squeeze back) = w.tokens.flatten := by
  rw [h.laidOut.squeeze_eq ?_ hp, List.flatten_append, List.flatten_singleton, withoutFinalPoint_append]
  rw [List.forall_mem_append]
  refine ⟨fun t ht => (WrittenTerm.isPart_of_mem_tokens h.lexical t ht).not_blank, ?_⟩
  rw [List.forall_mem_singleton, List.forall_mem_singleton]
  decide

/-- Terms have neither colons nor percent signs. -/
theorem Syntax.WrittenTerm.not_mem_flatten_tokens {w : WrittenTerm} (h : w.Lexical) :
    ':' ∉ w.tokens.flatten ∧ '%' ∉ w.tokens.flatten := by
  constructor
  · intro hm
    obtain ⟨t, ht, hm⟩ := List.mem_flatten.1 hm
    exact (isPart_of_mem_tokens h t ht).colon_not_mem hm
  · intro hm
    obtain ⟨t, ht, hm⟩ := List.mem_flatten.1 hm
    exact ((isPart_of_mem_tokens h t ht).plain.2 _ hm).2 rfl

/-- A text that shows the name of its atom is bound by this name. -/
theorem ShowsName.nodeName_eq {text : String} {a : Term} (h : ShowsName text.toList a) :
    nodeName text = a.text := by
  obtain ⟨front, back, p, w, hw, rfl, hfront, hp, hcanonical⟩ := h
  have htext : (w.value 0).text.toList = w.tokens.flatten := by
    rw [Term.toList_text, hcanonical.written_value, WrittenTerm.tokens_unplaced]
  have hcolon := (WrittenTerm.not_mem_flatten_tokens hw.lexical).1
  rw [← htext] at hcolon
  rw [nodeName_eq_iff hw.text_eq hcolon, hw.squeeze_back hp, htext]
  exact ⟨hfront, rfl⟩

section

variable {α : Type} [Probability α] {text : String} {q : α} {a b : Term}

/-- A text of a probabilistic fact that is bound by the name of an atom shows this name, and the atom is that
of the fact. -/
theorem showsName_of_nodeName_eq (h : Program.ofText text = .ok ⟨[.chance q a], []⟩) (hb : b.Printable)
    (hname : nodeName text = b.text) : a = b ∧ ShowsName text.toList a := by
  obtain ⟨front, back, p, w, hw, -, rfl⟩ := exists_writesFact_of_ofText h
  obtain ⟨hcolon, hpercent⟩ := WrittenTerm.not_mem_flatten_tokens hb.lexical.written
  rw [← b.toList_text] at hcolon hpercent
  obtain ⟨hfront, hback⟩ := (nodeName_eq_iff hw.text_eq hcolon).1 hname
  -- a comment after the double colon would be part of the name
  have hp : '%' ∉ back := by
    intro hm
    have hsqueezed : '%' ∈ Text.squeeze back := List.mem_filter.2 ⟨hm, by decide⟩
    rw [← hback] at hpercent
    exact hpercent (mem_withoutFinalPoint hsqueezed (by decide))
  rw [hw.squeeze_back hp] at hback
  have htight : Tight w.tokens b.text.toList := by
    rw [← hback]
    exact tight_flatten w.tokens
  have hunplaced := WrittenTerm.unplaced_eq_of_tight hb.lexical.written hw.lexical b.tight_text htight
  rw [b.unplaced_written] at hunplaced
  have hcanonical := WrittenTerm.canonical_of_unplaced hb.named hunplaced
  refine ⟨Term.written_inj ?_, front, back, p, w, hw, rfl, hfront, hp, hcanonical⟩
  rw [hcanonical.written_value, hunplaced]

/-- A text of a probabilistic fact is bound by the name of its atom exactly when it shows this name. -/
theorem nodeName_eq_text_iff (h : Program.ofText text = .ok ⟨[.chance q a], []⟩) :
    nodeName text = a.text ↔ ShowsName text.toList a := by
  obtain ⟨_, _, _, w, hw, hfits, rfl⟩ := exists_writesFact_of_ofText h
  constructor
  · intro hname
    exact (showsName_of_nodeName_eq h (WrittenTerm.printable_value hw.lexical hfits 0) hname).2
  · exact ShowsName.nodeName_eq

end

end TimedInference
