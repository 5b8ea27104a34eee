import Mathlib.Logic.Function.Basic
import TimedInference.Proofs.Template.Texts

/-!
# Texts with placeholders

A text is made of pieces, which are characters and placeholders (`Piece.read`).  The mark of a placeholder
has its opening brace in front and nowhere else, so marks do not overlap and there is one way to read a text.
Filling in all pieces at once is the simultaneous substitution of texts for placeholders (`Piece.fill`).

Replacing one mark is filling in one placeholder, as long as what has been filled in before begins no mark
(`Piece.replace_fill`).  Of all pieces that make up a text those that are read from it have the most
placeholders, and other ones have fewer (`Piece.eq_read_or_holes_lt`).
-/

namespace TimedInference

namespace Placeholder

/-! ## Marks -/

/-- A mark begins with its only opening brace. -/
theorem exists_mark_eq_cons (h : Placeholder) : ∃ name, h.mark = '\x7b' :: name ∧ '\x7b' ∉ name := by
  cases h
  all_goals exact ⟨_, rfl, by decide⟩

/-- A placeholder begins with a brace. -/
theorem mark_eq_cons (h : Placeholder) : h.mark = '\x7b' :: h.mark.tail := by
  obtain ⟨name, hmark, -⟩ := h.exists_mark_eq_cons
  rw [hmark, List.tail_cons]

/-- A placeholder has no other brace that opens. -/
theorem brace_not_mem_tail_mark (h : Placeholder) : '\x7b' ∉ h.mark.tail := by
  obtain ⟨name, hmark, hname⟩ := h.exists_mark_eq_cons
  rwa [hmark, List.tail_cons]

/-- Marks of different placeholders differ in their second character. -/
theorem eq_of_mark_prefix {h k : Placeholder} {rest : List Char} (hk : k.mark <+: h.mark ++ rest) :
    k = h := by
  have hlength (h : Placeholder) : 1 < h.mark.length := by
    cases h
    all_goals decide
  have hsecond : k.mark[1]? = h.mark[1]? := by
    obtain ⟨more, hmore⟩ := hk
    have heq : (k.mark ++ more)[1]? = (h.mark ++ rest)[1]? := congrArg (·[1]?) hmore
    rwa [List.getElem?_append_left (hlength k), List.getElem?_append_left (hlength h)] at heq
  revert hsecond
  cases h
  all_goals
    cases k
    all_goals decide

/-- The placeholder among given ones whose mark a text begins with. -/
def at? (hs : List Placeholder) (cs : List Char) : Option Placeholder :=
  hs.find? fun h => h.mark.isPrefixOf cs

variable {hs : List Placeholder} {cs : List Char}

theorem prefix_of_at?_eq_some {h : Placeholder} (hat : at? hs cs = some h) : h.mark <+: cs := by
  obtain ⟨hp, -⟩ := List.find?_eq_some_iff_append.1 hat
  exact List.isPrefixOf_iff_prefix.1 hp

/-- The placeholder that a text begins with is one of the given. -/
theorem at?_eq_some_iff {h : Placeholder} : at? hs cs = some h ↔ h ∈ hs ∧ h.mark <+: cs := by
  constructor
  · intro hat
    exact ⟨List.mem_of_find?_eq_some hat, prefix_of_at?_eq_some hat⟩
  · rintro ⟨hmem, hprefix⟩
    have hsome : (at? hs cs).isSome = true :=
      List.find?_isSome.2 ⟨h, hmem, List.isPrefixOf_iff_prefix.2 hprefix⟩
    obtain ⟨k, hk⟩ := Option.isSome_iff_exists.1 hsome
    obtain ⟨rest, rfl⟩ := hprefix
    rw [hk, eq_of_mark_prefix (prefix_of_at?_eq_some hk)]

/-- No placeholder is found where a text begins with none of the given ones. -/
theorem at?_eq_none_iff : at? hs cs = none ↔ ∀ h ∈ hs, ¬ h.mark <+: cs := by
  simp only [at?, List.find?_eq_none, List.isPrefixOf_iff_prefix]

end Placeholder

/-! ## Pieces -/

/-- A part of a text. -/
inductive Piece where
  | char (c : Char)
  | hole (h : Placeholder)
  deriving DecidableEq

namespace Piece

/-- The pieces of a text in which given placeholders are looked for, from left to right.  The number counts
the characters that belong to a placeholder already found. -/
def readFrom (hs : List Placeholder) : Nat → List Char → List Piece
  | _, [] => []
  | skip + 1, _ :: cs => readFrom hs skip cs
  | 0, c :: cs =>
    match Placeholder.at? hs (c :: cs) with
    | some h => hole h :: readFrom hs (h.mark.length - 1) cs
    | none => char c :: readFrom hs 0 cs

/-- The pieces of a text in which given placeholders are looked for. -/
def read (hs : List Placeholder) (cs : List Char) : List Piece := readFrom hs 0 cs

/-- The text of a piece, given a text for each placeholder. -/
def write (texts : Placeholder → List Char) : Piece → List Char
  | char c => [c]
  | hole h => texts h

/-- The text of pieces, with all placeholders filled in at once. -/
def fill (texts : Placeholder → List Char) (ps : List Piece) : List Char := ps.flatMap (write texts)

/-- The text that pieces are read from. -/
def spell (ps : List Piece) : List Char := fill Placeholder.mark ps

/-- The number of placeholders. -/
def holes : List Piece → Nat
  | [] => 0
  | char _ :: ps => holes ps
  | hole _ :: ps => holes ps + 1

variable {hs : List Placeholder} {texts texts' : Placeholder → List Char} {ps : List Piece}

@[simp] theorem fill_nil : fill texts [] = [] := rfl

@[simp] theorem fill_char (c : Char) : fill texts (char c :: ps) = c :: fill texts ps := rfl

/-- A placeholder is replaced by its text; characters stay. -/
@[simp] theorem fill_hole (h : Placeholder) : fill texts (hole h :: ps) = texts h ++ fill texts ps :=
  rfl

@[simp] theorem spell_nil : spell [] = [] := rfl

@[simp] theorem spell_char (c : Char) : spell (char c :: ps) = c :: spell ps := rfl

@[simp] theorem spell_hole (h : Placeholder) : spell (hole h :: ps) = h.mark ++ spell ps := rfl

/-- Pieces that are put together are filled in one after the other. -/
theorem fill_append (ps qs : List Piece) : fill texts (ps ++ qs) = fill texts ps ++ fill texts qs :=
  List.flatMap_append

/-- A text without placeholders is filled in by itself. -/
theorem fill_map_char (text : List Char) : fill texts (text.map char) = text := by
  induction text with
  | nil => rfl
  | cons c text ih => rw [List.map_cons, fill_char, ih]

theorem spell_map_char_append (text : List Char) (ps : List Piece) :
    spell (text.map char ++ ps) = text ++ spell ps := by
  rw [spell, fill_append, fill_map_char, ← spell]

/-- Only the texts of the placeholders that occur matter. -/
theorem fill_congr (h : ∀ k, hole k ∈ ps → texts k = texts' k) : fill texts ps = fill texts' ps := by
  induction ps with
  | nil => rfl
  | cons p ps ih =>
    have ih' := ih fun k hk => h k (List.mem_cons_of_mem _ hk)
    cases p with
    | char c => rw [fill_char, fill_char, ih']
    | hole k => rw [fill_hole, fill_hole, ih', h k List.mem_cons_self]

/-! ## Reading -/

@[simp] theorem read_nil : read hs [] = [] := rfl

/-- A character that begins no placeholder is read as a character. -/
theorem read_cons {c : Char} {cs : List Char} (h : Placeholder.at? hs (c :: cs) = none) :
    read hs (c :: cs) = char c :: read hs cs := by
  rw [read, readFrom, h]
  rfl

/-- Reading starts after as many characters as it is told to skip. -/
theorem readFrom_append (hs : List Placeholder) (cs rest : List Char) :
    readFrom hs cs.length (cs ++ rest) = read hs rest := by
  induction cs with
  | nil => rfl
  | cons c cs ih => exact ih

/-- A placeholder is read as one. -/
theorem read_mark_append {h : Placeholder} (hh : h ∈ hs) (rest : List Char) :
    read hs (h.mark ++ rest) = hole h :: read hs rest := by
  have hat : Placeholder.at? hs (h.mark ++ rest) = some h :=
    Placeholder.at?_eq_some_iff.2 ⟨hh, List.prefix_append _ _⟩
  have hlength : h.mark.length - 1 = h.mark.tail.length := by rw [List.length_tail]
  rw [h.mark_eq_cons, List.cons_append] at hat ⊢
  rw [read, readFrom, hat]
  show hole h :: readFrom hs (h.mark.length - 1) _ = _
  rw [hlength, readFrom_append]

/-- To prove something of a text, prove it of a text with a placeholder in front from what comes after the
placeholder, and of a text with another character in front from what comes after that. -/
theorem induction_read (hs : List Placeholder) {motive : List Char → Prop} (nil : motive [])
    (mark : ∀ h ∈ hs, ∀ rest, motive rest → motive (h.mark ++ rest))
    (char : ∀ c cs, Placeholder.at? hs (c :: cs) = none → motive cs → motive (c :: cs))
    (cs : List Char) : motive cs := by
  induction hn : cs.length using Nat.strongRecOn generalizing cs with
  | _ n ih =>
    cases cs with
    | nil => exact nil
    | cons c cs =>
      cases hat : Placeholder.at? hs (c :: cs) with
      | none => exact char c cs hat (ih cs.length (by simp [← hn]) cs rfl)
      | some h =>
        obtain ⟨hh, rest, hrest⟩ := Placeholder.at?_eq_some_iff.1 hat
        have hlt : rest.length < n := by
          rw [← hn, ← hrest, List.length_append, h.mark_eq_cons, List.length_cons]
          omega
        rw [← hrest]
        exact mark h hh rest (ih rest.length hlt rest rfl)

/-- What is read from a text spells the text. -/
@[simp] theorem spell_read (hs : List Placeholder) (cs : List Char) : spell (read hs cs) = cs := by
  induction cs using induction_read hs with
  | nil => rfl
  | mark h hh rest ih => rw [read_mark_append hh, spell_hole, ih]
  | char c cs hat ih => rw [read_cons hat, spell_char, ih]

/-- Only the given placeholders are read. -/
theorem mem_of_hole_mem_read {h : Placeholder} {cs : List Char} (hmem : hole h ∈ read hs cs) :
    h ∈ hs := by
  induction cs using induction_read hs with
  | nil => simp at hmem
  | mark k hk rest ih =>
    rw [read_mark_append hk, List.mem_cons, hole.injEq] at hmem
    rcases hmem with rfl | hmem
    · exact hk
    · exact ih hmem
  | char c cs hat ih =>
    rw [read_cons hat, List.mem_cons] at hmem
    exact ih (hmem.resolve_left (by simp))

/-- No character begins the mark of one of the given placeholders. -/
def Apart (hs : List Placeholder) : List Piece → Prop
  | [] => True
  | char c :: ps => Placeholder.at? hs (c :: spell ps) = none ∧ Apart hs ps
  | hole _ :: ps => Apart hs ps

/-- After reading, no character begins a placeholder: each one was read as such. -/
theorem apart_read (hs : List Placeholder) (cs : List Char) : Apart hs (read hs cs) := by
  induction cs using induction_read hs with
  | nil => trivial
  | mark h hh rest ih =>
    rw [read_mark_append hh]
    exact ih
  | char c cs hat ih =>
    rw [read_cons hat]
    exact ⟨by rwa [spell_read], ih⟩

/-- Pieces of which no character begins a mark are read from the text that they spell. -/
theorem Apart.read_spell (h : Apart hs ps) (hholes : ∀ k, hole k ∈ ps → k ∈ hs) :
    read hs (spell ps) = ps := by
  induction ps with
  | nil => rfl
  | cons p ps ih =>
    have hrest (k : Placeholder) (hk : hole k ∈ ps) : k ∈ hs := hholes k (List.mem_cons_of_mem _ hk)
    cases p with
    | char c => rw [spell_char, read_cons h.1, ih h.2 hrest]
    | hole k => rw [spell_hole, read_mark_append (hholes k List.mem_cons_self), ih h hrest]

/-- What begins none of some placeholders begins none of fewer. -/
theorem Apart.mono {hs' : List Placeholder} (h : Apart hs ps) (hsub : hs' ⊆ hs) : Apart hs' ps := by
  induction ps with
  | nil => trivial
  | cons p ps ih =>
    cases p with
    | char c =>
      refine ⟨Placeholder.at?_eq_none_iff.2 fun k hk => ?_, ih h.2⟩
      exact Placeholder.at?_eq_none_iff.1 h.1 k (hsub hk)
    | hole k => exact ih h

/-- No mark begins where no opening brace is. -/
theorem apart_of_brace_not_mem (h : char '\x7b' ∉ ps) : Apart hs ps := by
  induction ps with
  | nil => trivial
  | cons p ps ih =>
    rw [List.mem_cons, not_or] at h
    cases p with
    | char c =>
      refine ⟨Placeholder.at?_eq_none_iff.2 fun k _ hp => h.1 ?_, ih h.2⟩
      rw [k.mark_eq_cons, List.cons_prefix_cons] at hp
      rw [hp.1]
    | hole k => exact ih h.2

/-- A text that is put in front of a character that marks do not have begins a mark only if it has the whole
mark. -/
theorem apart_map_char_append {cs rest : List Char} {c : Char} (hc : ∀ h ∈ hs, c ∉ h.mark)
    (hrest : spell ps = c :: rest) :
    Apart hs (cs.map char ++ ps) ↔ (∀ h ∈ hs, ¬ h.mark <:+: cs) ∧ Apart hs ps := by
  induction cs with
  | nil =>
    have hmark (h : Placeholder) : ¬ h.mark <:+: [] := by
      rw [List.infix_nil, h.mark_eq_cons]
      exact List.cons_ne_nil _ _
    simp [hmark]
  | cons d cs ih =>
    have hat : Placeholder.at? hs (d :: spell (cs.map char ++ ps)) = none ↔
        ∀ h ∈ hs, ¬ h.mark <+: d :: cs := by
      rw [Placeholder.at?_eq_none_iff, spell_map_char_append, hrest]
      refine forall₂_congr fun h hh => not_congr ?_
      rw [← List.cons_append]
      exact ⟨Text.prefix_of_prefix_append_cons (hc h hh), fun hp => hp.trans (List.prefix_append _ _)⟩
    rw [List.map_cons, List.cons_append, Apart, hat, ih, ← and_assoc, ← forall₂_and]
    simp only [List.infix_cons_iff, not_or]

/-! ## Filling in one after the other -/

/-- A piece with the characters of a text for a placeholder. -/
def expand (h : Placeholder) (text : List Char) : Piece → List Piece
  | char c => [char c]
  | hole k => if k = h then text.map char else [hole k]

/-- The characters of a text may be filled in before the other placeholders. -/
theorem fill_flatMap_expand (h : Placeholder) (text : List Char) (ps : List Piece) :
    fill texts (ps.flatMap (expand h text)) = fill (Function.update texts h text) ps := by
  induction ps with
  | nil => rfl
  | cons p ps ih =>
    rw [List.flatMap_cons, fill_append, ih]
    cases p with
    | char c => rfl
    | hole k =>
      by_cases hk : k = h
      · rw [expand, if_pos hk, fill_map_char, fill_hole, hk, Function.update_self]
      · rw [expand, if_neg hk, fill_hole, fill_hole, fill_nil, List.append_nil, Function.update_of_ne hk]

/-- A placeholder with the characters of its text does not occur any more. -/
theorem ne_of_hole_mem_expand {h k : Placeholder} {text : List Char}
    (hmem : hole k ∈ ps.flatMap (expand h text)) : k ≠ h := by
  obtain ⟨p, -, hp⟩ := List.mem_flatMap.1 hmem
  cases p with
  | char c => simp [expand] at hp
  | hole l =>
    rw [expand] at hp
    split at hp
    next => simp at hp
    next hl =>
      obtain rfl : k = l := by simpa using hp
      exact hl

/-- Filling in one placeholder adds the characters of its text only. -/
theorem char_mem_expand {h : Placeholder} {text : List Char} {c : Char} :
    char c ∈ ps.flatMap (expand h text) → char c ∈ ps ∨ c ∈ text := by
  intro hmem
  obtain ⟨p, hp, hc⟩ := List.mem_flatMap.1 hmem
  cases p with
  | char d =>
    obtain rfl : c = d := by simpa [expand] using hc
    exact .inl hp
  | hole k =>
    rw [expand] at hc
    split at hc
    next => exact .inr (by simpa using hc)
    next => simp at hc

/-- A text that the search for a placeholder goes past, and that does not go on with a mark begun before. -/
structure PassedBy (h : Placeholder) (text : List Char) : Prop where
  replace_append : ∀ new rest, Text.replace h.mark new (text ++ rest) = text ++ Text.replace h.mark new rest
  exists_cons : ∃ c cs, text = c :: cs ∧ c ∉ h.mark.tail

/-- The search for one placeholder goes past every other one. -/
theorem passedBy_mark {h k : Placeholder} (hk : k ≠ h) : PassedBy h k.mark where
  replace_append new rest := by
    have hp : ¬ h.mark.isPrefixOf (k.mark ++ rest) = true := fun hp =>
      hk (Placeholder.eq_of_mark_prefix (List.isPrefixOf_iff_prefix.1 hp)).symm
    rw [k.mark_eq_cons, List.cons_append] at hp ⊢
    rw [Text.replace, Text.replaceFrom, if_neg hp, List.cons_append, h.mark_eq_cons]
    exact congrArg _ (Text.replace_append k.brace_not_mem_tail_mark rest)
  exists_cons := ⟨_, _, k.mark_eq_cons, h.brace_not_mem_tail_mark⟩

/-- Numbers have no character of a mark. -/
theorem passedBy_toString (h : Placeholder) (n : Int) : PassedBy h (toString n).toList where
  replace_append new rest := by
    rw [h.mark_eq_cons]
    exact Text.replace_append (not_mem_toString (by decide)) rest
  exists_cons := by
    have hne : (toString n).toList ≠ [] := by
      rw [show (toString n).toList = _ from Term.toList_text_int n]
      split
      · exact List.cons_ne_nil _ _
      · exact Nat.toDigits_ne_nil
    obtain ⟨c, cs, hcs⟩ := List.exists_cons_of_ne_nil hne
    refine ⟨c, cs, hcs, fun hc => ?_⟩
    have hmark : h.mark.tail.all (fun c => !(c.isDigit || c = '-')) = true := by
      cases h
      all_goals decide
    have hother : (c.isDigit || c = '-') = false := by simpa using List.all_eq_true.1 hmark c hc
    exact not_mem_toString hother (by rw [hcs]; exact List.mem_cons_self)

/-- What is filled in begins with a character that a name does not have, so a name that the text goes on with
is spelled by characters. -/
theorem prefix_spell_of_prefix_fill {name : List Char}
    (htexts : ∀ h, ∃ c cs, texts h = c :: cs ∧ c ∉ name) (hp : name <+: fill texts ps) :
    name <+: spell ps := by
  induction ps generalizing name with
  | nil => exact hp
  | cons p ps ih =>
    cases name with
    | nil => exact List.nil_prefix
    | cons n name =>
      cases p with
      | char c =>
        rw [fill_char, List.cons_prefix_cons] at hp
        rw [spell_char, List.cons_prefix_cons]
        refine ⟨hp.1, ih (fun h => ?_) hp.2⟩
        obtain ⟨d, ds, htext, hd⟩ := htexts h
        exact ⟨d, ds, htext, fun hmem => hd (List.mem_cons_of_mem _ hmem)⟩
      | hole h =>
        obtain ⟨d, ds, htext, hd⟩ := htexts h
        rw [fill_hole, htext, List.cons_append, List.cons_prefix_cons] at hp
        exact absurd (hp.1 ▸ List.mem_cons_self) hd

/-- Replacing the mark of a placeholder fills it in. -/
theorem replace_fill {h : Placeholder} (hps : Apart [h] ps) (hmark : texts h = h.mark)
    (hpassed : ∀ k ≠ h, PassedBy h (texts k)) (new : List Char) :
    Text.replace h.mark new (fill texts ps) = fill (Function.update texts h new) ps := by
  have hfirst (k : Placeholder) : ∃ c cs, texts k = c :: cs ∧ c ∉ h.mark.tail := by
    by_cases hk : k = h
    · exact ⟨_, _, by rw [hk, hmark, ← h.mark_eq_cons], h.brace_not_mem_tail_mark⟩
    · exact (hpassed k hk).exists_cons
  induction ps with
  | nil => rfl
  | cons p ps ih =>
    cases p with
    | char c =>
      have hp : ¬ h.mark.isPrefixOf (c :: fill texts ps) = true := by
        intro hp
        have hcons := List.isPrefixOf_iff_prefix.1 hp
        rw [h.mark_eq_cons, List.cons_prefix_cons] at hcons
        have hspell : h.mark <+: c :: spell ps := by
          rw [h.mark_eq_cons, List.cons_prefix_cons]
          exact ⟨hcons.1, prefix_spell_of_prefix_fill hfirst hcons.2⟩
        exact Placeholder.at?_eq_none_iff.1 hps.1 h (List.mem_singleton_self h) hspell
      rw [fill_char, fill_char, Text.replace, Text.replaceFrom, if_neg hp]
      exact congrArg _ (ih hps.2)
    | hole k =>
      by_cases hk : k = h
      · subst hk
        rw [fill_hole, fill_hole, hmark, Function.update_self, k.mark_eq_cons, Text.replace_self_append,
          ← k.mark_eq_cons]
        exact congrArg _ (ih hps)
      · rw [fill_hole, fill_hole, (hpassed k hk).replace_append, Function.update_of_ne hk, ih hps]

/-! ## Numbers of placeholders -/

/-- A name without an opening brace that a spelled text begins with is spelled by characters. -/
theorem eq_map_char_append {name : List Char} (hname : '\x7b' ∉ name) (hp : name <+: spell ps) :
    ∃ qs, ps = name.map char ++ qs := by
  induction name generalizing ps with
  | nil => exact ⟨ps, rfl⟩
  | cons n name ih =>
    rw [List.mem_cons, not_or] at hname
    cases ps with
    | nil => simp at hp
    | cons p ps =>
      cases p with
      | char c =>
        rw [spell_char, List.cons_prefix_cons] at hp
        obtain ⟨rfl, hp⟩ := hp
        obtain ⟨qs, rfl⟩ := ih hname.2 hp
        exact ⟨qs, rfl⟩
      | hole h =>
        rw [spell_hole, h.mark_eq_cons, List.cons_append, List.cons_prefix_cons] at hp
        exact absurd hp.1.symm hname.1

@[simp] theorem holes_map_char_append (name : List Char) (qs : List Piece) :
    holes (name.map char ++ qs) = holes qs := by
  induction name with
  | nil => rfl
  | cons n name ih => exact ih

/-- Pieces either are those that are read from the text they spell, or have fewer placeholders. -/
theorem eq_read_or_holes_lt (hholes : ∀ k, hole k ∈ ps → k ∈ hs) :
    ps = read hs (spell ps) ∨ holes ps < holes (read hs (spell ps)) := by
  induction hn : ps.length using Nat.strongRecOn generalizing ps with
  | _ n ih =>
    cases ps with
    | nil => exact .inl rfl
    | cons p ps =>
      have hrest (k : Placeholder) (hk : hole k ∈ ps) : k ∈ hs := hholes k (List.mem_cons_of_mem _ hk)
      have ih' := ih ps.length (by simp [← hn]) hrest rfl
      cases p with
      | hole h =>
        rw [spell_hole, read_mark_append (hholes h List.mem_cons_self)]
        exact ih'.imp (congrArg _) Nat.succ_lt_succ
      | char c =>
        cases hat : Placeholder.at? hs (spell (char c :: ps)) with
        | none =>
          rw [spell_char] at hat ⊢
          rw [read_cons hat]
          exact ih'.imp (congrArg _) id
        | some h =>
          -- the pieces spell a mark by characters, which is read as a placeholder
          obtain ⟨hh, hp⟩ := Placeholder.at?_eq_some_iff.1 hat
          have hcons := hp
          rw [spell_char, h.mark_eq_cons, List.cons_prefix_cons] at hcons
          obtain ⟨qs, rfl⟩ := eq_map_char_append h.brace_not_mem_tail_mark hcons.2
          have hspell : spell (char c :: (h.mark.tail.map char ++ qs)) = h.mark ++ spell qs := by
            rw [spell_char, spell_map_char_append, ← List.cons_append, ← hcons.1, ← h.mark_eq_cons]
          have hlt : qs.length < n := by
            rw [← hn, List.length_cons, List.length_append]
            omega
          have hqs (k : Placeholder) (hk : hole k ∈ qs) : k ∈ hs :=
            hrest k (List.mem_append_right _ hk)
          have hle : holes qs ≤ holes (read hs (spell qs)) := by
            rcases ih qs.length hlt hqs rfl with heq | hlt
            · exact Nat.le_of_eq (congrArg holes heq)
            · exact Nat.le_of_lt hlt
          rw [hspell, read_mark_append hh]
          refine .inr (Nat.lt_succ_of_le ?_)
          rwa [holes, holes_map_char_append]

/-- Filling in texts without an opening brace takes as many braces away as there are placeholders. -/
theorem count_fill_add_holes (htexts : ∀ h, hole h ∈ ps → '\x7b' ∉ texts h) :
    (fill texts ps).count '\x7b' + holes ps = (spell ps).count '\x7b' := by
  induction ps with
  | nil => rfl
  | cons p ps ih =>
    have ih' := ih fun h hh => htexts h (List.mem_cons_of_mem _ hh)
    cases p with
    | char c =>
      rw [fill_char, spell_char, List.count_cons, List.count_cons, ← ih', holes]
      omega
    | hole h =>
      have hmark : h.mark.count '\x7b' = 1 := by
        rw [h.mark_eq_cons, List.count_cons_self,
          List.count_eq_zero_of_not_mem h.brace_not_mem_tail_mark]
      rw [fill_hole, spell_hole, List.count_append, List.count_append,
        List.count_eq_zero_of_not_mem (htexts h List.mem_cons_self), hmark, ← ih', holes]
      omega

/-- Pieces that say the same as those that are read from the text they spell, once texts without an opening
brace are filled in, are these pieces. -/
theorem read_spell_of_fill_eq (hholes : ∀ h, hole h ∈ ps → h ∈ hs)
    (htexts : ∀ h ∈ hs, '\x7b' ∉ texts h)
    (heq : fill texts (read hs (spell ps)) = fill texts ps) : read hs (spell ps) = ps := by
  have hread : (fill texts (read hs (spell ps))).count '\x7b' + holes (read hs (spell ps)) =
      (spell (read hs (spell ps))).count '\x7b' :=
    count_fill_add_holes fun h hh => htexts h (mem_of_hole_mem_read hh)
  have hps : (fill texts ps).count '\x7b' + holes ps = (spell ps).count '\x7b' :=
    count_fill_add_holes fun h hh => htexts h (hholes h hh)
  rw [spell_read, heq, ← hps] at hread
  have hnumber : holes (read hs (spell ps)) = holes ps := Nat.add_left_cancel hread
  exact (eq_read_or_holes_lt hholes).elim Eq.symm fun hlt => absurd hnumber (Nat.ne_of_gt hlt)

end Piece

end TimedInference
