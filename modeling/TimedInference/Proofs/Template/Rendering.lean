import TimedInference.Number.Rational
import TimedInference.Proofs.Template.Pieces
import TimedInference.Proofs.Template.Verbatim

/-!
# Rendering facts

A fact is written by three replacements, each of which goes over what the ones before it have left.  The name
is filled in for the placeholders of the format, and then the timestamp and the probability are filled in at
once, for all their placeholders in the text with the name (`FactTemplate.toList_render_eq_fill`).

Filling in everything at once says the same when the text with the name has no other placeholders than the
format has (`FactTemplate.KeepsPlaceholders`), and only then (`FactTemplate.render_simultaneous`).  In the
default format these are the names without a mark of the timestamp or of the probability
(`FactTemplate.keepsPlaceholders_iff_of_format`).
-/

namespace TimedInference

namespace Placeholder

/-- The placeholders that are filled in after the identifier. -/
def later : List Placeholder := [timestamp, probability]

/-- The time and the probability are filled in after the identifier. -/
theorem mem_later {h : Placeholder} : h ∈ later ↔ h ≠ identifier := by
  cases h
  all_goals decide

end Placeholder

/-! ## Three replacements -/

namespace FactTemplate

open Placeholder Piece

variable {α : Type} [Probability α] {t : FactTemplate}

/-- The format, with the identifier at its placeholders. -/
def named (t : FactTemplate) : List Piece :=
  (read all t.format.toList).flatMap (expand .identifier t.identifier.toList)

theorem mem_later_of_hole_mem_named {h : Placeholder} (hmem : hole h ∈ t.named) : h ∈ later :=
  mem_later.2 (ne_of_hole_mem_expand hmem)

/-- The identifier is filled in first. -/
theorem fill_identifier (t : FactTemplate) (time : Int) (p : α) :
    t.fill time p t.format.toList .identifier = spell t.named := by
  have happart : Apart [.identifier] (read all t.format.toList) := (apart_read _ _).mono (by decide)
  have h := replace_fill happart rfl (fun _ => passedBy_mark) t.identifier.toList
  rw [← spell, spell_read] at h
  rw [fill, named, spell, fill_flatMap_expand, ← h]
  rfl

/-- A fact is written by filling in its timestamp and its probability at once, in the text with the
identifier. -/
theorem toList_render_eq_fill (t : FactTemplate) (time : Int) (p : α) :
    (t.render time p).toList = Piece.fill (t.filling time p) (read later (spell t.named)) := by
  generalize hps : read later (spell t.named) = ps
  have hspell : spell t.named = Piece.fill mark ps := by rw [← hps, ← spell, spell_read]
  have happart (h : Placeholder) (hh : h ∈ later) : Apart [h] ps :=
    Apart.mono (hps ▸ apart_read _ _) (List.forall_mem_singleton.2 hh)
  -- the timestamp, with all other marks in place
  have htimestamp := replace_fill (happart .timestamp (by decide)) rfl (fun _ => passedBy_mark)
    (t.filling time p .timestamp)
  -- the probability, with the timestamp filled in
  have hmark : Function.update mark timestamp (t.filling time p .timestamp) probability =
      probability.mark := rfl
  have hpassed (k : Placeholder) (hk : k ≠ probability) :
      PassedBy probability (Function.update mark timestamp (t.filling time p .timestamp) k) := by
    by_cases htime : k = timestamp
    · rw [htime, Function.update_self]
      exact passedBy_toString _ time
    · rw [Function.update_of_ne htime]
      exact passedBy_mark hk
  have hprobability := replace_fill (happart .probability (by decide)) hmark hpassed
    (t.filling time p .probability)
  rw [render, String.toList_ofList, List.foldl_cons, List.foldl_cons, List.foldl_cons, List.foldl_nil,
    fill_identifier, hspell, fill, fill, htimestamp, hprobability]
  refine fill_congr fun k hk => ?_
  have hk' : k ≠ Placeholder.identifier := mem_later.1 (mem_of_hole_mem_read (hps ▸ hk))
  cases k with
  | identifier => exact absurd rfl hk'
  | timestamp => rfl
  | probability => rfl

/-! ## All at once -/

/-- The text of the fact with all placeholders of the format filled in at once. -/
def simultaneous (t : FactTemplate) (time : Int) (p : α) : String :=
  String.ofList (Piece.fill (t.filling time p) (read all t.format.toList))

/-- Filling in everything at once is filling in time and probability where the identifier stands
already. -/
theorem toList_simultaneous (t : FactTemplate) (time : Int) (p : α) :
    (t.simultaneous time p).toList = Piece.fill (t.filling time p) t.named := by
  have hname : Function.update (t.filling time p) .identifier t.identifier.toList = t.filling time p :=
    Function.update_eq_self _ _
  rw [simultaneous, String.toList_ofList, named, fill_flatMap_expand, hname]

/-- In the text with the identifier the timestamp and the probability have the placeholders that they have in
the format, and no other ones. -/
def KeepsPlaceholders (t : FactTemplate) : Prop := read later (spell t.named) = t.named

instance (t : FactTemplate) : Decidable t.KeepsPlaceholders :=
  inferInstanceAs (Decidable (read later (spell t.named) = t.named))

/-- Placeholders are kept exactly when no character of the text with the identifier begins one of those
that are filled in later. -/
theorem keepsPlaceholders_iff_apart : t.KeepsPlaceholders ↔ Apart later t.named := by
  constructor
  · intro h
    rw [← h]
    exact apart_read _ _
  · intro h
    exact h.read_spell fun _ => mem_later_of_hole_mem_named

/-- Other placeholders are seen in the text of the fact, in which they are missing. -/
theorem keepsPlaceholders_of_render_eq {time : Int}
    (h : t.render time (0 : α) = t.simultaneous time (0 : α)) : t.KeepsPlaceholders := by
  have htexts (k : Placeholder) (hk : k ∈ later) : '\x7b' ∉ t.filling time (0 : α) k := by
    cases k with
    | identifier => exact absurd rfl (mem_later.1 hk)
    | timestamp => exact not_mem_toString (by decide)
    | probability =>
      rw [filling, Probability.text_zero]
      decide
  rw [← String.toList_inj, toList_render_eq_fill, toList_simultaneous] at h
  exact read_spell_of_fill_eq (fun _ => mem_later_of_hole_mem_named) htexts h

/-- In the default format the placeholders are kept by the identifiers that have no mark of a placeholder that
is filled in after them. -/
theorem keepsPlaceholders_iff_of_format (h : t.format = defaultFormat) :
    t.KeepsPlaceholders ↔ ∀ k ∈ later, ¬ k.mark <:+: t.identifier.toList := by
  have hnamed : t.named = hole .probability :: char ':' :: char ':' ::
      (t.identifier.toList.map char ++ char '(' :: hole .timestamp :: ").".toList.map char) := by
    rw [named, h]
    rfl
  have hend : Apart later (char '(' :: hole .timestamp :: ").".toList.map char) :=
    ⟨rfl, rfl, rfl, trivial⟩
  have hcolon (cs : List Char) : at? later (':' :: cs) = none := rfl
  rw [keepsPlaceholders_iff_apart, hnamed, Apart, Apart, Apart, hcolon, hcolon,
    apart_map_char_append (by decide) rfl]
  simp only [hend, true_and, and_true]

/-- Without opening braces besides those of the placeholders of the format the placeholders are kept. -/
theorem keepsPlaceholders_of_brace_not_mem (hformat : char '\x7b' ∉ read all t.format.toList)
    (hname : '\x7b' ∉ t.identifier.toList) : t.KeepsPlaceholders := by
  rw [keepsPlaceholders_iff_apart]
  exact apart_of_brace_not_mem fun hmem => (char_mem_expand hmem).elim hformat hname

/-- A fact is written by filling in its timestamp and its probability at once, in the text with the
identifier.  This is to fill in the format at once, whatever the probability, exactly when the placeholders
are kept, as they are when no opening brace stands besides them.  In the default format they are kept by
identifiers without a later mark only. -/
theorem render_simultaneous (t : FactTemplate) (time : Int) :
    (∀ p : α, t.render time p =
      String.ofList (Piece.fill (t.filling time p) (read later (spell t.named)))) ∧
    (t.KeepsPlaceholders ↔ ∀ p : α, t.render time p = t.simultaneous time p) ∧
    (char '\x7b' ∉ read all t.format.toList → '\x7b' ∉ t.identifier.toList → t.KeepsPlaceholders) ∧
    (t.format = defaultFormat →
      (t.KeepsPlaceholders ↔ ∀ h ∈ later, ¬ h.mark <:+: t.identifier.toList)) := by
  refine ⟨fun p => ?_, ⟨fun h p => ?_, fun h => keepsPlaceholders_of_render_eq (h 0)⟩,
    keepsPlaceholders_of_brace_not_mem, keepsPlaceholders_iff_of_format⟩
  · rw [← toList_render_eq_fill, String.ofList_toList]
  · rw [← String.toList_inj, toList_render_eq_fill, toList_simultaneous, h]

/-- A format with an argument besides the timestamp. -/
def sensorFormat : String := "\x7bprobability\x7d :: \x7bidentifier\x7d(sensor, \x7btimestamp\x7d)."

theorem render_simultaneous_reading :
    (∃ t, withFormat "reading" sensorFormat = .ok t ∧ t.KeepsPlaceholders ∧
      t.render 2 (0 : Rat) = t.simultaneous 2 (0 : Rat) ∧
      t.render 2 (0 : Rat) = "0 :: reading(sensor, 2).") ∧
    ∃ t, ofIdentifier "heads" = .ok t ∧ t.KeepsPlaceholders := by
  obtain ⟨-, heq, hkeeps, -⟩ := render_simultaneous (α := Rat) ⟨"reading", sensorFormat⟩ 2
  have hreading : KeepsPlaceholders ⟨"reading", sensorFormat⟩ := hkeeps (by decide +kernel) (by decide)
  obtain ⟨-, -, -, hdefault⟩ := render_simultaneous (α := Rat) ⟨"heads", defaultFormat⟩ 2
  have hheads : KeepsPlaceholders ⟨"heads", defaultFormat⟩ := (hdefault rfl).2 (by decide)
  exact ⟨⟨_, by decide +kernel, hreading, heq.1 hreading 0, by decide +kernel⟩,
    ⟨_, by decide +kernel, hheads⟩⟩

/-- A format with a brace before the identifier, and what is left of a mark after it. -/
def openFormat : String :=
  "\x7bprobability\x7d::\x7bidentifier\x7d(\x7b\x7bidentifier\x7dimestamp\x7d, \x7btimestamp\x7d)."

/-- A mark in the identifier is filled in, and so is a mark that the identifier completes. -/
theorem render_not_simultaneous :
    (∃ t, ofIdentifier "heads\x7btimestamp\x7d" = .ok t ∧
      t.simultaneous 3 (0 : Rat) = "0::heads\x7btimestamp\x7d(3)." ∧
      t.render 3 (0 : Rat) = "0::heads3(3).") ∧
    (∃ t, withFormat "t" openFormat = .ok t ∧
      t.simultaneous 3 (0 : Rat) = "0::t(\x7btimestamp\x7d, 3)." ∧
      t.render 3 (0 : Rat) = "0::t(3, 3).") := by
  refine ⟨⟨⟨"heads\x7btimestamp\x7d", defaultFormat⟩, ?_, ?_, ?_⟩, ⟨⟨"t", openFormat⟩, ?_, ?_, ?_⟩⟩
  all_goals decide +kernel

end FactTemplate

end TimedInference
