import TimedInference.Proofs.Syntax.Statements
import TimedInference.Proofs.Term.Integers

/-!
# Texts of terms

The text of a term whose names have the forms of the grammar is a layout of its tokens
(`Term.tight_text`).  So it is read as this term, and no two such terms have the same text
(`Term.eq_of_text_eq`).  What a written term stands for has names of these forms again, and integers that
are timestamps (`WrittenTerm.readable_of_value?`).
-/

namespace TimedInference

open Syntax Syntax.Resolving

namespace Syntax

/-! ## Digits -/

/-- A natural number is written by digits. -/
theorem isDigits_toDigits (n : Nat) : IsDigits (Nat.toDigits 10 n) :=
  ⟨Nat.toDigits_ne_nil, List.all_eq_true.2 fun _ h =>
    Nat.isDigit_of_mem_toDigits (by decide) (Nat.le_refl 10) h⟩

theorem ofDigits_toDigits (n : Nat) : Decimal.ofDigits (Nat.toDigits 10 n) = n := by
  have h := Nat.ofDigitChars_ten_toDigits (n := n)
  rwa [Nat.ofDigitChars_eq_foldl] at h

/-- Different numbers have different digits. -/
theorem toDigits_inj {n k : Nat} : Nat.toDigits 10 n = Nat.toDigits 10 k ↔ n = k := by
  constructor
  · intro h
    rw [← ofDigits_toDigits n, h, ofDigits_toDigits]
  · rintro rfl
    rfl

end Syntax

/-! ## Layouts of terms -/

/-- A text is a layout of one term, up to places. -/
theorem Syntax.WrittenTerm.unplaced_eq_of_tight {t u : WrittenTerm} (ht : t.Lexical) (hu : u.Lexical)
    {text : List Char} (h : Tight t.tokens text) (h' : Tight u.tokens text) :
    t.unplaced = u.unplaced := by
  have hpoint : Before [')', ',', ';', '.', ':'] ['.'] :=
    ⟨[], '.', [], rfl, gap_nil, by decide⟩
  obtain ⟨w, o, hw, hlike⟩ := reads_term ht h (Nat.lt_succ_self text.length) hpoint 0
  obtain ⟨w', o', hw', hlike'⟩ := reads_term hu h' (Nat.lt_succ_self text.length) hpoint 0
  obtain ⟨rfl, -⟩ := hw.unique hw'
  exact hlike.symm.trans hlike'

namespace Term

/-! ## Written terms -/

mutual

/-- The names of a term have the forms that the grammar gives them. -/
def Lexical : Term → Prop
  | var x => IsVariable x.toList
  | int _ => True
  | compound f ts => IsFunctor f.toList ∧ AllLexical ts

/-- The names of terms have the forms that the grammar gives them. -/
def AllLexical : List Term → Prop
  | [] => True
  | t :: ts => t.Lexical ∧ AllLexical ts

end

/-- The arguments of a compound are lexical one by one. -/
theorem allLexical_iff {ts : List Term} : AllLexical ts ↔ ∀ t ∈ ts, t.Lexical := by
  induction ts with
  | nil => simp [AllLexical]
  | cons t ts ih => rw [AllLexical, ih, List.forall_mem_cons]

/-- A term that texts can hold: its names have the forms of the grammar, and its integers are
timestamps. -/
structure Readable (t : Term) : Prop where
  lexical : t.Lexical
  fits : ∀ n ∈ t.integers, Time.Fits n

mutual

/-- The term as it is written. -/
def written : Term → WrittenTerm
  | var x => .var x
  | int n => .integer 0 (decide (n < 0)) (Nat.toDigits 10 n.natAbs)
  | compound f ts => .compound f (writtenAll ts)

/-- The terms as they are written. -/
def writtenAll : List Term → List WrittenTerm
  | [] => []
  | t :: ts => t.written :: writtenAll ts

end

theorem writtenAll_eq_map (ts : List Term) : writtenAll ts = ts.map written := by
  induction ts with
  | nil => rfl
  | cons t ts ih => rw [writtenAll, ih, List.map_cons]

/-- A lexical term is written as one. -/
theorem Lexical.written {t : Term} (h : t.Lexical) : t.written.Lexical := by
  induction t with
  | var x => exact h
  | int n => exact isDigits_toDigits n.natAbs
  | compound f ts ih =>
    obtain ⟨hf, hts⟩ := h
    rw [allLexical_iff] at hts
    refine ⟨hf, ?_⟩
    rw [writtenAll_eq_map, WrittenTerm.allLexical_iff, List.forall_mem_map]
    exact fun t ht => ih t ht (hts t ht)

/-- Different terms are written differently. -/
theorem written_inj {t u : Term} (h : t.written = u.written) : t = u := by
  induction t generalizing u with
  | var x =>
    cases u with
    | var y =>
      obtain rfl : x = y := by simpa [written] using h
      rfl
    | _ => simp [written] at h
  | int n =>
    cases u with
    | int k =>
      simp only [written, WrittenTerm.integer.injEq, toDigits_inj, true_and, decide_eq_decide] at h
      rw [show n = k by omega]
    | _ => simp [written] at h
  | compound f ts ih =>
    cases u with
    | compound g us =>
      simp only [written, writtenAll_eq_map, WrittenTerm.compound.injEq] at h
      obtain ⟨rfl, h⟩ := h
      have hts : ts = us := by
        induction ts generalizing us with
        | nil => cases us <;> simp_all
        | cons t ts ihs =>
          rw [List.forall_mem_cons] at ih
          cases us with
          | nil => simp at h
          | cons u us =>
            rw [List.map_cons, List.map_cons, List.cons.injEq] at h
            rw [ih.1 h.1, ihs ih.2 us h.2]
      rw [hts]
    | _ => simp [written] at h

theorem unplaced_written (t : Term) : t.written.unplaced = t.written := by
  induction t with
  | var x => rfl
  | int n => rfl
  | compound f ts ih =>
    simp only [written, writtenAll_eq_map, WrittenTerm.unplaced, WrittenTerm.unplacedAll_eq_map,
      List.map_map, WrittenTerm.compound.injEq, true_and]
    exact List.map_congr_left ih

/-! ## Texts -/

/-- The text of an integer is its digits, after a minus if it is negative. -/
theorem toList_text_int (n : Int) :
    (int n).text.toList =
      if decide (n < 0) then '-' :: Nat.toDigits 10 n.natAbs else Nat.toDigits 10 n.natAbs := by
  show (toString n).toList = _
  rw [Int.toString_eq_repr, Int.repr_eq_if]
  by_cases h : n < 0
  · rw [if_neg (by omega), if_pos (by simpa using h), String.toList_append, Nat.toList_repr,
      show (-n).toNat = n.natAbs by omega]
    rfl
  · rw [if_pos (by omega), if_neg (by simpa using h), Nat.toList_repr,
      show n.toNat = n.natAbs by omega]

theorem toList_restText (us : List Term) :
    (restText us).toList = (us.map (·.text.toList)).flatMap (',' :: ·) := by
  induction us with
  | nil => rfl
  | cons u us ih =>
    rw [restText, String.toList_append, String.toList_append, ih]
    rfl

/-- The text of a term has its tokens and nothing else. -/
theorem toList_text (t : Term) : t.text.toList = t.written.tokens.flatten := by
  induction t with
  | var x => exact (List.append_nil x.toList).symm
  | int n =>
    rw [toList_text_int]
    exact (List.append_nil _).symm
  | compound f ts ih =>
    cases ts with
    | nil => exact (List.append_nil f.toList).symm
    | cons t ts =>
      rw [List.forall_mem_cons] at ih
      have hrest : (restText ts).toList = (WrittenTerm.moreTokens (ts.map written)).flatten := by
        rw [toList_restText, WrittenTerm.moreTokens_eq_flatMap, List.flatMap_map, List.flatMap_map,
          ← List.flatMap_id, List.flatMap_assoc]
        refine List.flatMap_congr fun u hu => ?_
        rw [ih.2 u hu, List.flatMap_id]
        rfl
      rw [written, writtenAll_eq_map, List.map_cons, WrittenTerm.tokens, text, List.flatten_cons,
        List.flatten_cons, List.flatten_append, List.flatten_append, ← ih.1, ← hrest]
      simp only [String.toList_append, List.append_assoc]
      rfl

/-- The text of a term is a layout of its tokens. -/
theorem tight_text (t : Term) : Tight t.written.tokens t.text.toList := by
  rw [toList_text]
  exact tight_flatten _

/-- Terms whose names have the forms of the grammar are known by their texts. -/
theorem eq_of_text_eq {t u : Term} (ht : t.Lexical) (hu : u.Lexical) (h : t.text = u.text) :
    t = u := by
  refine written_inj ?_
  rw [← t.unplaced_written, ← u.unplaced_written]
  refine WrittenTerm.unplaced_eq_of_tight ht.written hu.written t.tight_text ?_
  rw [h]
  exact u.tight_text

end Term

namespace Syntax

/-! ## What written terms stand for -/

/-- Digits are read as the integer that they denote, if it fits in 64 bits. -/
theorem resolveInteger_eq_ok_iff {o : Nat} {negative : Bool} {ds : List Char} {n : Int} :
    resolveInteger o negative ds = .ok n ↔
      Time.Fits n ∧ n = if negative then -(Decimal.ofDigits ds : Int) else Decimal.ofDigits ds := by
  have hleast : Time.least ≤ 0 := by decide
  have hgreatest : 0 ≤ Time.greatest := by decide
  have hok {outside : Prop} [Decidable outside] {e : Fault} {m : Int} :
      (if outside then .error e else .ok m : Except Fault Int) = .ok n ↔ ¬outside ∧ m = n := by
    by_cases h : outside <;> simp [h]
  unfold resolveInteger Time.Fits
  -- magnitudes are not negative, so the sign says which of the two bounds an integer can miss
  cases negative with
  | true =>
    simp only [if_true, hok]
    constructor
    · rintro ⟨h, rfl⟩
      exact ⟨⟨by omega, by omega⟩, rfl⟩
    · rintro ⟨⟨h, -⟩, rfl⟩
      exact ⟨by omega, rfl⟩
  | false =>
    simp only [Bool.false_eq_true, if_false, hok]
    constructor
    · rintro ⟨h, rfl⟩
      exact ⟨⟨by omega, by omega⟩, rfl⟩
    · rintro ⟨⟨-, h⟩, rfl⟩
      exact ⟨by omega, rfl⟩

/-- What a term is written as stands for this term, if its variables have names and its integers are
timestamps. -/
theorem value?_written {t : Term} (hv : ∀ x ∈ t.occurrences, x ≠ "_")
    (hi : ∀ n ∈ t.integers, Time.Fits n) (count : Nat) :
    value? t.written.resolve count = some (t, count) := by
  induction t generalizing count with
  | var x =>
    rw [Term.written, WrittenTerm.value?_resolve_var, if_neg (hv x (by simp [Term.occurrences]))]
  | int n =>
    have hn : resolveInteger 0 (decide (n < 0)) (Nat.toDigits 10 n.natAbs) = .ok n := by
      rw [resolveInteger_eq_ok_iff, ofDigits_toDigits]
      refine ⟨hi n (by simp [Term.integers]), ?_⟩
      by_cases h : n < 0
      · rw [if_pos (by simpa using h)]
        omega
      · rw [if_neg (by simpa using h)]
        omega
    rw [Term.written, WrittenTerm.value?_resolve_integer, hn]
    rfl
  | compound f ts ih =>
    simp only [Term.occurrences, Term.allOccurrences_eq_flatMap, List.mem_flatMap] at hv
    simp only [Term.integers, Term.allIntegers_eq_flatMap, List.mem_flatMap] at hi
    have hts : value? (WrittenTerm.resolveAll (ts.map Term.written)) count = some (ts, count) :=
      WrittenTerm.resolvesAll.value?_map_eq_some (fun u hu => ih u hu
        (fun x hx => hv x ⟨u, hu, hx⟩) (fun n hn => hi n ⟨u, hu, hn⟩)) count
    rw [Term.written, Term.writtenAll_eq_map, WrittenTerm.value?_resolve_compound, hts]
    rfl

/-- The names that underscores get are names of variables. -/
theorem isVariable_fresh (n : Nat) : IsVariable ("_G" ++ toString n).toList := by
  refine ⟨'_', 'G' :: Nat.toDigits 10 n, ?_, by decide, ?_⟩
  · rw [String.toList_append, Nat.toString_eq_repr, Nat.toList_repr]
    rfl
  · rw [List.all_cons, Bool.and_eq_true]
    refine ⟨by decide, List.all_eq_true.2 fun c hc => ?_⟩
    have hd := Nat.isDigit_of_mem_toDigits (by decide) (Nat.le_refl 10) hc
    exact isNameChar_iff.2 (.inl (.inr hd))

/-- The term that a written term stands for has names of the forms of the grammar, and its integers are
timestamps. -/
theorem WrittenTerm.readable_of_value? {w : WrittenTerm} (h : w.Lexical) {count n : Nat} {t : Term}
    (hv : value? w.resolve count = some (t, n)) : t.Readable := by
  induction w generalizing count n t with
  | var x =>
    rw [value?_resolve_var, Option.some.injEq] at hv
    split at hv
    · obtain rfl := congrArg Prod.fst hv
      exact ⟨isVariable_fresh _, by simp [Term.integers]⟩
    · obtain rfl := congrArg Prod.fst hv
      exact ⟨h, by simp [Term.integers]⟩
  | integer o negative ds =>
    rw [value?_resolve_integer, Option.map_eq_some_iff] at hv
    obtain ⟨k, hk, hkt⟩ := hv
    obtain rfl := congrArg Prod.fst hkt
    refine ⟨trivial, fun j hj => ?_⟩
    obtain rfl : j = k := by simpa [Term.integers] using hj
    exact (resolveInteger_eq_ok_iff.1 (eq_ok_of_toOption hk)).1
  | compound f ts ih =>
    obtain ⟨hf, hts⟩ := h
    rw [allLexical_iff] at hts
    rw [value?_resolve_compound, Option.map_eq_some_iff] at hv
    obtain ⟨r, hr, hkt⟩ := hv
    obtain rfl := congrArg Prod.fst hkt
    have hall : ∀ u ∈ r.1, u.Readable :=
      resolvesAll.forall_mem (fun t ht _ _ hu => ih t ht (hts t ht) hu) hr
    refine ⟨⟨hf, Term.allLexical_iff.2 fun u hu => (hall u hu).lexical⟩, fun k hk => ?_⟩
    simp only [Term.integers, Term.allIntegers_eq_flatMap, List.mem_flatMap] at hk
    obtain ⟨u, hu, hk⟩ := hk
    exact (hall u hu).fits k hk

end Syntax

end TimedInference
