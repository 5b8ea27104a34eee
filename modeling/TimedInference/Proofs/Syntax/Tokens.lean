import TimedInference.Proofs.Syntax.Layout

/-!
# The tokens of a program

Written terms, bodies and statements as the tokens that write them, and which of them the grammar can
give: names, digits and probabilities have their forms (`WrittenTerm.Lexical`), bodies nest as the grammar
nests them (`Formula.IsBody`), and what stands as a query cannot stand as anything else
(`Statement.Lexical`).
-/

namespace TimedInference.Syntax

/-! ## Characters -/

/-- The classes of letters and digits by their codes, with which they are told apart. -/
theorem isUpper_iff {c : Char} : c.isUpper = true ↔ 65 ≤ c.toNat ∧ c.toNat ≤ 90 := by
  show decide (c.val ≥ 'A'.val ∧ c.val ≤ 'Z'.val) = true ↔ _
  rw [decide_eq_true_eq, ge_iff_le, UInt32.le_iff_toNat_le, UInt32.le_iff_toNat_le]
  rfl

theorem isLower_iff {c : Char} : c.isLower = true ↔ 97 ≤ c.toNat ∧ c.toNat ≤ 122 := by
  show (decide (c.val ≥ 'a'.val) && decide (c.val ≤ 'z'.val)) = true ↔ _
  rw [Bool.and_eq_true, decide_eq_true_eq, decide_eq_true_eq, ge_iff_le, UInt32.le_iff_toNat_le,
    UInt32.le_iff_toNat_le]
  rfl

theorem isDigit_iff {c : Char} : c.isDigit = true ↔ 48 ≤ c.toNat ∧ c.toNat ≤ 57 := by
  show (decide (c.val ≥ '0'.val) && decide (c.val ≤ '9'.val)) = true ↔ _
  rw [Bool.and_eq_true, decide_eq_true_eq, decide_eq_true_eq, ge_iff_le, UInt32.le_iff_toNat_le,
    UInt32.le_iff_toNat_le]
  rfl

/-- Names are made of letters, digits and underscores. -/
theorem isNameChar_iff {c : Char} : isNameChar c = true ↔
    ((c.isUpper = true ∨ c.isLower = true) ∨ c.isDigit = true) ∨ c = '_' := by
  show (((c.isUpper || c.isLower) || c.isDigit) || decide (c = '_')) = true ↔ _
  rw [Bool.or_eq_true, Bool.or_eq_true, Bool.or_eq_true, decide_eq_true_eq]

/-! ## Forms of tokens -/

/-- A small letter and name characters. -/
def IsFunctor (cs : List Char) : Prop :=
  ∃ c name, cs = c :: name ∧ c.isLower = true ∧ name.all isNameChar = true

/-- A capital letter or an underscore, and name characters. -/
def IsVariable (cs : List Char) : Prop :=
  ∃ c name, cs = c :: name ∧ (c.isUpper || c = '_') = true ∧ name.all isNameChar = true

/-- One digit or more. -/
def IsDigits (cs : List Char) : Prop := cs ≠ [] ∧ cs.all Char.isDigit = true

/-- Nothing, or a point and digits. -/
def IsFraction (cs : List Char) : Prop := cs = [] ∨ ∃ ds, cs = '.' :: ds ∧ IsDigits ds

/-- Nothing, or a letter `e`, perhaps a sign, and digits. -/
def IsExponent (cs : List Char) : Prop :=
  cs = [] ∨ ∃ e sign ds, cs = e :: (sign ++ ds) ∧ (e = 'e' ∨ e = 'E') ∧
    (sign = [] ∨ sign = ['+'] ∨ sign = ['-']) ∧ IsDigits ds

/-- Digits, a fraction and an exponent. -/
def IsProbability (cs : List Char) : Prop :=
  ∃ whole fraction exponent, cs = whole ++ fraction ++ exponent ∧ IsDigits whole ∧
    IsFraction fraction ∧ IsExponent exponent

/-! ## Terms -/

/-- The tokens that write the values of a list with a separator between them. -/
def separatedTokens {α : Type} (separator : String) (tokens : α → List Token) :
    List α → List Token
  | [] => []
  | a :: as => tokens a ++ as.flatMap fun b => separator.toList :: tokens b

namespace WrittenTerm

mutual

/-- The names and digits of a term have the forms of tokens. -/
def Lexical : WrittenTerm → Prop
  | var x => IsVariable x.toList
  | integer _ _ digits => IsDigits digits
  | compound f ts => IsFunctor f.toList ∧ AllLexical ts

/-- The names and digits of terms have the forms of tokens. -/
def AllLexical : List WrittenTerm → Prop
  | [] => True
  | t :: ts => t.Lexical ∧ AllLexical ts

end

/-- The arguments of a compound are lexical one by one. -/
theorem allLexical_iff {ts : List WrittenTerm} : AllLexical ts ↔ ∀ t ∈ ts, t.Lexical := by
  induction ts with
  | nil => simp [AllLexical]
  | cons t ts ih => rw [AllLexical, ih, List.forall_mem_cons]

mutual

/-- The tokens that write a term. -/
def tokens : WrittenTerm → List Token
  | var x => [x.toList]
  | integer _ negative digits => [if negative then '-' :: digits else digits]
  | compound f [] => [f.toList]
  | compound f (t :: ts) => f.toList :: ['('] :: (t.tokens ++ (moreTokens ts ++ [[')']]))

/-- The tokens that write further arguments, each after a comma. -/
def moreTokens : List WrittenTerm → List Token
  | [] => []
  | t :: ts => [','] :: (t.tokens ++ moreTokens ts)

end

theorem moreTokens_eq_flatMap (ts : List WrittenTerm) :
    moreTokens ts = ts.flatMap fun t => [','] :: t.tokens := by
  induction ts with
  | nil => rfl
  | cons t ts ih => rw [moreTokens, ih, List.flatMap_cons, List.cons_append]

/-- A compound with arguments writes its functor and, in parentheses, the arguments with commas between
them. -/
theorem tokens_compound_cons (f : String) (t : WrittenTerm) (ts : List WrittenTerm) :
    (compound f (t :: ts)).tokens =
      [f.toList] ++ (["(".toList] ++ (separatedTokens "," tokens (t :: ts) ++ [")".toList])) := by
  rw [tokens, moreTokens_eq_flatMap, ← List.append_assoc]
  rfl

theorem tokens_ne_nil (t : WrittenTerm) : t.tokens ≠ [] := by
  cases t with
  | compound f ts => cases ts <;> simp [tokens]
  | _ => simp [tokens]

end WrittenTerm

/-! ## Bodies -/

namespace Formula

mutual

/-- The tokens that write a part of a conjunction. -/
def tokens : Formula WrittenTerm → List Token
  | holds t => t.tokens
  | fails t => ['\\', '+'] :: t.tokens
  | every [] => []
  | every (f :: fs) => f.tokens ++ moreTokens [','] fs
  | some [] => []
  | some (f :: fs) => ['('] :: (f.tokens ++ (moreTokens [';'] fs ++ [[')']]))

/-- The tokens that write further parts, each after a separator. -/
def moreTokens (separator : Token) : List (Formula WrittenTerm) → List Token
  | [] => []
  | f :: fs => separator :: (f.tokens ++ moreTokens separator fs)

end

/-- The tokens that write a disjunction without parentheses. -/
def bodyTokens : Formula WrittenTerm → List Token
  | some (f :: fs) => f.tokens ++ moreTokens [';'] fs
  | f => f.tokens

theorem moreTokens_eq_flatMap (separator : Token) (fs : List (Formula WrittenTerm)) :
    moreTokens separator fs = fs.flatMap fun f => separator :: f.tokens := by
  induction fs with
  | nil => rfl
  | cons f fs ih => rw [moreTokens, ih, List.flatMap_cons, List.cons_append]

/-- A conjunction writes its parts with commas between them. -/
theorem tokens_every (fs : List (Formula WrittenTerm)) :
    (every fs).tokens = separatedTokens "," tokens fs := by
  cases fs with
  | nil => rfl
  | cons f fs =>
    rw [tokens, moreTokens_eq_flatMap]
    rfl

/-- A body writes its alternatives with semicolons between them. -/
theorem bodyTokens_some (fs : List (Formula WrittenTerm)) :
    (some fs).bodyTokens = separatedTokens ";" tokens fs := by
  cases fs with
  | nil => rfl
  | cons f fs =>
    rw [bodyTokens, moreTokens_eq_flatMap]
    rfl

/-- Within a conjunction a disjunction stands in parentheses. -/
theorem tokens_some {fs : List (Formula WrittenTerm)} (hne : fs ≠ []) :
    (some fs).tokens = ["(".toList] ++ ((some fs).bodyTokens ++ [")".toList]) := by
  obtain ⟨f, fs, rfl⟩ := List.exists_cons_of_ne_nil hne
  rw [tokens, bodyTokens, ← List.append_assoc]
  rfl

mutual

/-- A part of a conjunction: a literal, or a disjunction in parentheses. -/
def IsConjunct : Formula WrittenTerm → Prop
  | holds t => t.Lexical
  | fails t => t.Lexical
  | every _ => False
  | some fs => fs ≠ [] ∧ AreConjunctions fs

/-- A conjunction of at least one part. -/
def IsConjunction : Formula WrittenTerm → Prop
  | every fs => fs ≠ [] ∧ AreConjuncts fs
  | _ => False

/-- Parts of a conjunction. -/
def AreConjuncts : List (Formula WrittenTerm) → Prop
  | [] => True
  | f :: fs => f.IsConjunct ∧ AreConjuncts fs

/-- Conjunctions. -/
def AreConjunctions : List (Formula WrittenTerm) → Prop
  | [] => True
  | f :: fs => f.IsConjunction ∧ AreConjunctions fs

end

theorem areConjuncts_iff {fs : List (Formula WrittenTerm)} :
    AreConjuncts fs ↔ ∀ f ∈ fs, f.IsConjunct := by
  induction fs with
  | nil => simp [AreConjuncts]
  | cons f fs ih => rw [AreConjuncts, ih, List.forall_mem_cons]

theorem areConjunctions_iff {fs : List (Formula WrittenTerm)} :
    AreConjunctions fs ↔ ∀ f ∈ fs, f.IsConjunction := by
  induction fs with
  | nil => simp [AreConjunctions]
  | cons f fs ih => rw [AreConjunctions, ih, List.forall_mem_cons]

/-- A disjunction of conjunctions. -/
def IsBody : Formula WrittenTerm → Prop
  | some fs => fs ≠ [] ∧ AreConjunctions fs
  | _ => False

/-- In parentheses a body is a conjunct. -/
theorem IsBody.isConjunct {f : Formula WrittenTerm} (h : f.IsBody) : f.IsConjunct := by
  cases f with
  | some fs => exact h
  | _ => exact absurd h id

end Formula

/-! ## Statements -/

namespace Statement

/-- The tokens that write a statement without the point at its end. -/
def words : Statement → List Token
  | query t => "query".toList :: ['('] :: (t.tokens ++ [[')']])
  | chance p h => p :: "::".toList :: h.term.tokens
  | rule h body => h.term.tokens ++ ":-".toList :: body.bodyTokens
  | fact h => h.term.tokens

/-- The tokens that write a statement. -/
def tokens (s : Statement) : List Token := s.words ++ [['.']]

/-- A term that is read as a query when it stands in front. -/
def IsQuery : WrittenTerm → Prop
  | .compound f [_] => f = "query"
  | _ => False

/-- The parts of a statement have the forms that the grammar gives them. -/
def Lexical : Statement → Prop
  | query t => t.Lexical
  | chance p h => IsProbability p ∧ h.term.Lexical
  | rule h body => h.term.Lexical ∧ ¬ IsQuery h.term ∧ body.IsBody
  | fact h => h.term.Lexical ∧ ¬ IsQuery h.term

/-- The heads of clauses are compounds. -/
def HasCompoundHead : Statement → Prop
  | query _ => True
  | chance _ h => ∃ f ts, h.term = .compound f ts
  | rule h _ => ∃ f ts, h.term = .compound f ts
  | fact h => ∃ f ts, h.term = .compound f ts

end Statement

/-! ## What tokens look like -/

/-- The tokens of terms and bodies. -/
inductive IsPart : Token → Prop where
  | functor {t : Token} (h : IsFunctor t) : IsPart t
  | var {t : Token} (h : IsVariable t) : IsPart t
  | digits {t : Token} (h : IsDigits t) : IsPart t
  | negative {t : Token} (h : IsDigits t) : IsPart ('-' :: t)
  | open : IsPart ['(']
  | close : IsPart [')']
  | comma : IsPart [',']
  | semicolon : IsPart [';']
  | negation : IsPart ['\\', '+']

/-- A list writes the tokens of its members and the separator. -/
theorem isPart_of_mem_separatedTokens {α : Type} (separator : String)
    (hs : IsPart separator.toList) {tokens : α → List Token} {as : List α}
    (h : ∀ a ∈ as, ∀ tok ∈ tokens a, IsPart tok) {tok : Token}
    (hm : tok ∈ separatedTokens separator tokens as) : IsPart tok := by
  cases as with
  | nil => simp [separatedTokens] at hm
  | cons a as =>
    simp only [separatedTokens, List.mem_append, List.mem_flatMap, List.mem_cons] at hm
    rcases hm with hm | ⟨b, hb, rfl | hm⟩
    · exact h a (by simp) tok hm
    · exact hs
    · exact h b (by simp [hb]) tok hm

/-- The tokens of a lexical term have the forms of parts. -/
theorem WrittenTerm.isPart_of_mem_tokens {t : WrittenTerm} (h : t.Lexical) :
    ∀ tok ∈ t.tokens, IsPart tok := by
  induction t with
  | var x =>
    intro tok hm
    rw [List.mem_singleton.1 hm]
    exact .var h
  | integer o negative digits =>
    intro tok hm
    rw [List.mem_singleton.1 hm]
    split
    · exact .negative h
    · exact .digits h
  | compound f ts ih =>
    obtain ⟨hf, hts⟩ := h
    rw [allLexical_iff] at hts
    cases ts with
    | nil =>
      intro tok hm
      rw [List.mem_singleton.1 hm]
      exact .functor hf
    | cons t ts =>
      rw [tokens_compound_cons]
      simp only [List.mem_append, List.mem_singleton]
      rintro tok (rfl | rfl | hm | rfl)
      · exact .functor hf
      · exact .open
      · exact isPart_of_mem_separatedTokens "," .comma (fun u hu => ih u hu (hts u hu)) hm
      · exact .close

namespace Formula

/-- The tokens of a lexical conjunct or conjunction have the forms of parts. -/
theorem isPart_of_mem_tokens {f : Formula WrittenTerm} (h : f.IsConjunct ∨ f.IsConjunction) :
    ∀ tok ∈ f.tokens, IsPart tok := by
  -- conjuncts hold conjunctions and conjunctions conjuncts, so one induction is about both
  induction f with
  | holds t =>
    rcases h with h | h
    · exact WrittenTerm.isPart_of_mem_tokens h
    · exact absurd h id
  | fails t =>
    rcases h with h | h
    · rintro tok (_ | ⟨_, hm⟩)
      · exact .negation
      · exact WrittenTerm.isPart_of_mem_tokens h tok hm
    · exact absurd h id
  | every fs ih =>
    rcases h with h | h
    · exact absurd h id
    · have hc := areConjuncts_iff.1 h.2
      rw [tokens_every]
      exact fun tok => isPart_of_mem_separatedTokens "," .comma fun f hf => ih f hf (.inl (hc f hf))
  | some fs ih =>
    rcases h with h | h
    · have hc := areConjunctions_iff.1 h.2
      rw [tokens_some h.1, bodyTokens_some]
      simp only [List.mem_append, List.mem_singleton]
      rintro tok (rfl | hm | rfl)
      · exact .open
      · exact isPart_of_mem_separatedTokens ";" .semicolon (fun f hf => ih f hf (.inr (hc f hf))) hm
      · exact .close
    · exact absurd h id

/-- The tokens of a body have the forms of parts. -/
theorem isPart_of_mem_bodyTokens {f : Formula WrittenTerm} (h : f.IsBody) :
    ∀ tok ∈ f.bodyTokens, IsPart tok := by
  cases f with
  | some fs =>
    rw [bodyTokens_some]
    exact fun tok => isPart_of_mem_separatedTokens ";" .semicolon fun g hg =>
      isPart_of_mem_tokens (.inr (areConjunctions_iff.1 h.2 g hg))
  | _ => exact absurd h id

/-- Every conjunct writes a token. -/
theorem tokens_ne_nil_of_isConjunct {f : Formula WrittenTerm} (h : f.IsConjunct) :
    f.tokens ≠ [] := by
  cases f with
  | holds t => exact t.tokens_ne_nil
  | fails t => simp [tokens]
  | every fs => exact absurd h id
  | some fs =>
    obtain ⟨f, fs, rfl⟩ := List.exists_cons_of_ne_nil h.1
    simp [tokens]

/-- Every conjunction writes a token, as it has a first conjunct. -/
theorem tokens_ne_nil_of_isConjunction {f : Formula WrittenTerm} (h : f.IsConjunction) :
    f.tokens ≠ [] := by
  cases f with
  | every fs =>
    obtain ⟨f, fs, rfl⟩ := List.exists_cons_of_ne_nil h.1
    rw [tokens]
    exact List.append_ne_nil_of_left_ne_nil (tokens_ne_nil_of_isConjunct h.2.1) _
  | _ => exact absurd h id

/-- Every body writes a token, as it has a first alternative. -/
theorem bodyTokens_ne_nil {f : Formula WrittenTerm} (h : f.IsBody) : f.bodyTokens ≠ [] := by
  cases f with
  | some fs =>
    obtain ⟨f, fs, rfl⟩ := List.exists_cons_of_ne_nil h.1
    rw [bodyTokens]
    exact List.append_ne_nil_of_left_ne_nil (tokens_ne_nil_of_isConjunction h.2.1) _
  | _ => exact absurd h id

end Formula

/-- A token that has a character, and none that belongs to white space or begins a comment. -/
def Plain (t : Token) : Prop := t ≠ [] ∧ ∀ c ∈ t, isSpace c = false ∧ c ≠ '%'

/-- A class without white space and percent signs has plain characters only. -/
theorem plain_of_class {p : Char → Bool}
    (hp : (p ' ' || p '\t' || p '\r' || p '\n' || p '%') = false) {c : Char} (h : p c = true) :
    isSpace c = false ∧ c ≠ '%' := by
  simp only [Bool.or_eq_false_iff] at hp
  obtain ⟨⟨⟨⟨h₁, h₂⟩, h₃⟩, h₄⟩, h₅⟩ := hp
  constructor
  · simp only [isSpace, Bool.or_eq_false_iff, decide_eq_false_iff_not]
    refine ⟨⟨⟨?_, ?_⟩, ?_⟩, ?_⟩ <;> rintro rfl
    · simp [h₁] at h
    · simp [h₂] at h
    · simp [h₃] at h
    · simp [h₄] at h
  · rintro rfl
    simp [h₅] at h

/-- A character of one such class and characters of another make a plain token. -/
theorem Plain.cons {p q : Char → Bool} {c : Char} {cs : List Char}
    (hp : (p ' ' || p '\t' || p '\r' || p '\n' || p '%') = false) (hc : p c = true)
    (hq : (q ' ' || q '\t' || q '\r' || q '\n' || q '%') = false) (hcs : cs.all q = true) :
    Plain (c :: cs) := by
  refine ⟨by simp, fun x hx => ?_⟩
  rcases List.mem_cons.1 hx with rfl | hx
  · exact plain_of_class hp hc
  · exact plain_of_class hq (List.all_eq_true.1 hcs x hx)

theorem IsFunctor.plain {t : Token} (h : IsFunctor t) : Plain t := by
  obtain ⟨c, name, rfl, hc, hname⟩ := h
  exact .cons (by decide) hc (by decide) hname

theorem IsVariable.plain {t : Token} (h : IsVariable t) : Plain t := by
  obtain ⟨c, name, rfl, hc, hname⟩ := h
  exact .cons (p := fun c => c.isUpper || c = '_') (by decide) hc (by decide) hname

theorem IsDigits.plain {t : Token} (h : IsDigits t) : Plain t :=
  ⟨h.1, fun _ hx => plain_of_class (by decide) (List.all_eq_true.1 h.2 _ hx)⟩

/-- Plain tokens stay plain when they are put together. -/
theorem Plain.append {t u : Token} (ht : Plain t) (hu : u = [] ∨ Plain u) : Plain (t ++ u) := by
  refine ⟨List.append_ne_nil_of_left_ne_nil ht.1 u, fun x hx => ?_⟩
  rcases List.mem_append.1 hx with hx | hx
  · exact ht.2 x hx
  · rcases hu with rfl | hu
    · simp at hx
    · exact hu.2 x hx

/-- A character that is neither white space nor a percent sign is a plain token. -/
theorem plain_singleton {c : Char} (h : (isSpace c || c = '%') = false) : Plain [c] := by
  simp only [Bool.or_eq_false_iff, decide_eq_false_iff_not] at h
  refine ⟨by simp, fun x hx => ?_⟩
  rw [List.mem_singleton.1 hx]
  exact h

theorem plain_pair {c d : Char} (hc : (isSpace c || c = '%') = false)
    (hd : (isSpace d || d = '%') = false) : Plain [c, d] :=
  (plain_singleton hc).append (.inr (plain_singleton hd))

/-- A probability is plain, whether or not it has a fraction and an exponent. -/
theorem IsProbability.plain {t : Token} (h : IsProbability t) : Plain t := by
  obtain ⟨whole, fraction, exponent, rfl, hw, hf, he⟩ := h
  refine (hw.plain.append ?_).append ?_
  · rcases hf with rfl | ⟨ds, rfl, hd⟩
    · exact .inl rfl
    · exact .inr ((plain_singleton (c := '.') (by decide)).append (.inr hd.plain))
  · rcases he with rfl | ⟨e, sign, ds, rfl, he, hs, hd⟩
    · exact .inl rfl
    · have hsd : Plain (sign ++ ds) := by
        rcases hs with rfl | rfl | rfl
        · exact hd.plain
        · exact (plain_singleton (c := '+') (by decide)).append (.inr hd.plain)
        · exact (plain_singleton (c := '-') (by decide)).append (.inr hd.plain)
      refine .inr ((plain_singleton (c := e) ?_).append (.inr hsd))
      rcases he with rfl | rfl <;> decide

/-- The tokens of terms and bodies are plain. -/
theorem IsPart.plain {t : Token} (h : IsPart t) : Plain t := by
  cases h with
  | functor h => exact h.plain
  | var h => exact h.plain
  | digits h => exact h.plain
  | negative h => exact (plain_singleton (c := '-') (by decide)).append (.inr h.plain)
  | negation =>
    exact (plain_singleton (c := '\\') (by decide)).append (.inr (plain_singleton (by decide)))
  | _ => exact plain_singleton (by decide)

/-- No plain token goes over the end of a line. -/
theorem Plain.newline_not_mem {t : Token} (h : Plain t) : '\n' ∉ t :=
  fun hm => absurd (h.2 _ hm).1 (by decide)

/-- A text that begins with a token does not begin with white space or a comment. -/
theorem Plain.solid {t : Token} (h : Plain t) (rest : List Char) : Solid (t ++ rest) := by
  obtain ⟨c, cs, rfl⟩ := List.exists_cons_of_ne_nil h.1
  intro x hx
  obtain rfl : c = x := by simpa using hx
  exact h.2 c (by simp)

/-! ## Colons -/

/-- A text of characters of a class holds no other character. -/
theorem not_mem_of_all {p : Char → Bool} {cs : List Char} (h : cs.all p = true) {c : Char}
    (hc : p c = false) : c ∉ cs := by
  intro hm
  rw [List.all_eq_true.1 h c hm] at hc
  exact absurd hc (by decide)

/-- A name has no character of a class that has no small letters and no name characters. -/
theorem IsFunctor.not_mem {t : Token} (h : IsFunctor t) {c : Char}
    (hc : (c.isLower || isNameChar c) = false) : c ∉ t := by
  obtain ⟨x, name, rfl, hx, hname⟩ := h
  rw [Bool.or_eq_false_iff] at hc
  rw [List.mem_cons, not_or]
  refine ⟨?_, not_mem_of_all hname hc.2⟩
  rintro rfl
  rw [hx] at hc
  exact absurd hc.1 (by decide)

/-- Terms and bodies write no colon. -/
theorem IsPart.colon_not_mem {t : Token} (h : IsPart t) : ':' ∉ t := by
  cases h with
  | functor h => exact h.not_mem (by decide)
  | var h =>
    obtain ⟨x, name, rfl, hx, hname⟩ := h
    rw [List.mem_cons, not_or]
    refine ⟨?_, not_mem_of_all hname (by decide)⟩
    rintro rfl
    exact absurd hx (by decide)
  | digits h => exact not_mem_of_all h.2 (by decide)
  | negative h =>
    rw [List.mem_cons, not_or]
    exact ⟨by decide, not_mem_of_all h.2 (by decide)⟩
  | _ => decide

/-- Probabilities write no colon. -/
theorem IsProbability.colon_not_mem {t : Token} (h : IsProbability t) : ':' ∉ t := by
  have hdigits {ds : List Char} (hd : IsDigits ds) : ':' ∉ ds := not_mem_of_all hd.2 (by decide)
  obtain ⟨whole, fraction, exponent, rfl, hw, hf, he⟩ := h
  simp only [List.mem_append, not_or]
  refine ⟨⟨hdigits hw, ?_⟩, ?_⟩
  · rcases hf with rfl | ⟨ds, rfl, hd⟩
    · simp
    · rw [List.mem_cons, not_or]
      exact ⟨by decide, hdigits hd⟩
  · rcases he with rfl | ⟨e, sign, ds, rfl, he, hs, hd⟩
    · simp
    · simp only [List.mem_cons, List.mem_append, not_or]
      refine ⟨?_, ?_, hdigits hd⟩
      · rcases he with rfl | rfl <;> decide
      · rcases hs with rfl | rfl | rfl <;> decide

/-- The tokens of statements. -/
inductive IsToken : Token → Prop where
  | part {t : Token} (h : IsPart t) : IsToken t
  | probability {t : Token} (h : IsProbability t) : IsToken t
  | separator : IsToken "::".toList
  | neck : IsToken ":-".toList
  | point : IsToken ['.']

/-- The tokens of statements are plain. -/
theorem IsToken.plain {t : Token} (h : IsToken t) : Plain t := by
  cases h with
  | part h => exact h.plain
  | probability h => exact h.plain
  | separator => exact plain_pair (c := ':') (d := ':') (by decide) (by decide)
  | neck => exact plain_pair (c := ':') (d := '-') (by decide) (by decide)
  | point => exact plain_singleton (by decide)

/-- Only what separates a probability from its fact, or a head from its body, has a colon. -/
theorem IsToken.eq_of_colon_mem {t : Token} (h : IsToken t) (hc : ':' ∈ t) :
    t = "::".toList ∨ t = ":-".toList := by
  cases h with
  | part h => exact absurd hc h.colon_not_mem
  | probability h => exact absurd hc h.colon_not_mem
  | separator => exact .inl rfl
  | neck => exact .inr rfl
  | point => exact absurd hc (by decide)

namespace Statement

/-- Every statement writes something before its point. -/
theorem words_ne_nil (s : Statement) : s.words ≠ [] := by
  cases s with
  | rule h body => simp [words]
  | fact h => exact h.term.tokens_ne_nil
  | _ => simp [words]

theorem tokens_ne_nil (s : Statement) : s.tokens ≠ [] := by
  simp [tokens]

/-- A lexical statement writes tokens of statements only. -/
theorem isToken_of_mem_tokens {s : Statement} (h : s.Lexical) : ∀ tok ∈ s.tokens, IsToken tok := by
  have term {t : WrittenTerm} (ht : t.Lexical) {tok : Token} (hm : tok ∈ t.tokens) : IsToken tok :=
    .part (WrittenTerm.isPart_of_mem_tokens ht tok hm)
  intro tok hm
  rcases List.mem_append.1 hm with hm | hm
  · cases s with
    | query t =>
      simp only [words, List.mem_cons, List.mem_append, List.not_mem_nil, or_false] at hm
      rcases hm with rfl | rfl | hm | rfl
      · -- the word before a query's term has the form of a functor
        exact .part (.functor ⟨'q', "uery".toList, rfl, by decide, by decide⟩)
      · exact .part .open
      · exact term h hm
      · exact .part .close
    | chance p head =>
      simp only [words, List.mem_cons] at hm
      rcases hm with rfl | rfl | hm
      · exact .probability h.1
      · exact .separator
      · exact term h.2 hm
    | rule head body =>
      simp only [words, List.mem_cons, List.mem_append] at hm
      rcases hm with hm | rfl | hm
      · exact term h.1 hm
      · exact .neck
      · exact .part (Formula.isPart_of_mem_bodyTokens h.2.2 tok hm)
    | fact head => exact term h.1 hm
  · rw [List.mem_singleton.1 hm]
    exact .point

/-- A lexical statement writes plain tokens only. -/
theorem plain_of_mem_tokens {s : Statement} (h : s.Lexical) : ∀ tok ∈ s.tokens, Plain tok :=
  fun tok hm => (isToken_of_mem_tokens h tok hm).plain

end Statement

/-- The statements are laid out in a whole text. -/
def Writes (text : List Char) (statements : List Statement) : Prop :=
  LaidOut (statements.flatMap Statement.tokens) text ∧ ∀ s ∈ statements, s.Lexical

end TimedInference.Syntax
