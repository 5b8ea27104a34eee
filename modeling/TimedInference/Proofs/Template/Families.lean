import Mathlib.Data.List.InsertIdx
import TimedInference.Proofs.Syntax.Terms
import TimedInference.Template.Query

/-!
# Names of families

The name of a family of queries joins the functor and the texts of its arguments with underscores.  A
functor or an argument may hold an underscore itself, and where the timestamp stands is not part of the
name, so several families may share one.

Families that share a name write the same queries only if they agree in their functor, in the texts of
their arguments and in the position of the timestamp (`QueryTemplate.render_eq_iff`): where their parts
differ, the name goes on with an underscore but the query with a bracket, a comma or the timestamp
(`eq_of_append_eq`).  Names without further underscores can be split into their parts again, so only the
position is left open (`QueryTemplate.HasPlainName.alike`).
-/

namespace TimedInference

/-! ## Texts that go on differently -/

/-- Two texts that can be continued to the same text in two ways are equal, when the two continuations of
either begin with different characters. -/
theorem eq_of_append_eq {as bs xs ys xs' ys' : List Char} (h : as ++ xs = bs ++ ys)
    (h' : as ++ xs' = bs ++ ys') (hx : ∀ c, xs.head? = some c → xs'.head? ≠ some c)
    (hy : ∀ c, ys.head? = some c → ys'.head? ≠ some c) : as = bs := by
  induction as generalizing bs with
  | nil =>
    cases bs with
    | nil => rfl
    | cons b bs =>
      -- both continuations of the empty text would begin with the next character of the other
      rw [List.nil_append] at h h'
      exact absurd (by rw [h']; rfl) (hx b (by rw [h]; rfl))
  | cons a as ih =>
    cases bs with
    | nil =>
      rw [List.nil_append] at h h'
      exact absurd (by rw [← h']; rfl) (hy a (by rw [← h]; rfl))
    | cons b bs =>
      rw [List.cons_append, List.cons_append, List.cons.injEq] at h h'
      rw [h.1, ih h.2 h'.2]

theorem eq_of_head?_flatMap_cons {c d : Char} {parts : List (List Char)}
    (h : (parts.flatMap (c :: ·)).head? = some d) : d = c := by
  cases parts with
  | nil => simp at h
  | cons part parts => exact (Option.some.inj h).symm

/-- Two first parts are equal when names go on with an underscore and queries with a comma. -/
theorem eq_of_names_of_queries {as bs rest rest' : List Char} {names names' : List (List Char)}
    (hname : as ++ names.flatMap ('_' :: ·) = bs ++ names'.flatMap ('_' :: ·))
    (hquery : as ++ rest = bs ++ rest') (hrest : rest.head? ≠ some '_')
    (hrest' : rest'.head? ≠ some '_') : as = bs := by
  refine eq_of_append_eq hname hquery ?_ ?_
  · intro c hc
    rw [eq_of_head?_flatMap_cons hc]
    exact hrest
  · intro c hc
    rw [eq_of_head?_flatMap_cons hc]
    exact hrest'

/-- Lists of texts are equal that agree when joined by underscores, and when joined by commas before and
after some position. -/
theorem eq_of_joined_eq {as bs : List (List Char)} {p q : Nat} (hp : p ≤ as.length)
    (hq : q ≤ bs.length) (hname : as.flatMap ('_' :: ·) = bs.flatMap ('_' :: ·))
    (hbefore : (as.take p).flatMap (· ++ [',']) = (bs.take q).flatMap (· ++ [',']))
    (hafter : (as.drop p).flatMap (',' :: ·) = (bs.drop q).flatMap (',' :: ·)) :
    as = bs ∧ p = q := by
  induction as generalizing bs p q with
  | nil =>
    cases bs with
    | nil =>
      rw [List.length_nil, Nat.le_zero] at hp hq
      exact ⟨rfl, hp.trans hq.symm⟩
    | cons b bs => simp at hname
  | cons a as ih =>
    cases bs with
    | nil => simp at hname
    | cons b bs =>
      rw [List.flatMap_cons, List.flatMap_cons, List.cons_append, List.cons_append,
        List.cons.injEq] at hname
      replace hname := hname.2
      cases p with
      | zero =>
        cases q with
        | zero =>
          -- the first texts stand after the position
          simp only [List.drop_zero, List.flatMap_cons, List.cons_append, List.cons.injEq,
            true_and] at hafter
          obtain rfl : a = b := by
            refine eq_of_names_of_queries hname hafter ?_ ?_
            all_goals
              intro hc
              exact absurd (eq_of_head?_flatMap_cons hc) (by decide)
          obtain ⟨rfl, -⟩ := ih (Nat.zero_le _) (Nat.zero_le _) (List.append_cancel_left hname) rfl
            (List.append_cancel_left hafter)
          exact ⟨rfl, rfl⟩
        | succ q => simp at hbefore
      | succ p =>
        cases q with
        | zero => simp at hbefore
        | succ q =>
          -- the first texts stand before the position
          simp only [List.take_succ_cons, List.flatMap_cons, List.append_assoc] at hbefore
          obtain rfl : a = b := eq_of_names_of_queries hname hbefore (by simp) (by simp)
          obtain ⟨rfl, rfl⟩ := ih (Nat.le_of_succ_le_succ hp) (Nat.le_of_succ_le_succ hq)
            (List.append_cancel_left hname) (by simpa using hbefore) hafter
          exact ⟨rfl, rfl⟩

/-! ## Texts of queries -/

/-- The arguments of an atom are separated by commas. -/
theorem Term.toList_text_insertIdx (f : String) {us : List Term} {p : Nat} (hp : p ≤ us.length)
    (u : Term) :
    (compound f (us.insertIdx p u)).text.toList = f.toList ++ '(' ::
      (((us.map (·.text.toList)).take p).flatMap (· ++ [',']) ++ (u.text.toList ++
        (((us.map (·.text.toList)).drop p).flatMap (',' :: ·) ++ [')']))) := by
  have hargs : ∃ v vs, us.insertIdx p u = v :: vs ∧ v.text.toList ++ (restText vs).toList =
      ((us.map (·.text.toList)).take p).flatMap (· ++ [',']) ++ (u.text.toList ++
        ((us.map (·.text.toList)).drop p).flatMap (',' :: ·)) := by
    induction p generalizing us with
    | zero => exact ⟨u, us, List.insertIdx_zero, by rw [toList_restText]; rfl⟩
    | succ p ih =>
      cases us with
      | nil => simp at hp
      | cons w us =>
        obtain ⟨v, vs, hvs, htext⟩ := ih (Nat.le_of_succ_le_succ hp)
        refine ⟨w, v :: vs, by rw [List.insertIdx_succ_cons, hvs], ?_⟩
        rw [restText, String.toList_append, String.toList_append, List.append_assoc, htext]
        simp
  obtain ⟨v, vs, hvs, htext⟩ := hargs
  rw [hvs, text]
  simp only [String.toList_append, List.append_assoc]
  rw [← List.append_assoc v.text.toList, htext]
  simp

/-- Joined texts: the first one, and each further one after the separator. -/
theorem Text.toList_intercalate_cons (separator first : String) (rest : List String) :
    (String.intercalate separator (first :: rest)).toList =
      first.toList ++ rest.flatMap fun s => separator.toList ++ s.toList := by
  rw [String.toList_intercalate]
  induction rest generalizing first with
  | nil => simp
  | cons next rest ih =>
    rw [List.map_cons, List.map_cons, List.intercalate_cons_cons, ← List.map_cons, ih,
      List.flatMap_cons]
    simp only [List.append_assoc]

namespace QueryTemplate

/-- The texts of the arguments besides the timestamp. -/
def texts (t : QueryTemplate) : List (List Char) := t.args.map (·.text.toList)

/-- The identifier of a query is its functor and the texts of its arguments, joined by underscores. -/
theorem toList_identifier (t : QueryTemplate) :
    t.identifier.toList = t.functor.toList ++ t.texts.flatMap ('_' :: ·) := by
  rw [identifier, Text.toList_intercalate_cons, List.flatMap_map, texts, List.flatMap_map]
  rfl

/-- The text of a query before its timestamp. -/
def front (t : QueryTemplate) : List Char :=
  t.functor.toList ++ '(' :: (t.texts.take t.position).flatMap (· ++ [','])

/-- The text of a query after its timestamp. -/
def back (t : QueryTemplate) : List Char :=
  (t.texts.drop t.position).flatMap (',' :: ·) ++ [')']

/-- The text of a query has its time between what comes before it and after it. -/
theorem toList_render (t : QueryTemplate) (time : Int) :
    (t.render time).toList =
      "query(".toList ++ (t.front ++ ((toString time).toList ++ t.back) ++ ").".toList) := by
  rw [render, String.toList_append, String.toList_append, atom,
    Term.toList_text_insertIdx _ t.position_le]
  simp [front, back, texts, Term.text]

/-- Two families with the same functor, the same texts of arguments and the same position of the
timestamp. -/
structure Alike (t u : QueryTemplate) : Prop where
  functor_eq : t.functor = u.functor
  texts_eq : t.texts = u.texts
  position_eq : t.position = u.position

variable {t u : QueryTemplate}

/-- Queries that are alike have one text at each time. -/
theorem Alike.render_eq (h : t.Alike u) (time : Int) : t.render time = u.render time := by
  apply String.toList_inj.1
  rw [toList_render, toList_render, front, front, back, back, h.functor_eq, h.texts_eq,
    h.position_eq]

/-- Families of one name write the same queries exactly when they have the same functor, the same texts of
arguments and the same position of the timestamp. -/
theorem render_eq_iff (h : t.identifier = u.identifier) :
    (∀ time, Time.Fits time → t.render time = u.render time) ↔ t.Alike u := by
  constructor
  · intro hrender
    have htext (time : Int) (hfits : Time.Fits time) :
        t.front ++ ((toString time).toList ++ t.back) =
          u.front ++ ((toString time).toList ++ u.back) := by
      have hlist := congrArg String.toList (hrender time hfits)
      rw [toList_render, toList_render] at hlist
      exact List.append_cancel_right (List.append_cancel_left hlist)
    have hzero := htext 0 (by decide)
    have hone := htext 1 (by decide)
    -- the queries at two times differ only where the timestamp stands
    have hfront : t.front = u.front := by
      refine eq_of_append_eq hzero hone ?_ ?_
      all_goals
        intro c hc
        obtain rfl : c = '0' := (Option.some.inj hc).symm
        show (some '1' : Option Char) ≠ some '0'
        decide
    rw [hfront] at hzero
    have hback : t.back = u.back := List.append_cancel_left (List.append_cancel_left hzero)
    have hname := congrArg String.toList h
    rw [toList_identifier, toList_identifier] at hname
    have hfunctor : t.functor.toList = u.functor.toList :=
      eq_of_names_of_queries hname hfront (by simp) (by simp)
    rw [front, front, hfunctor, List.append_cancel_left_eq, List.cons.injEq] at hfront
    rw [hfunctor, List.append_cancel_left_eq] at hname
    have hposition (t : QueryTemplate) : t.position ≤ t.texts.length := by
      rw [texts, List.length_map]
      exact t.position_le
    obtain ⟨htexts, hposition⟩ := eq_of_joined_eq (hposition t) (hposition u) hname hfront.2
      (List.append_cancel_right hback)
    exact ⟨String.toList_inj.1 hfunctor, htexts, hposition⟩
  · exact fun halike time _ => halike.render_eq time

/-! ## Names that can be split -/

/-- A family whose functor and texts of arguments hold no underscore. -/
def HasPlainName (t : QueryTemplate) : Prop := ∀ part ∈ t.functor.toList :: t.texts, '_' ∉ part

instance (t : QueryTemplate) : Decidable t.HasPlainName :=
  inferInstanceAs (Decidable (∀ part ∈ _, _))

/-- A name whose parts hold no underscore splits into these parts. -/
theorem HasPlainName.splitOn (h : t.HasPlainName) :
    t.identifier.toList.splitOn '_' = t.functor.toList :: t.texts := by
  rw [identifier, String.toList_intercalate, List.map_cons, List.map_map]
  exact List.splitOn_intercalate '_' h (List.cons_ne_nil _ _)

/-- A name without further underscores leaves only the position of the timestamp open. -/
theorem HasPlainName.alike (ht : t.HasPlainName) (hu : u.HasPlainName)
    (h : t.identifier = u.identifier) (hposition : t.position = u.position) : t.Alike u := by
  have hparts : t.functor.toList :: t.texts = u.functor.toList :: u.texts := by
    rw [← ht.splitOn, ← hu.splitOn, h]
  obtain ⟨hfunctor, htexts⟩ := List.cons.inj hparts
  exact ⟨String.toList_inj.1 hfunctor, htexts, hposition⟩

end QueryTemplate

end TimedInference
