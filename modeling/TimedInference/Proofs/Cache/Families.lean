import TimedInference.Number.Rational
import TimedInference.Proofs.Cache.Building
import TimedInference.Proofs.Cache.Reuse
import TimedInference.Proofs.Template.Families

/-!
# Families that share a name

A cache looks for the entry of a query by the name of the query's family.  The entry that it finds is
compiled for the first query of this name, and for the family of the asked query only if the two families
agree in all that their queries are written from (`Cache.entry_of_name`).
-/

namespace TimedInference

namespace Cache

variable {α : Type} [Probability α]

/-- The entry of a name is compiled for the first query of this name, at the time of the query.  A family of
the same name writes the same queries exactly when it has the same functor, the same texts of arguments and
the same position of the timestamp, and then the compiled query is its own.  Names without further
underscores leave only the position open. -/
theorem entry_of_name {engine : Engine α} {warnUnbound : Bool} {declarations : List (Event α)}
    {queries : List Query} {program : String} {c : Cache α}
    (h : (build engine warnUnbound declarations queries program).outcome = .ok c) {t : QueryTemplate}
    {e : Entry α} (he : c.entries[t.identifier]? = some e) :
    ∃ q, queries.find? (·.identifier = t.identifier) = some q ∧
      (Entry.compile engine warnUnbound program declarations q).outcome = .ok e ∧
      q.text = q.template.render e.base ∧
      ((∀ time, Time.Fits time → q.template.render time = t.render time) ↔ q.template.Alike t) ∧
      (q.template.Alike t → q.text = t.render e.base) ∧
      (q.template.HasPlainName → t.HasPlainName → q.template.position = t.position →
        q.text = t.render e.base) := by
  -- the entry is that of the first query with the name, whatever its other texts are
  obtain ⟨q, hfirst, hcompile⟩ := (getElem?_entries_eq_some_iff h).1 he
  have hname : q.identifier = t.identifier := by simpa using List.find?_some hfirst
  have htext : q.text = q.template.render e.base := by
    rw [(Entry.identifier_of_compile hcompile).2, Query.text]
  have halike (hq : q.template.Alike t) : q.text = t.render e.base := by
    rw [htext, hq.render_eq]
  exact ⟨q, hfirst, hcompile, htext, QueryTemplate.render_eq_iff hname, halike,
    fun hq ht hposition => halike (hq.alike ht hname hposition)⟩

/-- The game is compiled for its own query. -/
theorem entry_of_name_game :
    ∃ (c : Cache Rat) (e : Entry Rat) (q : Query),
      gameCache = .ok c ∧ c.entries[win.identifier]? = some e ∧
      [⟨win, 3⟩].find? (·.identifier = win.identifier) = some q ∧ q.text = win.render e.base := by
  obtain ⟨c, e, hc, he⟩ := exists_gameEntry
  obtain ⟨q, hfirst, -, -, -, -, hplain⟩ := entry_of_name hc he
  have hfound : [⟨win, 3⟩].find? (·.identifier = win.identifier) = some (⟨win, 3⟩ : Query) := by decide
  obtain rfl := Option.some.inj (hfound.symm.trans hfirst)
  exact ⟨c, e, _, hc, he, hfound, hplain (by decide) (by decide) rfl⟩

/-! ## Another position of the timestamp -/

/-- Tails of a coin. -/
def tails : FactTemplate := ⟨"tails", FactTemplate.defaultFormat⟩

/-- The family of queries `side(T, 1)`. -/
def sideFirst : QueryTemplate := ⟨"side", [.int 1], 0, none⟩

/-- The family of queries `side(1, T)`, which has the same name. -/
def sideLast : QueryTemplate := { sideFirst with timePosition := 1 }

/-- Two coins, one of which decides `side(T, 1)` and the other `side(1, T)`. -/
def twoCoins : String := "side(T,1) :- heads(T). side(1,T) :- tails(T)."

/-- The two coins at time 0. -/
def coinsAtZero : List (Event Rat) := [.declaration heads 0, .declaration tails 0]

/-- The coins are seen: heads with probability three quarters, tails with a quarter. -/
def seenCoins : List (Event Rat) :=
  [⟨heads, 0, 3 / 4, by decide +kernel⟩, ⟨tails, 0, 1 / 4, by decide +kernel⟩]

/-- A query for `side(1, 0)` finds the entry that is compiled for `side(0, 1)`, and is answered by it. -/
theorem entry_of_name_sideLast :
    ∃ (c : Cache Rat) (e : Entry Rat),
      (build (.ofKind .worlds 20 100) true coinsAtZero [⟨sideFirst, 0⟩] twoCoins).outcome = .ok c ∧
      c.entries[sideLast.identifier]? = some e ∧
      (Entry.compile (.ofKind .worlds 20 100) true twoCoins coinsAtZero ⟨sideFirst, 0⟩).outcome =
        .ok e ∧
      (⟨sideFirst, 0⟩ : Query).text ≠ sideLast.render e.base ∧
      (c.evaluate [⟨sideLast, 0⟩] seenCoins false).outcome.toOption.map (·.toList) =
        some [(.compound "side" [.int 0, .int 1], 3 / 4)] := by
  have hbuilt : ((build (.ofKind .worlds 20 100) true coinsAtZero [⟨sideFirst, 0⟩]
      twoCoins).outcome.toOption.bind fun c : Cache Rat =>
        c.entries[sideLast.identifier]?.map fun e => (e.base,
          (c.evaluate [⟨sideLast, 0⟩] seenCoins false).outcome.toOption.map (·.toList))) =
            some (0, some [(.compound "side" [.int 0, .int 1], 3 / 4)]) := by decide +kernel
  obtain ⟨c, hc, hentry⟩ := Option.bind_eq_some_iff.1 hbuilt
  obtain ⟨e, he, hpair⟩ := Option.map_eq_some_iff.1 hentry
  obtain ⟨hbase, hanswer⟩ := Prod.mk.inj hpair
  obtain ⟨q, hq, hcompile⟩ := (getElem?_entries_eq_some_iff (eq_ok_of_toOption hc)).1 he
  rw [List.find?_cons_of_pos (by decide)] at hq
  obtain rfl := Option.some.inj hq
  refine ⟨c, e, eq_ok_of_toOption hc, he, hcompile, ?_, hanswer⟩
  rw [hbase]
  decide

end Cache

end TimedInference
