import Mathlib.Data.List.Nodup
import TimedInference.Proofs.Cache.Outcomes
import TimedInference.Proofs.Log.Success

/-!
# The entries of a cache

A cache is built from queries, of which several may be of one family.  The first query of each family is
compiled (`Query.find?_splitRepeats`), and its entry answers the family: the entry of a name is the one
that is compiled for the first query with this name (`Cache.getElem?_entries_eq_some_iff`).
-/

namespace TimedInference

/-! ## Queries of different families -/

namespace Query

/-- The queries that are kept are of different families, none of which was met before. -/
theorem nodup_splitRepeats (met : List String) (qs : List Query) :
    ((splitRepeats met qs).1.map identifier).Nodup ∧
      ∀ q ∈ (splitRepeats met qs).1, q.identifier ∉ met := by
  induction qs generalizing met with
  | nil => simp [splitRepeats]
  | cons q qs ih =>
    rw [splitRepeats]
    by_cases hq : q.identifier ∈ met
    · rw [if_pos (List.contains_iff_mem.2 hq)]
      exact ih met
    · rw [if_neg (mt List.contains_iff_mem.1 hq)]
      -- names met so far are left out later, this one included
      obtain ⟨hnodup, hmet⟩ := ih (q.identifier :: met)
      constructor
      · rw [List.map_cons, List.nodup_cons]
        refine ⟨fun hmem => ?_, hnodup⟩
        obtain ⟨q', hq', hid⟩ := List.mem_map.1 hmem
        exact hmet q' hq' (by simp [hid])
      · rw [List.forall_mem_cons]
        exact ⟨hq, fun q' hq' hmem => hmet q' hq' (List.mem_cons_of_mem _ hmem)⟩

/-- The first query of a family that was not met before is kept. -/
theorem find?_splitRepeats {met : List String} {id : String} (hid : id ∉ met) (qs : List Query) :
    (splitRepeats met qs).1.find? (·.identifier = id) = qs.find? (·.identifier = id) := by
  induction qs generalizing met with
  | nil => simp [splitRepeats]
  | cons q qs ih =>
    rw [splitRepeats]
    by_cases hq : q.identifier ∈ met
    · have hne : q.identifier ≠ id := fun heq => hid (heq ▸ hq)
      rw [if_pos (List.contains_iff_mem.2 hq), List.find?_cons_of_neg (by simpa using hne)]
      exact ih hid
    · rw [if_neg (mt List.contains_iff_mem.1 hq)]
      by_cases heq : q.identifier = id
      · rw [List.find?_cons_of_pos (by simpa using heq), List.find?_cons_of_pos (by simpa using heq)]
      · rw [List.find?_cons_of_neg (by simpa using heq), List.find?_cons_of_neg (by simpa using heq)]
        refine ih ?_
        rw [List.mem_cons, not_or]
        exact ⟨Ne.symm heq, hid⟩

/-- A query is kept when it is the first of its family. -/
theorem mem_splitRepeats_iff {qs : List Query} {q : Query} :
    q ∈ (splitRepeats [] qs).1 ↔ qs.find? (·.identifier = q.identifier) = some q := by
  rw [← find?_splitRepeats List.not_mem_nil]
  constructor
  · intro hq
    obtain ⟨q', hq'⟩ : ∃ q', (splitRepeats [] qs).1.find? (·.identifier = q.identifier) = some q' :=
      Option.isSome_iff_exists.1 (List.find?_isSome.2 ⟨q, hq, by simp⟩)
    have hid : q'.identifier = q.identifier := by simpa using List.find?_some hq'
    have hsame : q' = q :=
      List.inj_on_of_nodup_map (nodup_splitRepeats [] qs).1 (List.mem_of_find?_eq_some hq') hq hid
    rw [hq', hsame]
  · exact List.mem_of_find?_eq_some

end Query

/-! ## Entries by name -/

variable {α : Type} [Probability α]

/-- An entry is of the query that it is compiled for. -/
theorem Entry.identifier_of_compile {engine : Engine α} {warnUnbound : Bool} {program : String}
    {declarations : List (Event α)} {query : Query} {e : Entry α}
    (h : (compile engine warnUnbound program declarations query).outcome = .ok e) :
    e.identifier = query.identifier ∧ e.base = query.time := by
  rw [outcome_compile] at h
  obtain ⟨c, -, rfl⟩ := map_eq_ok.1 h
  exact ⟨rfl, rfl⟩

/-- The entry of a name is the one that is compiled for the first query with this name. -/
theorem Cache.getElem?_entries_eq_some_iff {engine : Engine α} {warnUnbound : Bool}
    {declarations : List (Event α)} {queries : List Query} {program : String} {c : Cache α}
    (h : (build engine warnUnbound declarations queries program).outcome = .ok c) {id : String}
    {e : Entry α} :
    c.entries[id]? = some e ↔ ∃ q, queries.find? (·.identifier = id) = some q ∧
      (Entry.compile engine warnUnbound program declarations q).outcome = .ok e := by
  rw [outcome_build, map_eq_ok] at h
  obtain ⟨entries, hentries, rfl⟩ := h
  have hidentifiers : entries.map Entry.identifier =
      (Query.splitRepeats [] queries).1.map Query.identifier := by
    rw [← List.forall₂_eq_eq_eq, List.forall₂_map_left_iff, List.forall₂_map_right_iff]
    refine (List.Forall₂.flip (mapM_eq_ok_iff.1 hentries)).imp fun e q he => ?_
    exact (Entry.identifier_of_compile he).1
  have hnodup : (entries.map Entry.identifier).Nodup := by
    rw [hidentifiers]
    exact (Query.nodup_splitRepeats [] queries).1
  -- names that differ keep their entries, so the table has every entry under its name
  have hmap {e : Entry α} (he : e ∈ entries) :
      (Std.ExtTreeMap.ofList (entries.map fun e => (e.identifier, e)) :
        Std.ExtTreeMap String (Entry α))[e.identifier]? = some e := by
    refine Std.ExtTreeMap.getElem?_ofList_of_mem Std.ReflCmp.compare_self ?_
      (List.mem_map.2 ⟨e, he, rfl⟩)
    rw [List.pairwise_map]
    refine (List.pairwise_map.1 hnodup).imp fun hne => ?_
    simpa using hne
  constructor
  · intro he
    have hid : id ∈ entries.map Entry.identifier := by
      have hmem : id ∈ (Std.ExtTreeMap.ofList (entries.map fun e => (e.identifier, e)) :
          Std.ExtTreeMap String (Entry α)) :=
        Std.ExtTreeMap.mem_iff_isSome_getElem?.2 (by rw [he]; rfl)
      rw [Std.ExtTreeMap.mem_ofList, List.contains_iff_mem, List.map_map] at hmem
      exact hmem
    obtain ⟨e', he', rfl⟩ := List.mem_map.1 hid
    obtain rfl := Option.some.inj ((hmap he').symm.trans he)
    obtain ⟨q, hq, hcompile⟩ := exists_of_mem_mapM hentries he'
    rw [(Entry.identifier_of_compile hcompile).1]
    exact ⟨q, Query.mem_splitRepeats_iff.1 hq, hcompile⟩
  · rintro ⟨q, hq, hcompile⟩
    have hid : q.identifier = id := by simpa using List.find?_some hq
    subst hid
    obtain ⟨e', he', hcompile'⟩ := exists_result_of_mem_mapM hentries (Query.mem_splitRepeats_iff.2 hq)
    obtain rfl := Except.ok.inj (hcompile.symm.trans hcompile')
    rw [← (Entry.identifier_of_compile hcompile).1]
    exact hmap he'

end TimedInference
