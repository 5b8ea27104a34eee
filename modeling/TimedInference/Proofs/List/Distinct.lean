import Mathlib.Data.List.Pairwise

/-!
# Lists without repetitions

Leaving out what is equivalent to an earlier member keeps no two equivalent members
(`pairwise_eraseDupsBy`) and one for each that is left out (`exists_mem_eraseDupsBy`), and it commutes
with every function that keeps the equivalence (`eraseDupsBy_map`).
-/

namespace TimedInference

variable {α β : Type}

/-- What is kept was there. -/
theorem mem_of_mem_eraseDupsBy {r : α → α → Bool} {a : α} :
    ∀ {as : List α}, a ∈ as.eraseDupsBy r → a ∈ as
  | [], h => h
  | b :: as, h => by
    rw [List.eraseDupsBy_cons, List.mem_cons] at h
    rcases h with rfl | h
    · exact List.mem_cons_self
    · exact List.mem_cons_of_mem b (List.mem_filter.1 (mem_of_mem_eraseDupsBy h)).1
termination_by as => as.length
decreasing_by exact Nat.lt_succ_of_le (List.length_filter_le _ _)

/-- No member that is kept is equivalent to an earlier one. -/
theorem pairwise_eraseDupsBy (r : α → α → Bool) :
    ∀ as : List α, (as.eraseDupsBy r).Pairwise fun a b => r b a = false
  | [] => List.Pairwise.nil
  | a :: as => by
    rw [List.eraseDupsBy_cons, List.pairwise_cons]
    refine ⟨fun b hb => ?_, pairwise_eraseDupsBy r (as.filter fun b => r b a = false)⟩
    simpa using (List.mem_filter.1 (mem_of_mem_eraseDupsBy hb)).2
termination_by as => as.length
decreasing_by exact Nat.lt_succ_of_le (List.length_filter_le _ _)

/-- A member that is kept is equivalent to each member. -/
theorem exists_mem_eraseDupsBy {r : α → α → Bool} {a : α} (hr : r a a = true) :
    ∀ {as : List α}, a ∈ as → ∃ b ∈ as.eraseDupsBy r, r a b = true
  | b :: as, h => by
    rw [List.eraseDupsBy_cons]
    cases hab : r a b with
    | true => exact ⟨b, List.mem_cons_self, hab⟩
    | false =>
      have hne : a ≠ b := by
        rintro rfl
        simp [hr] at hab
      have hm : a ∈ as.filter fun c => r c b = false :=
        List.mem_filter.2 ⟨(List.mem_cons.1 h).resolve_left hne, by simpa using hab⟩
      -- the first member does not stand for it, so it is among those that are left
      obtain ⟨c, hc, hac⟩ := exists_mem_eraseDupsBy hr hm
      exact ⟨c, List.mem_cons_of_mem b hc, hac⟩
termination_by as => as.length
decreasing_by exact Nat.lt_succ_of_le (List.length_filter_le _ _)

/-- Nothing is left out of a list without equivalent members. -/
theorem eraseDupsBy_eq_self {r : α → α → Bool} {as : List α}
    (h : as.Pairwise fun a b => r b a = false) : as.eraseDupsBy r = as := by
  induction as with
  | nil => rfl
  | cons a as ih =>
    rw [List.pairwise_cons] at h
    have hfilter : as.filter (fun b => r b a = false) = as :=
      List.filter_eq_self.2 fun b hb => by simpa using h.1 b hb
    rw [List.eraseDupsBy_cons, hfilter, ih h.2]

/-- Nothing is kept twice. -/
theorem nodup_eraseDups [BEq α] [LawfulBEq α] (as : List α) : as.eraseDups.Nodup := by
  refine (pairwise_eraseDupsBy (· == ·) as).imp ?_
  rintro a b h rfl
  simp at h

/-- A function that keeps the equivalence takes the members that are kept to those that are kept. -/
theorem eraseDupsBy_map {r : α → α → Bool} {r' : β → β → Bool} {f : α → β} :
    ∀ {as : List α}, (∀ a ∈ as, ∀ b ∈ as, r' (f a) (f b) = r a b) →
      (as.map f).eraseDupsBy r' = (as.eraseDupsBy r).map f
  | [], _ => rfl
  | a :: as, h => by
    have hfilter : (as.map f).filter (fun b => r' b (f a) = false) =
        (as.filter fun b => r b a = false).map f := by
      rw [List.filter_map]
      refine congrArg (List.map f) (List.filter_congr fun b hb => ?_)
      simp only [Function.comp, h b (List.mem_cons_of_mem a hb) a List.mem_cons_self]
    rw [List.map_cons, List.eraseDupsBy_cons, List.eraseDupsBy_cons, List.map_cons, hfilter,
      eraseDupsBy_map fun b hb c hc => h b (List.mem_cons_of_mem a (List.mem_filter.1 hb).1) c
        (List.mem_cons_of_mem a (List.mem_filter.1 hc).1)]
termination_by as => as.length
decreasing_by exact Nat.lt_succ_of_le (List.length_filter_le _ _)

/-- An injective function may be applied before or after. -/
theorem eraseDups_map [BEq α] [LawfulBEq α] [BEq β] [LawfulBEq β] {f : α → β}
    (hf : Function.Injective f) (as : List α) : (as.map f).eraseDups = as.eraseDups.map f :=
  eraseDupsBy_map fun a _ b _ => by
    rw [Bool.eq_iff_iff, beq_iff_eq, beq_iff_eq, hf.eq_iff]

end TimedInference
