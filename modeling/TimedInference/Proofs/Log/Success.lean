import Mathlib.Data.List.Forall2

/-!
# Computations that succeed

When a computation is put together from others, it succeeds exactly when they do (`bind_eq_ok` and its
companions).  Along a list every element has its result (`mapM_eq_ok_iff`), and the first element that
fails decides the error (`mapM_eq_error`).  A fold keeps what each of its steps keeps (`foldlM_induction`).
-/

namespace TimedInference

variable {ε δ β γ : Type}

/-! ## Single computations -/

/-- A sequence succeeds when both its parts do. -/
theorem bind_eq_ok {x : Except ε β} {f : β → Except ε γ} {c : γ} :
    (x >>= f) = .ok c ↔ ∃ b, x = .ok b ∧ f b = .ok c := by
  cases x <;> simp [bind, Except.bind]

/-- A sequence fails in its first part or in its second one. -/
theorem bind_eq_error {x : Except ε β} {f : β → Except ε γ} {e : ε} :
    (x >>= f) = .error e ↔ x = .error e ∨ ∃ b, x = .ok b ∧ f b = .error e := by
  cases x <;> simp [bind, Except.bind]

theorem mapError_eq_ok {x : Except ε β} {f : ε → δ} {b : β} :
    x.mapError f = .ok b ↔ x = .ok b := by
  cases x <;> simp [Except.mapError]

theorem map_eq_ok {x : Except ε β} {f : β → γ} {c : γ} :
    x.map f = .ok c ↔ ∃ b, x = .ok b ∧ f b = c := by
  cases x <;> simp [Except.map]

/-- What has a result succeeds with it. -/
theorem eq_ok_of_toOption {x : Except ε β} {b : β} (h : x.toOption = some b) : x = .ok b := by
  cases x with
  | error e => simp [Except.toOption] at h
  | ok b' => exact congrArg Except.ok (Option.some.inj h)

/-! ## Computations along a list -/

/-- A check of every member passes when each member does. -/
theorem forM_eq_ok_iff {f : β → Except ε Unit} {bs : List β} :
    bs.forM f = .ok () ↔ ∀ b ∈ bs, f b = .ok () := by
  induction bs with
  | nil => simp [pure, Except.pure]
  | cons b bs ih =>
    have hcons : (b :: bs).forM f = f b >>= fun _ => bs.forM f := rfl
    rw [hcons, bind_eq_ok, List.forall_mem_cons, ih]
    constructor
    · rintro ⟨_, hb, hbs⟩
      exact ⟨hb, hbs⟩
    · rintro ⟨hb, hbs⟩
      exact ⟨(), hb, hbs⟩

/-- A computation for each member of a list succeeds when it does for each, in the order of the list. -/
theorem mapM_eq_ok_iff {f : β → Except ε γ} {bs : List β} {cs : List γ} :
    bs.mapM f = .ok cs ↔ List.Forall₂ (fun b c => f b = .ok c) bs cs := by
  induction bs generalizing cs with
  | nil =>
    rw [List.mapM_nil, List.forall₂_nil_left_iff]
    constructor
    · exact fun h => (Except.ok.inj h).symm
    · rintro rfl
      rfl
  | cons b bs ih =>
    simp only [List.mapM_cons, List.forall₂_cons_left_iff, bind_eq_ok, ih]
    constructor
    · rintro ⟨c, hc, ds, hds, hcs⟩
      exact ⟨c, ds, hc, hds, (Except.ok.inj hcs).symm⟩
    · rintro ⟨c, ds, hc, hds, rfl⟩
      exact ⟨c, hc, ds, hds, rfl⟩

theorem mapM_eq_ok_map {f : β → Except ε γ} {f' : β → γ} {bs : List β}
    (h : ∀ b ∈ bs, f b = .ok (f' b)) : bs.mapM f = .ok (bs.map f') := by
  rw [mapM_eq_ok_iff, List.forall₂_map_right_iff, List.forall₂_same]
  exact h

/-- Every member of a list has a counterpart in a related one. -/
theorem exists_of_mem_forall₂ {R : β → γ → Prop} {bs : List β} {cs : List γ}
    (h : List.Forall₂ R bs cs) {b : β} (hb : b ∈ bs) : ∃ c ∈ cs, R b c := by
  induction h with
  | nil => simp at hb
  | cons hc _ ih =>
    rcases List.mem_cons.1 hb with rfl | hb
    · exact ⟨_, List.mem_cons_self, hc⟩
    · obtain ⟨c, hmem, hc⟩ := ih hb
      exact ⟨c, List.mem_cons_of_mem _ hmem, hc⟩

/-- Every element of a list along which a computation succeeds has a result. -/
theorem exists_result_of_mem_mapM {f : β → Except ε γ} {bs : List β} {cs : List γ}
    (h : bs.mapM f = .ok cs) {b : β} (hb : b ∈ bs) : ∃ c ∈ cs, f b = .ok c :=
  exists_of_mem_forall₂ (mapM_eq_ok_iff.1 h) hb

/-- Every result of a computation along a list is that of an element. -/
theorem exists_of_mem_mapM {f : β → Except ε γ} {bs : List β} {cs : List γ}
    (h : bs.mapM f = .ok cs) {c : γ} (hc : c ∈ cs) : ∃ b ∈ bs, f b = .ok c :=
  exists_of_mem_forall₂ (mapM_eq_ok_iff.1 h).flip hc

/-- A computation along a list fails with the error of the first element that fails. -/
theorem mapM_eq_error {f : β → Except ε γ} {before after : List β} {b : β} {e : ε}
    (hbefore : ∀ a ∈ before, ∃ c, f a = .ok c) (hb : f b = .error e) :
    (before ++ b :: after).mapM f = .error e := by
  induction before with
  | nil =>
    rw [List.nil_append, List.mapM_cons, hb]
    rfl
  | cons a before ih =>
    rw [List.forall_mem_cons] at hbefore
    obtain ⟨⟨c, hc⟩, hbefore⟩ := hbefore
    rw [List.cons_append, List.mapM_cons, hc, ih hbefore]
    rfl

/-- What holds at the start of a fold and is kept by its steps holds of the result. -/
theorem foldlM_induction {f : γ → β → Except ε γ} {motive : γ → Prop} {bs : List β}
    (step : ∀ b ∈ bs, ∀ c c', motive c → f c b = .ok c' → motive c') {c c' : γ} (start : motive c)
    (h : bs.foldlM f c = .ok c') : motive c' := by
  induction bs generalizing c with
  | nil =>
    obtain rfl : c = c' := Except.ok.inj h
    exact start
  | cons b bs ih =>
    rw [List.forall_mem_cons] at step
    rw [List.foldlM_cons] at h
    obtain ⟨d, hd, hrest⟩ := bind_eq_ok.1 h
    exact ih step.2 (step.1 c d start hd) hrest

/-- A fold fails with the error of one of its steps. -/
theorem exists_of_foldlM_eq_error {f : γ → β → Except ε γ} {bs : List β} {c : γ} {e : ε}
    (h : bs.foldlM f c = .error e) : ∃ b ∈ bs, ∃ d, f d b = .error e := by
  induction bs generalizing c with
  | nil => cases h
  | cons b bs ih =>
    rw [List.foldlM_cons] at h
    rcases bind_eq_error.1 h with hb | ⟨d, -, hrest⟩
    · exact ⟨b, List.mem_cons_self, c, hb⟩
    · obtain ⟨x, hx, hfails⟩ := ih hrest
      exact ⟨x, List.mem_cons_of_mem b hx, hfails⟩

/-- The results of two computations along a list, when they correspond element by element. -/
theorem mapM_eq_map_of_forall {f f' : β → Except ε γ} {r : γ → γ}
    (h : ∀ b c c', f b = .ok c → f' b = .ok c' → c' = r c) {bs : List β} {cs cs' : List γ}
    (hf : bs.mapM f = .ok cs) (hf' : bs.mapM f' = .ok cs') : cs' = cs.map r := by
  rw [mapM_eq_ok_iff] at hf hf'
  induction hf generalizing cs' with
  | nil => exact List.forall₂_nil_left_iff.1 hf'
  | cons hc _ ih =>
    obtain ⟨c', ds', hc', hds', rfl⟩ := List.forall₂_cons_left_iff.1 hf'
    rw [List.map_cons, h _ _ _ hc hc', ih hds']

end TimedInference
