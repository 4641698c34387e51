import Grove.Store.Lemmas

/-!
# Issued handles

A slot may be filled many times, but every time a value is taken out a new generation begins. So a
handle that was issued either still names its value or belongs to an earlier generation, and the next
handle to be issued belongs to the current one.
-/

namespace Grove
set_option autoImplicit false

namespace Store
variable {α : Type} {s t u : Store α} {h k : Handle} {hs ks : List Handle}

/-- `t` comes from `s` by changes of the store; `hs` are the handles issued on the way, the first one
first. -/
inductive Issues : Store α → List Handle → Store α → Prop where
  | refl (s : Store α) : Issues s [] s
  | insert (s : Store α) (a : α) {hs : List Handle} {t : Store α} :
      Issues (s.insert a).2 hs t → Issues s ((s.insert a).1 :: hs) t
  | modify (s : Store α) (h : Handle) (f : α → α) {hs : List Handle} {t : Store α} :
      Issues (s.modify h f) hs t → Issues s hs t
  | erase (s : Store α) (h : Handle) {hs : List Handle} {t : Store α} :
      Issues (s.erase h) hs t → Issues s hs t

/-- The handle names a value, or belongs to an earlier generation. -/
def Used (s : Store α) (h : Handle) : Prop := s.contains h = true ∨ h.generation < s.generation

/-! ## Generations -/

@[simp] theorem generation_reserve (s : Store α) : s.reserve.1.generation = s.generation := by
  unfold reserve
  split <;> rfl

@[simp] theorem generation_insert (s : Store α) (a : α) :
    (s.insert a).2.generation = s.generation := generation_reserve s

@[simp] theorem generation_insert_fst (s : Store α) (a : α) :
    (s.insert a).1.generation = s.generation := generation_reserve s

@[simp] theorem generation_modify (s : Store α) (h : Handle) (f : α → α) :
    (s.modify h f).generation = s.generation := by
  unfold modify
  split
  · split <;> rfl
  · rfl

theorem generation_le_erase (s : Store α) (h : Handle) :
    s.generation ≤ (s.erase h).generation := by
  unfold erase
  split
  · split
    · exact Nat.le_succ _
    · exact Nat.le_refl _
  · exact Nat.le_refl _

theorem generation_erase (hh : s.contains h = true) :
    (s.erase h).generation = s.generation + 1 := by
  obtain ⟨a, ha⟩ := contains_iff.mp hh
  have hslot := get?_eq_some_iff.mp ha
  unfold erase
  split
  · rename_i e he
    have hgen : e.generation = h.generation := by
      rw [he] at hslot
      cases hslot
      rfl
    rw [if_pos hgen]
  · rename_i hno
    exact absurd hslot (hno _)

theorem generation_le_of_contains (hh : s.contains h = true) : h.generation ≤ s.generation := by
  obtain ⟨a, ha⟩ := contains_iff.mp hh
  exact s.generation_le h.index _ (get?_eq_some_iff.mp ha)

/-! ## Capacity -/

theorem capacity_le_insert (s : Store α) (a : α) : s.capacity ≤ (s.insert a).2.capacity := by
  have hreserve : s.capacity ≤ s.reserve.1.capacity := by
    unfold reserve
    split
    · simp [capacity, grow]
    · exact Nat.le_refl _
  simpa [insert, fill, capacity] using hreserve

@[simp] theorem capacity_modify (s : Store α) (h : Handle) (f : α → α) :
    (s.modify h f).capacity = s.capacity := by
  unfold modify
  split
  · split <;> simp [capacity]
  · rfl

@[simp] theorem capacity_erase (s : Store α) (h : Handle) : (s.erase h).capacity = s.capacity := by
  unfold erase
  split
  · split <;> simp [capacity]
  · rfl

/-! ## What one change does -/

theorem contains_insert (s : Store α) (a : α) (h : Handle) :
    (s.insert a).2.contains h = true ↔ h = (s.insert a).1 ∨ s.contains h = true := by
  simp only [contains_iff, get?_insert]
  by_cases hh : h = (s.insert a).1 <;> simp [hh]

theorem contains_modify (s : Store α) (k : Handle) (f : α → α) (h : Handle) :
    (s.modify k f).contains h = s.contains h := by
  simp only [contains, get?_modify]
  split
  · rename_i hk
    rw [hk, Option.isSome_map]
  · rfl

theorem contains_erase (s : Store α) (k h : Handle) :
    (s.erase k).contains h = true ↔ h ≠ k ∧ s.contains h = true := by
  simp only [contains_iff, get?_erase]
  by_cases hh : h = k <;> simp [hh]

theorem not_used_insert_fst (s : Store α) (a : α) : ¬ s.Used (s.insert a).1 := by
  rintro (hh | hlt)
  · simp [contains, get?_insert_fst] at hh
  · rw [generation_insert_fst] at hlt
    exact Nat.lt_irrefl _ hlt

theorem used_insert_fst (s : Store α) (a : α) : (s.insert a).2.Used (s.insert a).1 :=
  Or.inl ((contains_insert s a _).mpr (Or.inl rfl))

namespace Used

theorem insert (hu : s.Used h) (a : α) : (s.insert a).2.Used h := by
  rcases hu with hh | hlt
  · exact Or.inl ((contains_insert s a h).mpr (Or.inr hh))
  · exact Or.inr (by rwa [generation_insert])

theorem modify (hu : s.Used h) (k : Handle) (f : α → α) : (s.modify k f).Used h := by
  rwa [Used, contains_modify, generation_modify]

/-- A handle whose value is taken out belongs to an earlier generation from then on. -/
theorem erase (hu : s.Used h) (k : Handle) : (s.erase k).Used h := by
  rcases hu with hh | hlt
  · by_cases hk : h = k
    · subst hk
      refine Or.inr ?_
      rw [generation_erase hh]
      exact Nat.lt_succ_of_le (generation_le_of_contains hh)
    · exact Or.inl ((contains_erase s k h).mpr ⟨hk, hh⟩)
  · exact Or.inr (Nat.lt_of_lt_of_le hlt (generation_le_erase s k))

end Used

/-! ## What a run of changes does -/

namespace Issues

theorem trans (hst : s.Issues hs t) (htu : t.Issues ks u) : s.Issues (hs ++ ks) u := by
  induction hst with
  | refl s => exact htu
  | insert s a _ ih => exact .insert s a (ih htu)
  | modify s h f _ ih => exact .modify s h f (ih htu)
  | erase s h _ ih => exact .erase s h (ih htu)

theorem capacity_le (hst : s.Issues hs t) : s.capacity ≤ t.capacity := by
  induction hst with
  | refl s => exact Nat.le_refl _
  | insert s a _ ih => exact Nat.le_trans (s.capacity_le_insert a) ih
  | modify s h f _ ih => rwa [capacity_modify] at ih
  | erase s h _ ih => rwa [capacity_erase] at ih

theorem used (hst : s.Issues hs t) (hu : s.Used h) : t.Used h := by
  induction hst with
  | refl s => exact hu
  | insert s a _ ih => exact ih (hu.insert a)
  | modify s k f _ ih => exact ih (hu.modify k f)
  | erase s k _ ih => exact ih (hu.erase k)

theorem used_of_mem (hst : s.Issues hs t) (hh : h ∈ hs) : t.Used h := by
  induction hst with
  | refl s => exact absurd hh (by simp)
  | insert s a hst ih =>
    rcases List.mem_cons.mp hh with rfl | hh
    · exact hst.used (used_insert_fst s a)
    · exact ih hh
  | modify s k f _ ih => exact ih hh
  | erase s k _ ih => exact ih hh

theorem not_used_of_mem (hst : s.Issues hs t) (hh : h ∈ hs) : ¬ s.Used h := by
  induction hst with
  | refl s => exact absurd hh (by simp)
  | insert s a _ ih =>
    rcases List.mem_cons.mp hh with rfl | hh
    · exact not_used_insert_fst s a
    · exact fun hu => ih hh (hu.insert a)
  | modify s k f _ ih => exact fun hu => ih hh (hu.modify k f)
  | erase s k _ ih => exact fun hu => ih hh (hu.erase k)

/-- No handle is issued twice. -/
theorem nodup (hst : s.Issues hs t) : hs.Nodup := by
  induction hst with
  | refl s => exact List.nodup_nil
  | insert s a hst ih =>
    exact List.nodup_cons.mpr ⟨fun hm => hst.not_used_of_mem hm (used_insert_fst s a), ih⟩
  | modify s k f _ ih => exact ih
  | erase s k _ ih => exact ih

theorem mem_of_contains (hst : s.Issues hs t) (hh : t.contains h = true)
    (hnot : s.contains h = false) : h ∈ hs := by
  induction hst with
  | refl s =>
    rw [hnot] at hh
    exact absurd hh (by simp)
  | insert s a _ ih =>
    by_cases hk : h = (s.insert a).1
    · rw [hk]
      exact List.mem_cons_self
    · refine List.mem_cons_of_mem _ (ih hh (Bool.eq_false_iff.mpr fun hin => ?_))
      rcases (contains_insert s a h).mp hin with he | hin
      · exact hk he
      · simp [hnot] at hin
  | modify s k f _ ih => exact ih hh (by rw [contains_modify, hnot])
  | erase s k _ ih =>
    refine ih hh (Bool.eq_false_iff.mpr fun hin => ?_)
    rw [((contains_erase s k h).mp hin).2] at hnot
    exact absurd hnot (by simp)

/-- A used handle that names nothing names nothing ever after. -/
theorem not_contains (hst : s.Issues hs t) (hu : s.Used h) (hnot : s.contains h = false) :
    t.contains h = false :=
  Bool.eq_false_iff.mpr fun hh => hst.not_used_of_mem (hst.mem_of_contains hh hnot) hu

end Issues
end Store
end Grove
