import Grove.Store

/-!
# Look-up in generational stores

What each change of a store does to the look-up `get?`: a change at one handle leaves all others
alone, and an inserted value gets a handle that named nothing before. The list of handles contains
exactly the handles that name a value, each once, and `size` counts them.
-/

namespace Grove.Store
set_option autoImplicit false

variable {α : Type}

theorem get?_eq_some_iff {s : Store α} {h : Handle} {a : α} :
    s.get? h = some a ↔ s.slots[h.index]? = some (some ⟨h.generation, a⟩) := by
  unfold get?
  cases hs : s.slots[h.index]? with
  | none => simp
  | some o =>
    cases o with
    | none => simp
    | some e =>
      obtain ⟨g, b⟩ := e
      by_cases hg : g = h.generation
      · simp [hg]
      · simp [hg]

/-- A look-up depends on the slot of the handle only. -/
theorem get?_congr {s t : Store α} {h : Handle} (e : s.slots[h.index]? = t.slots[h.index]?) :
    s.get? h = t.get? h := by
  unfold get?
  rw [e]

theorem handle_eq_iff {h k : Handle} : h = k ↔ h.index = k.index ∧ h.generation = k.generation := by
  cases h
  cases k
  simp

@[simp] theorem get?_empty (h : Handle) : (empty : Store α).get? h = none := by
  simp only [get?, empty, vacant, Array.getElem?_replicate]
  split
  · rename_i e he
    split at he <;> simp at he
  · rfl

theorem contains_iff {s : Store α} {h : Handle} : s.contains h = true ↔ ∃ a, s.get? h = some a := by
  simp [contains, Option.isSome_iff_exists]

@[simp] theorem get?_grow (s : Store α) (h : Handle) : s.grow.get? h = s.get? h := by
  by_cases hlt : h.index < s.slots.size
  · exact get?_congr (Array.getElem?_append_left hlt)
  · have hold : s.get? h = none := by
      have hout : s.slots[h.index]? = none := Array.getElem?_eq_none (Nat.le_of_not_lt hlt)
      simp [get?, hout]
    have hnew : s.grow.get? h = none := by
      unfold get? grow
      rw [Array.getElem?_append_right (Nat.le_of_not_lt hlt), Array.getElem?_replicate]
      by_cases hin : h.index - s.slots.size < s.slots.size <;> simp [hin]
    rw [hold, hnew]

@[simp] theorem get?_reserve (s : Store α) (h : Handle) : s.reserve.1.get? h = s.get? h := by
  unfold reserve
  split
  · exact get?_grow s h
  · rfl

/-- The handle that a filled slot gets named nothing before. -/
theorem get?_fill_self_before {s : Store α} {a : α} (hf : s.free ≠ []) :
    s.get? (s.fill a hf).1 = none := by
  have hmem := (s.mem_free_iff (s.free.head hf)).mp (List.head_mem hf)
  simp [get?, fill, hmem]

theorem get?_fill (s : Store α) (a : α) (hf : s.free ≠ []) (k : Handle) :
    (s.fill a hf).2.get? k = if k = (s.fill a hf).1 then some a else s.get? k := by
  have hmem := (s.mem_free_iff (s.free.head hf)).mp (List.head_mem hf)
  have hlt := (Array.getElem?_eq_some_iff.mp hmem).1
  by_cases hi : s.free.head hf = k.index
  · have hslot : (s.fill a hf).2.slots[k.index]? = some (some ⟨s.generation, a⟩) := by
      simp only [fill]
      rw [← hi, Array.getElem?_setIfInBounds_self, if_pos hlt]
    by_cases hg : s.generation = k.generation
    · have hk : k = (s.fill a hf).1 := handle_eq_iff.mpr ⟨hi.symm, hg.symm⟩
      rw [if_pos hk]
      exact get?_eq_some_iff.mpr (by rw [hslot, hg])
    · have hk : ¬ k = (s.fill a hf).1 := fun e => hg (handle_eq_iff.mp e).2.symm
      rw [if_neg hk]
      have hold : s.get? k = none := by
        rw [hi] at hmem
        simp [get?, hmem]
      rw [hold]
      simp [get?, hslot, hg]
  · have hk : ¬ k = (s.fill a hf).1 := fun e => hi (handle_eq_iff.mp e).1.symm
    rw [if_neg hk]
    apply get?_congr
    simp only [fill]
    rw [Array.getElem?_setIfInBounds_ne hi]

theorem get?_insert (s : Store α) (a : α) (k : Handle) :
    (s.insert a).2.get? k = if k = (s.insert a).1 then some a else s.get? k := by
  unfold insert
  rw [get?_fill, get?_reserve]

/-- The handle of an inserted value named nothing before. -/
theorem get?_insert_fst (s : Store α) (a : α) : s.get? (s.insert a).1 = none := by
  rw [← get?_reserve]
  exact get?_fill_self_before s.reserve.2

theorem slots_modify (s : Store α) (h : Handle) (f : α → α) (i : Nat) :
    (s.modify h f).slots[i]? =
      if i = h.index then (s.get? h).elim s.slots[i]? fun a => some (some ⟨h.generation, f a⟩)
      else s.slots[i]? := by
  unfold modify
  split
  · rename_i e hs
    have hlt := (Array.getElem?_eq_some_iff.mp hs).1
    obtain ⟨g, b⟩ := e
    by_cases hg : g = h.generation
    · have hget : s.get? h = some b := get?_eq_some_iff.mpr (by rw [hs, hg])
      simp only [hg, if_pos, hget, Option.elim_some]
      rw [Array.getElem?_setIfInBounds]
      by_cases hi : i = h.index
      · subst hi
        simp [hlt]
      · simp [hi, Ne.symm hi]
    · have hget : s.get? h = none := by simp [get?, hs, hg]
      simp [hg, hget]
  · rename_i hs
    have hget : s.get? h = none := by
      unfold get?
      split
      · rename_i e he
        exact absurd he (hs e)
      · rfl
    simp [hget]

theorem get?_modify (s : Store α) (h : Handle) (f : α → α) (k : Handle) :
    (s.modify h f).get? k = if k = h then (s.get? h).map f else s.get? k := by
  by_cases hi : k.index = h.index
  · cases hget : s.get? h with
    | none =>
      have hslot : (s.modify h f).slots[k.index]? = s.slots[k.index]? := by
        rw [slots_modify, hget]
        simp
      rw [get?_congr hslot]
      split
      · rename_i hk
        rw [hk, hget]
        rfl
      · rfl
    | some a =>
      have hslot : (s.modify h f).slots[k.index]? = some (some ⟨h.generation, f a⟩) := by
        rw [slots_modify, hget, if_pos hi]
        rfl
      have hold := get?_eq_some_iff.mp hget
      by_cases hg : h.generation = k.generation
      · have hk : k = h := handle_eq_iff.mpr ⟨hi, hg.symm⟩
        rw [if_pos hk]
        exact get?_eq_some_iff.mpr (by rw [hslot, hg])
      · have hk : ¬ k = h := fun e => hg (handle_eq_iff.mp e).2.symm
        rw [if_neg hk]
        rw [← hi] at hold
        simp [get?, hslot, hold, hg]
  · have hk : ¬ k = h := fun e => hi (handle_eq_iff.mp e).1
    rw [if_neg hk]
    apply get?_congr
    rw [slots_modify, if_neg hi]

theorem slots_erase (s : Store α) (h : Handle) (i : Nat) :
    (s.erase h).slots[i]? =
      if i = h.index then (s.get? h).elim s.slots[i]? fun _ => some none else s.slots[i]? := by
  unfold erase
  split
  · rename_i e hs
    have hlt := (Array.getElem?_eq_some_iff.mp hs).1
    obtain ⟨g, b⟩ := e
    by_cases hg : g = h.generation
    · have hget : s.get? h = some b := get?_eq_some_iff.mpr (by rw [hs, hg])
      simp only [hg, if_pos, hget, Option.elim_some]
      rw [Array.getElem?_setIfInBounds]
      by_cases hi : i = h.index
      · subst hi
        simp [hlt]
      · simp [hi, Ne.symm hi]
    · have hget : s.get? h = none := by simp [get?, hs, hg]
      simp [hg, hget]
  · rename_i hs
    have hget : s.get? h = none := by
      unfold get?
      split
      · rename_i e he
        exact absurd he (hs e)
      · rfl
    simp [hget]

theorem get?_erase (s : Store α) (h k : Handle) :
    (s.erase h).get? k = if k = h then none else s.get? k := by
  by_cases hi : k.index = h.index
  · cases hget : s.get? h with
    | none =>
      have hslot : (s.erase h).slots[k.index]? = s.slots[k.index]? := by
        rw [slots_erase, hget]
        simp
      rw [get?_congr hslot]
      split
      · rename_i hk
        rw [hk, hget]
      · rfl
    | some a =>
      have hslot : (s.erase h).slots[k.index]? = some none := by
        rw [slots_erase, hget, if_pos hi]
        rfl
      have hold := get?_eq_some_iff.mp hget
      rw [← hi] at hold
      have hnone : (s.erase h).get? k = none := by simp [get?, hslot]
      rw [hnone]
      split
      · rfl
      · rename_i hk
        have hg : ¬ h.generation = k.generation := fun e => hk (handle_eq_iff.mpr ⟨hi, e.symm⟩)
        simp [get?, hold, hg]
  · have hk : ¬ k = h := fun e => hi (handle_eq_iff.mp e).1
    rw [if_neg hk]
    apply get?_congr
    rw [slots_erase, if_neg hi]

theorem entryAt?_eq_some_iff {s : Store α} {i : Nat} {h : Handle} {a : α} :
    s.entryAt? i = some (h, a) ↔ h.index = i ∧ s.get? h = some a := by
  rw [get?_eq_some_iff]
  unfold entryAt?
  constructor
  · intro he
    split at he
    · rename_i e hs
      obtain ⟨g, b⟩ := e
      simp only [Option.some.injEq, Prod.mk.injEq] at he
      obtain ⟨rfl, rfl⟩ := he
      exact ⟨rfl, hs⟩
    · simp at he
  · rintro ⟨rfl, hs⟩
    rw [hs]

theorem mem_entries_iff {s : Store α} {h : Handle} {a : α} :
    (h, a) ∈ s.entries ↔ s.get? h = some a := by
  simp only [entries, List.mem_filterMap, List.mem_range, entryAt?_eq_some_iff]
  constructor
  · rintro ⟨i, _, _, hget⟩
    exact hget
  · intro hget
    have hslot := get?_eq_some_iff.mp hget
    exact ⟨h.index, (Array.getElem?_eq_some_iff.mp hslot).1, rfl, hget⟩

theorem mem_handles_iff {s : Store α} {h : Handle} :
    h ∈ s.handles ↔ ∃ a, s.get? h = some a := by
  simp only [handles, List.mem_map, Prod.exists, mem_entries_iff]
  constructor
  · rintro ⟨k, a, hget, rfl⟩
    exact ⟨a, hget⟩
  · rintro ⟨a, hget⟩
    exact ⟨h, a, hget, rfl⟩

/-- The slot numbers of the handles are those of the occupied slots, in ascending order. -/
theorem map_index_handles (s : Store α) :
    s.handles.map Handle.index =
      (List.range s.capacity).filter fun i => (s.entryAt? i).isSome := by
  have hrec : ∀ l : List Nat,
      ((l.filterMap s.entryAt?).map Prod.fst).map Handle.index =
        l.filter fun i => (s.entryAt? i).isSome := by
    intro l
    induction l with
    | nil => rfl
    | cons i l ih =>
      cases he : s.entryAt? i with
      | none => simp [he, ih]
      | some p =>
        obtain ⟨h, a⟩ := p
        have hi := (entryAt?_eq_some_iff.mp he).1
        simp [he, ih, hi]
  exact hrec _

theorem handles_nodup (s : Store α) : s.handles.Nodup := by
  have hnd : (s.handles.map Handle.index).Nodup := by
    rw [map_index_handles]
    exact List.nodup_range.filter _
  exact (List.pairwise_map.mp hnd).imp fun hne he => hne (congrArg Handle.index he)

/-- The occupied slots and the free ones are all slots. -/
theorem length_handles_add_length_free (s : Store α) :
    s.handles.length + s.free.length = s.capacity := by
  have hfree : s.free.Perm ((List.range s.capacity).filter fun i => !(s.entryAt? i).isSome) := by
    refine (List.perm_ext_iff_of_nodup s.free_nodup (List.nodup_range.filter _)).mpr fun i => ?_
    rw [s.mem_free_iff, List.mem_filter, List.mem_range]
    constructor
    · intro hs
      exact ⟨(Array.getElem?_eq_some_iff.mp hs).1, by simp [entryAt?, hs]⟩
    · rintro ⟨hlt, he⟩
      have hs : s.slots[i]? = some s.slots[i] := Array.getElem?_eq_getElem hlt
      cases ho : s.slots[i] with
      | none => rw [hs, ho]
      | some e => simp [entryAt?, hs, ho] at he
  have hlen := congrArg List.length (map_index_handles s)
  rw [List.length_map] at hlen
  rw [hlen, hfree.length_eq, ← List.countP_eq_length_filter, ← List.countP_eq_length_filter]
  have htotal := List.length_eq_countP_add_countP (l := List.range s.capacity)
    fun i => (s.entryAt? i).isSome
  rw [List.length_range] at htotal
  have hneg : (fun i => !(s.entryAt? i).isSome) =
      fun i => decide (¬ (s.entryAt? i).isSome = true) := by
    funext i
    cases (s.entryAt? i).isSome <;> rfl
  rw [hneg]
  exact htotal.symm

@[simp] theorem length_handles (s : Store α) : s.handles.length = s.size := by
  have h := length_handles_add_length_free s
  unfold size
  omega

end Grove.Store
