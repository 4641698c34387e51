import Grove.Proofs.Store.Issue

/-!
# The layout of a store

A change of a value leaves the slots where they are: the same slots are free, in the same order, and
the generation goes on. So changes at two handles can be made in either order, and stores that differ
in their values only issue the same handles.
-/

namespace Grove
set_option autoImplicit false

namespace Store
variable {α : Type} {s t u : Store α} {h k : Handle}

theorem ext (hslots : s.slots = t.slots) (hfree : s.free = t.free)
    (hgeneration : s.generation = t.generation) : s = t := by
  cases s
  cases t
  cases hslots
  cases hfree
  cases hgeneration
  rfl

@[simp] theorem free_modify (s : Store α) (h : Handle) (f : α → α) :
    (s.modify h f).free = s.free := by
  unfold modify
  split
  · split <;> rfl
  · rfl

/-- Two handles of one slot do not both name a value. -/
theorem get?_eq_none_of_ne {a : α} (hne : h ≠ k) (hi : h.index = k.index)
    (hh : s.get? h = some a) : s.get? k = none := by
  cases hk : s.get? k with
  | none => rfl
  | some b =>
    have hslot := get?_eq_some_iff.mp hh
    rw [hi, get?_eq_some_iff.mp hk] at hslot
    have hgen : k.generation = h.generation := by
      simp only [Option.some.injEq, Entry.mk.injEq] at hslot
      exact hslot.1
    exact absurd (handle_eq_iff.mpr ⟨hi, hgen.symm⟩) hne

/-- Changes at two handles can be made in either order. -/
theorem modify_comm (s : Store α) (hne : h ≠ k) (f g : α → α) :
    (s.modify h f).modify k g = (s.modify k g).modify h f := by
  refine ext (Array.ext_getElem? fun i => ?_) (by simp) (by simp)
  rw [slots_modify, slots_modify, slots_modify, slots_modify, get?_modify, get?_modify,
    if_neg hne.symm, if_neg hne]
  by_cases hh : i = h.index
  · by_cases hk : i = k.index
    · cases hget : s.get? h with
      | none => simp
      | some a => simp [get?_eq_none_of_ne hne (hh.symm.trans hk) hget]
    · simp [hk]
  · simp [hh]

/-! ## Stores with the same slots -/

/-- The same slots are there and are free, and the generation is the same; the values may differ. -/
structure SameLayout (s t : Store α) : Prop where
  free : s.free = t.free
  generation : s.generation = t.generation
  capacity : s.capacity = t.capacity

namespace SameLayout

theorem refl (s : Store α) : s.SameLayout s := ⟨rfl, rfl, rfl⟩

theorem symm (hst : s.SameLayout t) : t.SameLayout s :=
  ⟨hst.free.symm, hst.generation.symm, hst.capacity.symm⟩

theorem trans (hst : s.SameLayout t) (htu : t.SameLayout u) : s.SameLayout u :=
  ⟨hst.free.trans htu.free, hst.generation.trans htu.generation, hst.capacity.trans htu.capacity⟩

theorem modify (s : Store α) (h : Handle) (f : α → α) : s.SameLayout (s.modify h f) :=
  ⟨(free_modify s h f).symm, (generation_modify s h f).symm, (capacity_modify s h f).symm⟩

theorem grow (hst : s.SameLayout t) : s.grow.SameLayout t.grow := by
  have hsize : s.slots.size = t.slots.size := hst.capacity
  refine ⟨?_, hst.generation, ?_⟩
  · simp only [Store.grow, hst.free, hsize]
  · simp only [Store.grow, Store.capacity, Array.size_append, Array.size_replicate, hsize]

theorem reserve (hst : s.SameLayout t) : s.reserve.1.SameLayout t.reserve.1 := by
  by_cases hs : s.free = []
  · have ht : t.free = [] := hst.free ▸ hs
    simpa only [Store.reserve, dif_pos hs, dif_pos ht] using hst.grow
  · have ht : t.free ≠ [] := hst.free ▸ hs
    simpa only [Store.reserve, dif_neg hs, dif_neg ht] using hst

/-- Stores with the same slots and the same values are the same store. -/
theorem eq_of_get? (hst : s.SameLayout t) (hget : ∀ h, s.get? h = t.get? h) : s = t := by
  -- an occupied slot is found through the handle of its own generation
  have hoccupied : ∀ (i : Nat) (e : Entry α), s.slots[i]? = some (some e) →
      t.slots[i]? = some (some e) := by
    intro i e he
    apply (get?_eq_some_iff (h := ⟨i, e.generation⟩)).mp
    rw [← hget]
    exact get?_eq_some_iff.mpr he
  refine ext (Array.ext_getElem? ?_) hst.free hst.generation
  intro i
  cases hs : s.slots[i]? with
  | none =>
    have hsize : s.slots.size = t.slots.size := hst.capacity
    rw [Array.getElem?_eq_none_iff, hsize] at hs
    exact (Array.getElem?_eq_none hs).symm
  | some slot =>
    cases slot with
    | none =>
      have hfree : i ∈ t.free := hst.free ▸ (s.mem_free_iff i).mpr hs
      exact ((t.mem_free_iff i).mp hfree).symm
    | some e => exact (hoccupied i e hs).symm

/-- The next handle is the same, whatever is put in. -/
theorem insert_fst (hst : s.SameLayout t) (a b : α) : (s.insert a).1 = (t.insert b).1 := by
  have hreserve := hst.reserve
  simp only [Store.insert, fill, hreserve.free, hreserve.generation]

theorem insert (hst : s.SameLayout t) (a b : α) : (s.insert a).2.SameLayout (t.insert b).2 := by
  have hreserve := hst.reserve
  refine ⟨?_, hreserve.generation, ?_⟩
  · simp only [Store.insert, fill, hreserve.free]
  · simpa [Store.insert, fill, Store.capacity] using hreserve.capacity

end SameLayout
end Store
end Grove
