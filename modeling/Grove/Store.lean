import Grove.Handle

/-!
# Generational stores

A store keeps values in numbered slots. Free slots wait in a list whose head is filled next; a
slot that is emptied goes to the head of that list and starts a new generation of the whole store.
A value is reached only through the handle that was issued for it.

The file supplies the store, its look-up `get?`, and the three changes `insert`, `erase` and
`modify`. The invariants tie the free list to the empty slots, so that filling a slot never
overwrites a value and no slot is lost.
-/

namespace Grove
set_option autoImplicit false

/-- An occupied slot: the value and the generation in which it was put there. -/
structure Entry (α : Type) where
  generation : Nat
  value : α

/-- Numbered slots, the free ones in the order in which they will be filled, and the current
generation. -/
structure Store (α : Type) where
  slots : Array (Option (Entry α))
  free : List Nat
  generation : Nat
  free_nodup : free.Nodup
  mem_free_iff : ∀ i : Nat, i ∈ free ↔ slots[i]? = some none
  slots_pos : 0 < slots.size
  generation_le : ∀ (i : Nat) (e : Entry α), slots[i]? = some (some e) → e.generation ≤ generation

namespace Store
variable {α : Type}

theorem getElem?_replicate_none_iff (n i : Nat) :
    (Array.replicate n (none : Option (Entry α)))[i]? = some none ↔ i < n := by
  simp [Array.getElem?_replicate]

/-- A store without values: `n + 1` slots, all of them free, filled from the first on. -/
def vacant (n : Nat) : Store α where
  slots := Array.replicate (n + 1) none
  free := List.range (n + 1)
  generation := 0
  free_nodup := List.nodup_range
  mem_free_iff i := by rw [getElem?_replicate_none_iff, List.mem_range]
  slots_pos := by simp
  generation_le i e h := by simp [Array.getElem?_replicate] at h

/-- Four slots are set aside at the start. -/
def empty : Store α := vacant 3

instance : Inhabited (Store α) := ⟨empty⟩

def capacity (s : Store α) : Nat := s.slots.size

/-- The value named by a handle, if its slot still holds the same generation. -/
def get? (s : Store α) (h : Handle) : Option α :=
  match s.slots[h.index]? with
  | some (some e) => if e.generation = h.generation then some e.value else none
  | _ => none

def contains (s : Store α) (h : Handle) : Bool := (s.get? h).isSome

def entryAt? (s : Store α) (i : Nat) : Option (Handle × α) :=
  match s.slots[i]? with
  | some (some e) => some (⟨i, e.generation⟩, e.value)
  | _ => none

/-- All values with their handles, in the order of their slots. -/
def entries (s : Store α) : List (Handle × α) := (List.range s.capacity).filterMap s.entryAt?

def handles (s : Store α) : List Handle := s.entries.map Prod.fst

/-- The number of values: all slots but the free ones. -/
def size (s : Store α) : Nat := s.capacity - s.free.length

/-- Doubles the number of slots; the new ones are filled before the older free ones. -/
def grow (s : Store α) : Store α where
  slots := s.slots ++ Array.replicate s.slots.size none
  free := List.range' s.slots.size s.slots.size ++ s.free
  generation := s.generation
  free_nodup := by
    refine List.nodup_append.mpr ⟨List.nodup_range', s.free_nodup, ?_⟩
    intro a ha b hb hab
    subst hab
    have hlt : a < s.slots.size := by
      have := (s.mem_free_iff a).mp hb
      exact (Array.getElem?_eq_some_iff.mp this).1
    have := List.mem_range'_1.mp ha
    omega
  mem_free_iff i := by
    rw [List.mem_append, List.mem_range'_1, Array.getElem?_append]
    split
    · rename_i hi
      rw [s.mem_free_iff]
      exact ⟨fun h => h.elim (fun h => by omega) id, Or.inr⟩
    · rename_i hi
      rw [getElem?_replicate_none_iff]
      constructor
      · rintro (h | h)
        · omega
        · have := (Array.getElem?_eq_some_iff.mp ((s.mem_free_iff i).mp h)).1
          omega
      · intro h
        exact Or.inl (by omega)
  slots_pos := by
    have := s.slots_pos
    rw [Array.size_append]
    omega
  generation_le i e h := by
    rw [Array.getElem?_append] at h
    split at h
    · exact s.generation_le i e h
    · simp [Array.getElem?_replicate] at h

theorem grow_free_ne_nil (s : Store α) : s.grow.free ≠ [] := by
  have hpos := s.slots_pos
  intro h
  have hlen := congrArg List.length h
  simp only [grow, List.length_append, List.length_range', List.length_nil] at hlen
  omega

/-- A store with the same values and at least one free slot. -/
def reserve (s : Store α) : { t : Store α // t.free ≠ [] } :=
  if h : s.free = [] then ⟨s.grow, s.grow_free_ne_nil⟩ else ⟨s, h⟩

def fill (s : Store α) (a : α) (h : s.free ≠ []) : Handle × Store α :=
  (⟨s.free.head h, s.generation⟩,
   { slots := s.slots.setIfInBounds (s.free.head h) (some ⟨s.generation, a⟩)
     free := s.free.tail
     generation := s.generation
     free_nodup := s.free_nodup.tail
     mem_free_iff := by
       intro i
       obtain ⟨f, rest, hf⟩ := List.exists_cons_of_ne_nil h
       have hnd := s.free_nodup
       have hmem := s.mem_free_iff i
       have hhead := (s.mem_free_iff f).mp (by simp [hf])
       have hlt := (Array.getElem?_eq_some_iff.mp hhead).1
       simp only [hf, List.head_cons, List.tail_cons, List.nodup_cons, List.mem_cons] at hnd hmem ⊢
       rw [Array.getElem?_setIfInBounds]
       by_cases hi : f = i
       · subst hi
         simp [hlt, hnd.1]
       · rw [if_neg hi, ← hmem]
         exact ⟨Or.inr, fun h => h.resolve_left (fun h => hi h.symm)⟩
     slots_pos := by simpa using s.slots_pos
     generation_le := by
       intro i e he
       rw [Array.getElem?_setIfInBounds] at he
       split at he
       · split at he
         · simp only [Option.some.injEq] at he
           subst he
           exact Nat.le_refl _
         · simp at he
       · exact s.generation_le i e he })

/-- Puts a value into the first free slot, and tells its handle. -/
def insert (s : Store α) (a : α) : Handle × Store α := s.reserve.1.fill a s.reserve.2

/-- Replaces the value of a handle; nothing happens if the handle names no value. -/
def modify (s : Store α) (h : Handle) (f : α → α) : Store α :=
  match hs : s.slots[h.index]? with
  | some (some e) =>
    if e.generation = h.generation then
      { s with
        slots := s.slots.setIfInBounds h.index (some ⟨e.generation, f e.value⟩)
        mem_free_iff := by
          intro i
          rw [Array.getElem?_setIfInBounds, s.mem_free_iff]
          split
          · rename_i hi
            subst hi
            simp [hs]
          · exact Iff.rfl
        slots_pos := by simpa using s.slots_pos
        generation_le := by
          intro i e' he
          rw [Array.getElem?_setIfInBounds] at he
          split at he
          · split at he
            · simp only [Option.some.injEq] at he
              subst he
              exact s.generation_le h.index e hs
            · simp at he
          · exact s.generation_le i e' he }
    else s
  | _ => s

/-- Empties the slot of a handle and starts a new generation; nothing happens if the handle names
no value. -/
def erase (s : Store α) (h : Handle) : Store α :=
  match hs : s.slots[h.index]? with
  | some (some e) =>
    if e.generation = h.generation then
      { slots := s.slots.setIfInBounds h.index none
        free := h.index :: s.free
        generation := s.generation + 1
        free_nodup := by
          refine List.nodup_cons.mpr ⟨?_, s.free_nodup⟩
          rw [s.mem_free_iff, hs]
          simp
        mem_free_iff := by
          intro i
          have hlt := (Array.getElem?_eq_some_iff.mp hs).1
          rw [Array.getElem?_setIfInBounds, List.mem_cons, s.mem_free_iff]
          by_cases hi : h.index = i
          · subst hi
            simp [hlt]
          · rw [if_neg hi]
            exact ⟨fun h => h.resolve_left (fun h => hi h.symm), Or.inr⟩
        slots_pos := by simpa using s.slots_pos
        generation_le := by
          intro i e' he
          rw [Array.getElem?_setIfInBounds] at he
          split at he
          · split at he <;> simp at he
          · exact Nat.le_succ_of_le (s.generation_le i e' he) }
    else s
  | _ => s

end Store
end Grove
