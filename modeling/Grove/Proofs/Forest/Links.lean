import Grove.Forest.Ancestry
import Grove.Forest.Walk
import Grove.Store.Lemmas
import Mathlib.Data.List.Nodup
import Mathlib.Logic.Relation

/-!
# Links

A forest is seen here through three look-ups: the content, the parent link `above?` and the children
links `below` of a handle. Together they determine every node. A forest is well-formed when parent
links and children links are the two ends of the same edges, no list repeats a child, and no way up
comes back to where it began.

This module does NOT speak of programs; it says what writing one end of a link does to the look-ups.
-/

namespace Grove
set_option autoImplicit false

namespace Forest
variable {C : Type} {F G : Forest C} {a b h k p : Handle}

def contentOf? (F : Forest C) (h : Handle) : Option C := (F.get? h).map Node.content

/-- The same handles name the same nodes; free slots and generations may differ. -/
structure SameNodes (F G : Forest C) : Prop where
  get? : ∀ h, F.get? h = G.get? h
  settings : F.settings = G.settings

/-- All nodes of `F` are in `G` as they are in `F`. -/
structure Extends (F G : Forest C) : Prop where
  get? : ∀ h, F.contains h = true → G.get? h = F.get? h
  settings : G.settings = F.settings

theorem contains_iff : F.contains h = true ↔ ∃ n, F.get? h = some n := Store.contains_iff

theorem not_contains_iff : F.contains h = false ↔ F.get? h = none := by
  simp [contains, get?, Store.contains]

theorem ne_of_contains (hh : F.contains h = true) (hk : F.contains k = false) : h ≠ k := by
  rintro rfl
  rw [hh] at hk
  exact absurd hk (by simp)

theorem not_contains_of_imp (himp : F.contains h = true → G.contains h = true)
    (hh : G.contains h = false) : F.contains h = false := by
  cases hF : F.contains h with
  | false => rfl
  | true =>
    rw [himp hF] at hh
    exact hh

theorem contains_iff_contentOf? : F.contains h = true ↔ (F.contentOf? h).isSome = true := by
  simp [contains, contentOf?, get?, Store.contains]

theorem contains_eq_of_contentOf?_eq (hcontent : G.contentOf? k = F.contentOf? h) :
    G.contains k = F.contains h := by
  rw [Bool.eq_iff_iff, contains_iff_contentOf?, contains_iff_contentOf?, hcontent]

theorem above?_of_get? {n : Node C} (hn : F.get? h = some n) : F.above? h = n.parent := by
  simp [above?, hn]

theorem below_of_get? {n : Node C} (hn : F.get? h = some n) : F.below h = n.children := by
  simp [below, hn]

theorem contentOf?_of_get? {n : Node C} (hn : F.get? h = some n) :
    F.contentOf? h = some n.content := by
  simp [contentOf?, hn]

theorem above?_eq_none_of_not_contains (hh : F.contains h = false) : F.above? h = none := by
  simp [above?, not_contains_iff.mp hh]

theorem below_eq_nil_of_not_contains (hh : F.contains h = false) : F.below h = [] := by
  simp [below, not_contains_iff.mp hh]

theorem contains_of_above? (hp : F.above? h = some p) : F.contains h = true := by
  obtain ⟨n, hn, -⟩ := Option.bind_eq_some_iff.mp hp
  exact contains_iff.mpr ⟨n, hn⟩

theorem contains_of_mem_below (hc : h ∈ F.below p) : F.contains p = true := by
  cases hp : F.contains p with
  | true => rfl
  | false => simp [below_eq_nil_of_not_contains hp] at hc

theorem get?_eq_some_iff {n : Node C} :
    F.get? h = some n ↔
      F.contentOf? h = some n.content ∧ F.above? h = n.parent ∧ F.below h = n.children := by
  constructor
  · intro hn
    exact ⟨contentOf?_of_get? hn, above?_of_get? hn, below_of_get? hn⟩
  · rintro ⟨hc, ha, hb⟩
    obtain ⟨m, hm, hmc⟩ := Option.map_eq_some_iff.mp hc
    rw [above?_of_get? hm] at ha
    rw [below_of_get? hm] at hb
    rw [hm]
    cases m
    cases n
    simp_all

/-- Content, parent and children links determine a node. -/
theorem get?_eq_get?_iff :
    F.get? h = G.get? h ↔
      F.contentOf? h = G.contentOf? h ∧ F.above? h = G.above? h ∧ F.below h = G.below h := by
  constructor
  · intro he
    simp [contentOf?, above?, below, he]
  · rintro ⟨hc, ha, hb⟩
    cases hn : F.get? h with
    | none =>
      have hG : G.contentOf? h = none := by rw [← hc, contentOf?, hn]; rfl
      exact (Option.map_eq_none_iff.mp hG).symm
    | some n =>
      rw [get?_eq_some_iff, hc, ha, hb] at hn
      exact (get?_eq_some_iff.mpr hn).symm

namespace SameNodes

theorem refl (F : Forest C) : F.SameNodes F := ⟨fun _ => rfl, rfl⟩

theorem symm (hFG : F.SameNodes G) : G.SameNodes F :=
  ⟨fun h => (hFG.get? h).symm, hFG.settings.symm⟩

theorem trans {E : Forest C} (hFG : F.SameNodes G) (hGE : G.SameNodes E) : F.SameNodes E :=
  ⟨fun h => (hFG.get? h).trans (hGE.get? h), hFG.settings.trans hGE.settings⟩

theorem contains_eq (hFG : F.SameNodes G) (h : Handle) : F.contains h = G.contains h := by
  have he := hFG.get? h
  simp only [contains, Store.contains, Forest.get?] at he ⊢
  rw [he]

theorem above?_eq (hFG : F.SameNodes G) (h : Handle) : F.above? h = G.above? h := by
  simp only [above?, hFG.get? h]

theorem below_eq (hFG : F.SameNodes G) (h : Handle) : F.below h = G.below h := by
  simp only [below, hFG.get? h]

end SameNodes

namespace Extends

theorem refl (F : Forest C) : F.Extends F := ⟨fun _ _ => rfl, rfl⟩

theorem contains (hFG : F.Extends G) (hh : F.contains h = true) : G.contains h = true := by
  rw [contains_iff, hFG.get? h hh, ← contains_iff]
  exact hh

theorem not_contains (hFG : F.Extends G) (hh : G.contains h = false) : F.contains h = false :=
  not_contains_of_imp hFG.contains hh

theorem trans {E : Forest C} (hFG : F.Extends G) (hGE : G.Extends E) : F.Extends E :=
  ⟨fun h hh => (hGE.get? h (hFG.contains hh)).trans (hFG.get? h hh),
    hGE.settings.trans hFG.settings⟩

theorem above?_eq (hFG : F.Extends G) (hh : F.contains h = true) : G.above? h = F.above? h := by
  simp only [above?, hFG.get? h hh]

theorem below_eq (hFG : F.Extends G) (hh : F.contains h = true) : G.below h = F.below h := by
  simp only [below, hFG.get? h hh]

theorem contentOf?_eq (hFG : F.Extends G) (hh : F.contains h = true) :
    G.contentOf? h = F.contentOf? h := by
  simp only [contentOf?, hFG.get? h hh]

end Extends

theorem SameNodes.extends (hFG : F.SameNodes G) : F.Extends G :=
  ⟨fun h _ => (hFG.get? h).symm, hFG.settings.symm⟩

/-! ## Writing one end of a link -/

def update (F : Forest C) (h : Handle) (f : Node C → Node C) : Forest C :=
  { F with nodes := F.nodes.modify h f }

def setParent (F : Forest C) (h : Handle) (p : Option Handle) : Forest C :=
  F.update h fun n => { n with parent := p }

def setBelow (F : Forest C) (h : Handle) (cs : List Handle) : Forest C :=
  F.update h fun n => { n with children := cs }

theorem get?_update (F : Forest C) (h : Handle) (f : Node C → Node C) (k : Handle) :
    (F.update h f).get? k = if k = h then (F.get? h).map f else F.get? k :=
  Store.get?_modify F.nodes h f k

@[simp] theorem settings_update (F : Forest C) (h : Handle) (f : Node C → Node C) :
    (F.update h f).settings = F.settings := rfl

@[simp] theorem contains_update (F : Forest C) (h : Handle) (f : Node C → Node C) (k : Handle) :
    (F.update h f).contains k = F.contains k := by
  have hget := get?_update F h f k
  simp only [contains, Store.contains, get?] at hget ⊢
  rw [hget]
  split
  · rename_i hk
    simp [hk]
  · rfl

@[simp] theorem settings_setParent (F : Forest C) (h : Handle) (p : Option Handle) :
    (F.setParent h p).settings = F.settings := rfl

@[simp] theorem settings_setBelow (F : Forest C) (h : Handle) (cs : List Handle) :
    (F.setBelow h cs).settings = F.settings := rfl

@[simp] theorem contains_setParent (F : Forest C) (h : Handle) (p : Option Handle) (k : Handle) :
    (F.setParent h p).contains k = F.contains k := contains_update F h _ k

@[simp] theorem contains_setBelow (F : Forest C) (h : Handle) (cs : List Handle) (k : Handle) :
    (F.setBelow h cs).contains k = F.contains k := contains_update F h _ k

@[simp] theorem contentOf?_setParent (F : Forest C) (h : Handle) (p : Option Handle) (k : Handle) :
    (F.setParent h p).contentOf? k = F.contentOf? k := by
  simp only [contentOf?, setParent, get?_update]
  split
  · rename_i hk
    subst hk
    cases F.get? k <;> rfl
  · rfl

@[simp] theorem contentOf?_setBelow (F : Forest C) (h : Handle) (cs : List Handle) (k : Handle) :
    (F.setBelow h cs).contentOf? k = F.contentOf? k := by
  simp only [contentOf?, setBelow, get?_update]
  split
  · rename_i hk
    subst hk
    cases F.get? k <;> rfl
  · rfl

@[simp] theorem below_setParent (F : Forest C) (h : Handle) (p : Option Handle) (k : Handle) :
    (F.setParent h p).below k = F.below k := by
  simp only [below, setParent, get?_update]
  split
  · rename_i hk
    subst hk
    cases F.get? k <;> rfl
  · rfl

@[simp] theorem above?_setBelow (F : Forest C) (h : Handle) (cs : List Handle) (k : Handle) :
    (F.setBelow h cs).above? k = F.above? k := by
  simp only [above?, setBelow, get?_update]
  split
  · rename_i hk
    subst hk
    cases F.get? k <;> rfl
  · rfl

theorem above?_setParent {p : Option Handle} (hh : F.contains h = true) (k : Handle) :
    (F.setParent h p).above? k = if k = h then p else F.above? k := by
  obtain ⟨n, hn⟩ := contains_iff.mp hh
  simp only [above?, setParent, get?_update]
  split
  · simp [hn]
  · rfl

theorem below_setBelow {cs : List Handle} (hh : F.contains h = true) (k : Handle) :
    (F.setBelow h cs).below k = if k = h then cs else F.below k := by
  obtain ⟨n, hn⟩ := contains_iff.mp hh
  simp only [below, setBelow, get?_update]
  split
  · simp [hn]
  · rfl

/-! ## Well-formed forests -/

/-- `p` is the parent that `h` points to. -/
def Over (F : Forest C) (p h : Handle) : Prop := F.above? h = some p

/-- `a` is met on the way up from the parent of `h`. -/
def Above (F : Forest C) : Handle → Handle → Prop := Relation.TransGen F.Over

/-- `a` is `h` or above it. -/
def Covers (F : Forest C) : Handle → Handle → Prop := Relation.ReflTransGen F.Over

structure WellFormed (F : Forest C) : Prop where
  /-- the parent of a node is there and lists the node exactly once -/
  parent_lists : ∀ {h n p}, F.get? h = some n → n.parent = some p →
    ∃ m, F.get? p = some m ∧ m.children.count h = 1
  /-- a listed child is there and points back -/
  child_points : ∀ {h n c}, F.get? h = some n → c ∈ n.children →
    ∃ m, F.get? c = some m ∧ m.parent = some h
  /-- no way up comes back to where it began -/
  acyclic : ∀ h, ¬ F.Above h h

theorem wellFormed_iff_links :
    F.WellFormed ↔
      (∀ p h, F.above? h = some p ↔ h ∈ F.below p) ∧ (∀ p, (F.below p).Nodup) ∧
        ∀ h, ¬ F.Above h h := by
  constructor
  · intro hF
    have hlist : ∀ {p h}, F.above? h = some p → (F.below p).count h = 1 := by
      intro p h hp
      obtain ⟨n, hn, hnp⟩ := Option.bind_eq_some_iff.mp hp
      obtain ⟨m, hm, hcount⟩ := hF.parent_lists hn hnp
      rw [below_of_get? hm, hcount]
    have hback : ∀ {p h}, h ∈ F.below p → F.above? h = some p := by
      intro p h hh
      obtain ⟨n, hn⟩ := contains_iff.mp (contains_of_mem_below hh)
      rw [below_of_get? hn] at hh
      obtain ⟨m, hm, hmp⟩ := hF.child_points hn hh
      rw [above?_of_get? hm, hmp]
    refine ⟨fun p h => ⟨?_, hback⟩, ?_, hF.acyclic⟩
    · intro hp
      exact List.count_pos_iff.mp (by rw [hlist hp]; exact Nat.one_pos)
    · intro p
      refine List.nodup_iff_count_le_one.mpr fun c => ?_
      by_cases hc : c ∈ F.below p
      · exact Nat.le_of_eq (hlist (hback hc))
      · rw [List.count_eq_zero_of_not_mem hc]
        exact Nat.zero_le 1
  · rintro ⟨hiff, hnodup, hacyclic⟩
    refine ⟨?_, ?_, hacyclic⟩
    · intro h n p hn hp
      have hmem : h ∈ F.below p := (hiff p h).mp (by rw [above?_of_get? hn, hp])
      obtain ⟨m, hm⟩ := contains_iff.mp (contains_of_mem_below hmem)
      have hcount := List.count_eq_one_of_mem (hnodup p) hmem
      rw [below_of_get? hm] at hcount
      exact ⟨m, hm, hcount⟩
    · intro h n c hn hc
      have habove : F.above? c = some h := (hiff h c).mpr (by rw [below_of_get? hn]; exact hc)
      obtain ⟨m, hm, hmp⟩ := Option.bind_eq_some_iff.mp habove
      exact ⟨m, hm, hmp⟩

namespace WellFormed

theorem above?_eq_some_iff (hF : F.WellFormed) : F.above? h = some p ↔ h ∈ F.below p :=
  (wellFormed_iff_links.mp hF).1 p h

theorem nodup_below (hF : F.WellFormed) (p : Handle) : (F.below p).Nodup :=
  (wellFormed_iff_links.mp hF).2.1 p

theorem contains_of_mem_below (hF : F.WellFormed) (hc : h ∈ F.below p) : F.contains h = true :=
  contains_of_above? (hF.above?_eq_some_iff.mpr hc)

theorem contains_of_above? (hF : F.WellFormed) (hp : F.above? h = some p) : F.contains p = true :=
  Forest.contains_of_mem_below (hF.above?_eq_some_iff.mp hp)

theorem not_covers_of_over (hF : F.WellFormed) (hp : F.Over p h) : ¬ F.Covers h p := fun hc =>
  hF.acyclic h (Relation.TransGen.tail' hc hp)

theorem contains_of_covers (hF : F.WellFormed) (hc : F.Covers a h) (hh : F.contains h = true) :
    F.contains a = true := by
  induction hc using Relation.ReflTransGen.head_induction_on with
  | refl => exact hh
  | head hp _ _ => exact hF.contains_of_above? hp

theorem ne_of_above (hF : F.WellFormed) (ha : F.Above a h) : a ≠ h := by
  rintro rfl
  exact hF.acyclic a ha

/-- Only a node with children is above another one. -/
theorem below_ne_nil_of_above (hF : F.WellFormed) (ha : F.Above a h) : F.below a ≠ [] := by
  obtain ⟨c, hc, -⟩ := Relation.TransGen.head'_iff.mp ha
  exact List.ne_nil_of_mem (hF.above?_eq_some_iff.mp hc)

theorem congr (hF : F.WellFormed) (ha : ∀ h, G.above? h = F.above? h)
    (hb : ∀ h, G.below h = F.below h) : G.WellFormed := by
  have hover : G.Over = F.Over := by
    funext p h
    simp only [Over, ha]
  obtain ⟨hiff, hnodup, hacyclic⟩ := wellFormed_iff_links.mp hF
  refine wellFormed_iff_links.mpr ⟨fun p h => ?_, fun p => ?_, fun h => ?_⟩
  · rw [ha, hb]
    exact hiff p h
  · rw [hb]
    exact hnodup p
  · unfold Above
    rw [hover]
    exact hacyclic h

end WellFormed

theorem SameNodes.wellFormed (hFG : F.SameNodes G) (hF : F.WellFormed) : G.WellFormed :=
  hF.congr (fun h => (hFG.above?_eq h).symm) (fun h => (hFG.below_eq h).symm)

/-- What is above an old node is old, and was above it before. -/
theorem Extends.covers (hFG : F.Extends G) (hF : F.WellFormed) (hh : F.contains h = true)
    (ha : G.Covers a h) : F.contains a = true ∧ F.Covers a h := by
  induction ha using Relation.ReflTransGen.head_induction_on with
  | refl => exact ⟨hh, .refl⟩
  | @head a c hac _ ih =>
    obtain ⟨hc, hch⟩ := ih
    have hac' : F.Over a c := (hFG.above?_eq hc).symm.trans hac
    exact ⟨hF.contains_of_above? hac', .head hac' hch⟩

/-- Two handles above a third one are above each other, one way or the other. -/
theorem covers_total (ha : F.Covers a h) (hb : F.Covers b h) : F.Covers a b ∨ F.Covers b a := by
  induction ha using Relation.ReflTransGen.head_induction_on with
  | refl => exact Or.inr hb
  | @head a c hac _ ih =>
    rcases ih with hcb | hbc
    · exact Or.inl (Relation.ReflTransGen.head hac hcb)
    · rcases Relation.ReflTransGen.cases_tail hbc with he | ⟨d, hbd, hdc⟩
      · subst he
        exact Or.inl (Relation.ReflTransGen.single hac)
      · have hda : d = a := Option.some.inj (hdc.symm.trans hac)
        exact Or.inr (hda ▸ hbd)

end Forest
end Grove
