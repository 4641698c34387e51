import Grove.Proofs.Edit.Copy

/-!
# Deep copies

A deep copy walks down the subtree as it stood when the copy was begun: the nodes that it makes are
new, so none of them is ever among the nodes still to be copied. While a stand is copied below a
target, the copies of its tops are appended to the children of the target, and every other copy is
below the copy of its parent.
-/

namespace Grove
set_option autoImplicit false

namespace Forest
variable {C : Type} {F G : Forest C} {c h k p t : Handle} {st b r : Stand}
  {f : Handle → Handle}

theorem Bears.below_subset (hst : F.Bears st) (hh : h ∈ st.handles) :
    ∀ k ∈ F.below h, k ∈ st.handles := by
  induction st with
  | bare => simp [Stand.handles] at hh
  | tree top b r ihb ihr =>
    obtain ⟨-, hbelow, hb, hr⟩ := hst
    intro k hk
    rcases List.mem_cons.mp hh with rfl | hh
    · rw [hbelow] at hk
      exact List.mem_cons_of_mem _ (List.mem_append_left _ (Stand.mem_handles_of_mem_tops hk))
    · rcases List.mem_append.mp hh with hh | hh
      · exact List.mem_cons_of_mem _ (List.mem_append_left _ (ihb hb hh k hk))
      · exact List.mem_cons_of_mem _ (List.mem_append_right _ (ihr hr hh k hk))

/-- `G` is `F` with a new leaf `c` as the last child of `t`. -/
structure Budded (F G : Forest C) (t c : Handle) (content : C) : Prop where
  wellFormed : G.WellFormed
  old : ∀ k, F.contains k = true → k ≠ t → G.get? k = F.get? k
  target : G.contentOf? t = F.contentOf? t ∧ G.above? t = F.above? t ∧
    G.below t = F.below t ++ [c]
  fresh : F.contains c = false
  leaf : G.contentOf? c = some content ∧ G.below c = []
  covered : ∀ k, G.contains k = true → F.contains k = true ∨ k = c
  settings : G.settings = F.settings

theorem WellFormed.budded_link (hF : F.WellFormed) (ht : F.contains t = true) (content : C) :
    F.Budded ((F.plant content).2.link t (F.below t).length (F.plant content).1) t
      (F.plant content).1 content := by
  have hplant := hF.sprouted_plant content
  have ht' := hplant.old.contains ht
  have hne : ∀ k, F.contains k = true → k ≠ (F.plant content).1 :=
    fun k hk => ne_of_contains hk hplant.fresh
  have hct := (hne t ht).symm
  refine ⟨?_, ?_, ⟨?_, ?_, ?_⟩, hplant.fresh, ⟨?_, ?_⟩, ?_, rfl⟩
  · exact hplant.wellFormed.link ht' hplant.contains hplant.root (hplant.not_covers hF ht) (by simp)
  · intro k hk hkt
    rw [get?_link ht' hplant.contains hkt (hne k hk), hplant.old.get? k hk]
  · rw [contentOf?_link, contentOf?_plant, if_neg (hne t ht)]
  · rw [above?_link hplant.contains, if_neg (hne t ht), above?_plant]
  · rw [below_link ht', if_pos rfl, below_plant, List.insertIdx_length_self]
  · rw [contentOf?_link, contentOf?_plant, if_pos rfl]
  · rw [below_link ht', if_neg hct, below_plant]
    exact below_eq_nil_of_not_contains hplant.fresh
  · intro k hk
    rw [contains_link, contains_plant] at hk
    exact hk.symm

namespace Budded
variable {content : C}

theorem contains (hG : F.Budded G t c content) (ht : F.contains t = true)
    (hk : F.contains k = true) : G.contains k = true := by
  by_cases hkt : k = t
  · rw [hkt, contains_eq_of_contentOf?_eq hG.target.1, ht]
  · rw [contains_iff, hG.old k hk hkt, ← contains_iff]
    exact hk

theorem not_contains (hG : F.Budded G t c content) (ht : F.contains t = true)
    (hk : G.contains k = false) : F.contains k = false :=
  not_contains_of_imp (hG.contains ht) hk

theorem contains_leaf (hG : F.Budded G t c content) : G.contains c = true := by
  rw [contains_iff_contentOf?, hG.leaf.1]
  rfl

theorem ne_leaf (hG : F.Budded G t c content) (hk : F.contains k = true) : k ≠ c :=
  ne_of_contains hk hG.fresh

theorem get?_handles (hG : F.Budded G t c content) (hst : F.Bears st) (ht : t ∉ st.handles) :
    ∀ k ∈ st.handles, G.get? k = F.get? k := fun k hk =>
  hG.old k (hst.contains hk) fun he => ht (he ▸ hk)

end Budded

/-- `G` is `F` with a copy of the stand below the target `t`; `f` gives the copies of its nodes. -/
structure CopiedBelow (F G : Forest C) (st : Stand) (t : Handle) (f : Handle → Handle) : Prop where
  wellFormed : G.WellFormed
  old : ∀ k, F.contains k = true → k ≠ t → G.get? k = F.get? k
  target : G.contentOf? t = F.contentOf? t ∧ G.above? t = F.above? t ∧
    G.below t = F.below t ++ st.tops.map f
  fresh : ∀ h ∈ st.handles, F.contains (f h) = false
  contentOf?_eq : ∀ h ∈ st.handles, G.contentOf? (f h) = F.contentOf? h
  below_eq : ∀ h ∈ st.handles, G.below (f h) = (F.below h).map f
  nodup : (st.handles.map f).Nodup
  covered : ∀ k, G.contains k = true → F.contains k = true ∨ k ∈ st.handles.map f
  settings : G.settings = F.settings

namespace CopiedBelow

theorem bare (hF : F.WellFormed) (t : Handle) (f : Handle → Handle) :
    F.CopiedBelow F .bare t f where
  wellFormed := hF
  old _ _ _ := rfl
  target := ⟨rfl, rfl, by simp [Stand.tops]⟩
  fresh _ hh := absurd hh (by simp [Stand.handles])
  contentOf?_eq _ hh := absurd hh (by simp [Stand.handles])
  below_eq _ hh := absurd hh (by simp [Stand.handles])
  nodup := List.nodup_nil
  covered _ hk := Or.inl hk
  settings := rfl

theorem contains_target (hG : F.CopiedBelow G st t f) (ht : F.contains t = true) :
    G.contains t = true := by
  rw [contains_eq_of_contentOf?_eq hG.target.1, ht]

theorem contains (hG : F.CopiedBelow G st t f) (ht : F.contains t = true)
    (hk : F.contains k = true) : G.contains k = true := by
  by_cases hkt : k = t
  · rw [hkt]
    exact hG.contains_target ht
  · rw [contains_iff, hG.old k hk hkt, ← contains_iff]
    exact hk

theorem contains_copy (hG : F.CopiedBelow G st t f) (hst : F.Bears st) (hh : h ∈ st.handles) :
    G.contains (f h) = true := by
  rw [contains_eq_of_contentOf?_eq (hG.contentOf?_eq h hh)]
  exact hst.contains hh

theorem not_contains (hG : F.CopiedBelow G st t f) (ht : F.contains t = true)
    (hk : G.contains k = false) : F.contains k = false :=
  not_contains_of_imp (hG.contains ht) hk

theorem contentOf?_of_old (hG : F.CopiedBelow G st t f) (hk : F.contains k = true) :
    G.contentOf? k = F.contentOf? k := by
  by_cases hkt : k = t
  · rw [hkt, hG.target.1]
  · rw [contentOf?, hG.old k hk hkt, contentOf?]

theorem below_of_old (hG : F.CopiedBelow G st t f) (hk : F.contains k = true) (hkt : k ≠ t) :
    G.below k = F.below k := by
  rw [below, hG.old k hk hkt, below]

theorem get?_handles_beside {F₁ : Forest C} {content : C} (hG : F₁.CopiedBelow G b c f)
    (hbud : F.Budded F₁ t c content) (ht : F.contains t = true) (hr : F.Bears r)
    (htr : t ∉ r.handles) : ∀ k ∈ r.handles, G.get? k = F.get? k := by
  intro k hk
  have hkF := hr.contains hk
  rw [hG.old k (hbud.contains ht hkF) (hbud.ne_leaf hkF), hbud.get?_handles hr htr k hk]

/-- A tree is copied as a leaf, below which what stands below its top is copied. -/
theorem single {F₁ : Forest C} {content : C} {f₁ : Handle → Handle}
    (hF : F.Bears (.tree h b .bare)) (ht : F.contains t = true)
    (htst : t ∉ (Stand.tree h b .bare).handles) (hcontent : F.contentOf? h = some content)
    (hbud : F.Budded F₁ t c content) (h₁ : F₁.CopiedBelow G b c f₁) (hf : f h = c)
    (hf₁ : ∀ k ∈ b.handles, f k = f₁ k) : F.CopiedBelow G (.tree h b .bare) t f := by
  obtain ⟨-, hbelow, hb, -⟩ := hF
  have hhandles : (Stand.tree h b .bare).handles = h :: b.handles := by simp [Stand.handles]
  have hin : ∀ k ∈ b.handles, F.contains k = true ∧ k ≠ t := fun k hk =>
    ⟨hb.contains hk, fun he => htst (by simp [Stand.handles, ← he, hk])⟩
  have ht₁ := hbud.contains ht ht
  have htc := hbud.ne_leaf ht
  have hold : ∀ k ∈ b.handles, F₁.get? k = F.get? k := fun k hk =>
    hbud.old k (hin k hk).1 (hin k hk).2
  refine ⟨h₁.wellFormed, ?_, ⟨?_, ?_, ?_⟩, ?_, ?_, ?_, ?_, ?_, ?_⟩
  · intro k hk hkt
    rw [h₁.old k (hbud.contains ht hk) (hbud.ne_leaf hk), hbud.old k hk hkt]
  · rw [h₁.contentOf?_of_old ht₁, hbud.target.1]
  · rw [above?, h₁.old t ht₁ htc, ← above?, hbud.target.2.1]
  · rw [h₁.below_of_old ht₁ htc, hbud.target.2.2, Stand.tops, Stand.tops, List.map_singleton, hf]
  · intro k hk
    rw [hhandles] at hk
    rcases List.mem_cons.mp hk with rfl | hk
    · rw [hf, hbud.fresh]
    · rw [hf₁ k hk]
      exact hbud.not_contains ht (h₁.fresh k hk)
  · intro k hk
    rw [hhandles] at hk
    rcases List.mem_cons.mp hk with rfl | hk
    · rw [hf, h₁.target.1, hbud.leaf.1, hcontent]
    · rw [hf₁ k hk, h₁.contentOf?_eq k hk, contentOf?, hold k hk, contentOf?]
  · intro k hk
    rw [hhandles] at hk
    rcases List.mem_cons.mp hk with rfl | hk
    · rw [hf, h₁.target.2.2, hbud.leaf.2, List.nil_append, hbelow,
        List.map_congr_left fun k hk => hf₁ k (Stand.mem_handles_of_mem_tops hk)]
    · rw [hf₁ k hk, h₁.below_eq k hk, below, hold k hk, ← below,
        List.map_congr_left fun d hd => hf₁ d (hb.below_subset hk d hd)]
  · rw [hhandles, List.map_cons, hf, List.map_congr_left hf₁]
    refine List.nodup_cons.mpr ⟨fun hm => ?_, h₁.nodup⟩
    obtain ⟨k, hk, he⟩ := List.mem_map.mp hm
    exact ne_of_contains hbud.contains_leaf (h₁.fresh k hk) he.symm
  · intro k hk
    rw [hhandles, List.map_cons, hf, List.map_congr_left hf₁, List.mem_cons]
    rcases h₁.covered k hk with hk | hk
    · exact (hbud.covered k hk).imp_right Or.inl
    · exact Or.inr (Or.inr hk)
  · rw [h₁.settings, hbud.settings]

/-- The trees beside the first one are copied after it below the same target. -/
theorem beside {G₁ : Forest C} {f₂ : Handle → Handle} (hF : F.Bears (.tree h b r))
    (ht : F.contains t = true) (htst : t ∉ (Stand.tree h b r).handles)
    (h₁ : F.CopiedBelow G₁ (.tree h b .bare) t f) (h₂ : G₁.CopiedBelow G r t f₂)
    (hf₂ : ∀ k ∈ r.handles, f k = f₂ k) : F.CopiedBelow G (.tree h b r) t f := by
  obtain ⟨hh, hbelow, hb, hr⟩ := hF
  have hfirst : F.Bears (.tree h b .bare) := ⟨hh, hbelow, hb, trivial⟩
  have hhandles : (Stand.tree h b r).handles = (Stand.tree h b .bare).handles ++ r.handles := by
    simp [Stand.handles]
  have hin : ∀ k ∈ r.handles, F.contains k = true ∧ k ≠ t := fun k hk =>
    ⟨hr.contains hk, fun he => htst (by simp [Stand.handles, ← he, hk])⟩
  have ht₁ := h₁.contains_target ht
  have hold : ∀ k ∈ r.handles, G₁.get? k = F.get? k := fun k hk =>
    h₁.old k (hin k hk).1 (hin k hk).2
  have hcopy : ∀ k ∈ (Stand.tree h b .bare).handles, G₁.contains (f k) = true ∧ f k ≠ t :=
    fun k hk => ⟨h₁.contains_copy hfirst hk, (ne_of_contains ht (h₁.fresh k hk)).symm⟩
  refine ⟨h₂.wellFormed, ?_, ⟨?_, ?_, ?_⟩, ?_, ?_, ?_, ?_, ?_, ?_⟩
  · intro k hk hkt
    rw [h₂.old k (h₁.contains ht hk) hkt, h₁.old k hk hkt]
  · rw [h₂.target.1, h₁.target.1]
  · rw [h₂.target.2.1, h₁.target.2.1]
  · rw [h₂.target.2.2, h₁.target.2.2, List.append_assoc,
      ← List.map_congr_left fun k hk => hf₂ k (Stand.mem_handles_of_mem_tops hk)]
    rfl
  · intro k hk
    rw [hhandles] at hk
    rcases List.mem_append.mp hk with hk | hk
    · exact h₁.fresh k hk
    · rw [hf₂ k hk]
      exact h₁.not_contains ht (h₂.fresh k hk)
  · intro k hk
    rw [hhandles] at hk
    rcases List.mem_append.mp hk with hk | hk
    · rw [h₂.contentOf?_of_old (hcopy k hk).1, h₁.contentOf?_eq k hk]
    · rw [hf₂ k hk, h₂.contentOf?_eq k hk, contentOf?, hold k hk, contentOf?]
  · intro k hk
    rw [hhandles] at hk
    rcases List.mem_append.mp hk with hk | hk
    · rw [h₂.below_of_old (hcopy k hk).1 (hcopy k hk).2, h₁.below_eq k hk]
    · rw [hf₂ k hk, h₂.below_eq k hk, below, hold k hk, ← below,
        List.map_congr_left fun d hd => hf₂ d (hr.below_subset hk d hd)]
  · rw [hhandles, List.map_append, List.map_congr_left hf₂]
    refine List.nodup_append.mpr ⟨h₁.nodup, h₂.nodup, fun x hx y hy => ?_⟩
    obtain ⟨k, hk, rfl⟩ := List.mem_map.mp hx
    obtain ⟨l, hl, rfl⟩ := List.mem_map.mp hy
    exact ne_of_contains (hcopy k hk).1 (h₂.fresh l hl)
  · intro k hk
    rw [hhandles, List.map_append, List.map_congr_left hf₂, List.mem_append]
    rcases h₂.covered k hk with hk | hk
    · exact (h₁.covered k hk).imp_right Or.inl
    · exact Or.inr (Or.inr hk)
  · rw [h₂.settings, h₁.settings]

end CopiedBelow

/-- The subtree of `c` in `G` is a copy of the subtree of `h` in `F`, made of new nodes; `f` gives the
copy of each node. -/
structure DeepCopy (F G : Forest C) (h c : Handle) (f : Handle → Handle) : Prop where
  root : f h = c
  fresh : ∀ k, F.Covers h k → F.contains (f k) = false
  contentOf?_eq : ∀ k, F.Covers h k → G.contentOf? (f k) = F.contentOf? k
  below_eq : ∀ k, F.Covers h k → G.below (f k) = (F.below k).map f
  injective : ∀ k l, F.Covers h k → F.Covers h l → f k = f l → k = l
  covered : ∀ k, G.contains k = true → F.contains k = true ∨ ∃ l, F.Covers h l ∧ k = f l

theorem DeepCopy.fresh_root (hG : F.DeepCopy G h c f) : F.contains c = false :=
  hG.root ▸ hG.fresh h covers_refl

/-- Only the links of an old node have to do with where the root of a copy is linked. -/
theorem DeepCopy.relink {E : Forest C} (hG : F.DeepCopy G h c f) (hp : F.contains p = true)
    (hcontent : ∀ k, E.contentOf? k = G.contentOf? k)
    (hbelow : ∀ k, k ≠ p → E.below k = G.below k) : F.DeepCopy E h c f := by
  refine ⟨hG.root, hG.fresh, ?_, ?_, hG.injective, ?_⟩
  · intro k hk
    rw [hcontent, hG.contentOf?_eq k hk]
  · intro k hk
    rw [hbelow (f k) (ne_of_contains hp (hG.fresh k hk)).symm, hG.below_eq k hk]
  · intro k hk
    rw [contains_eq_of_contentOf?_eq (hcontent k)] at hk
    exact hG.covered k hk

theorem WellFormed.covers_iff_of_bears (hF : F.WellFormed) (hb : F.Bears b)
    (htops : b.tops = F.below h) : F.Covers h k ↔ k = h ∨ k ∈ b.handles := by
  rw [hF.mem_handles_iff hb, htops]
  constructor
  · intro hc
    rcases Relation.ReflTransGen.cases_head hc with rfl | ⟨d, hd, hdk⟩
    · exact Or.inl rfl
    · exact Or.inr ⟨d, hF.above?_eq_some_iff.mp hd, hdk⟩
  · rintro (rfl | ⟨d, hd, hdk⟩)
    · exact covers_refl
    · exact Relation.ReflTransGen.head (hF.above?_eq_some_iff.mpr hd) hdk

theorem WellFormed.exists_bears_below (hF : F.WellFormed) (hh : F.contains h = true) :
    ∃ b, F.Bears b ∧ b.tops = F.below h ∧ b.handles.Nodup ∧ h ∉ b.handles := by
  obtain ⟨b, hb, htops⟩ := hF.exists_bears hh
  refine ⟨b, hb, htops, ?_, fun hm => ?_⟩
  · exact hF.nodup_handles hb (q := some h)
      (fun d hd => hF.above?_eq_some_iff.mpr (htops ▸ hd)) (htops ▸ hF.nodup_below h)
  · obtain ⟨d, hd, hdh⟩ := (hF.mem_handles_iff hb).mp hm
    rw [htops] at hd
    exact hF.not_covers_of_over (hF.above?_eq_some_iff.mpr hd) hdh

/-- A new root whose children are a copy of the children of a node is a deep copy of the node. -/
theorem CopiedBelow.deepCopy {content : C} {f₁ : Handle → Handle} (hF : F.WellFormed)
    (hb : F.Bears b) (htops : b.tops = F.below h) (hh : F.contentOf? h = some content)
    (hG : (F.plant content).2.CopiedBelow G b (F.plant content).1 f₁) (hf : f h = (F.plant content).1)
    (hf₁ : ∀ k ∈ b.handles, f k = f₁ k) : F.DeepCopy G h (F.plant content).1 f := by
  have hplant := hF.sprouted_plant content
  have hmem : ∀ k, F.Covers h k → k = h ∨ k ∈ b.handles := fun k hk =>
    (hF.covers_iff_of_bears hb htops).mp hk
  have hold : ∀ k ∈ b.handles, (F.plant content).2.get? k = F.get? k := fun k hk =>
    hplant.old.get? k (hb.contains hk)
  refine ⟨hf, ?_, ?_, ?_, ?_, ?_⟩
  · intro k hk
    rcases hmem k hk with rfl | hk
    · rw [hf, hplant.fresh]
    · rw [hf₁ k hk]
      exact hplant.old.not_contains (hG.fresh k hk)
  · intro k hk
    rcases hmem k hk with rfl | hk
    · rw [hf, hG.target.1, contentOf?_plant, if_pos rfl, hh]
    · rw [hf₁ k hk, hG.contentOf?_eq k hk, contentOf?, hold k hk, contentOf?]
  · intro k hk
    rcases hmem k hk with rfl | hk
    · rw [hf, hG.target.2.2, below_plant, below_eq_nil_of_not_contains hplant.fresh,
        List.nil_append, htops,
        List.map_congr_left fun d hd => hf₁ d (Stand.mem_handles_of_mem_tops (htops ▸ hd))]
    · rw [hf₁ k hk, hG.below_eq k hk, below_plant,
        List.map_congr_left fun d hd => hf₁ d (hb.below_subset hk d hd)]
  · intro k l hk hl hkl
    have hne : ∀ d ∈ b.handles, f d ≠ (F.plant content).1 := fun d hd => by
      rw [hf₁ d hd]
      exact (ne_of_contains hplant.contains (hG.fresh d hd)).symm
    rcases hmem k hk with hkh | hkb <;> rcases hmem l hl with hlh | hlb
    · rw [hkh, hlh]
    · exact absurd (hkl.symm.trans (hkh ▸ hf)) (hne l hlb)
    · exact absurd (hkl.trans (hlh ▸ hf)) (hne k hkb)
    · rw [hf₁ k hkb, hf₁ l hlb] at hkl
      exact List.inj_on_of_nodup_map hG.nodup hkb hlb hkl
  · intro k hk
    rcases hG.covered k hk with hk | hk
    · rcases (contains_plant F content k).mp hk with rfl | hk
      · exact Or.inr ⟨h, covers_refl, hf.symm⟩
      · exact Or.inl hk
    · obtain ⟨l, hl, rfl⟩ := List.mem_map.mp hk
      exact Or.inr ⟨l, (hF.covers_iff_of_bears hb htops).mpr (Or.inr hl), (hf₁ l hl).symm⟩

end Forest

namespace EditM
variable {C : Type} [ShallowCopy C] {s u : Session C} {c h t : Handle}

/-- The nodes below a node are copied in the order of their stand, and there is time for all. -/
theorem copyBelow_plant (hF : s.forest.WellFormed) (hh : s.forest.contains h = true) {b : Stand}
    (hb : s.forest.Bears b) (htops : b.tops = s.forest.below h) (hnd : b.handles.Nodup)
    (content : C) :
    ∃ n, copyBelow h (s.forest.plant content).1 (s.withForest (s.forest.plant content).2) =
      copyPending (b.handles.length + n) (b.tops.map (·, (s.forest.plant content).1) ++ [])
        (s.withForest (s.forest.plant content).2) := by
  have hplant := hF.sprouted_plant content
  have hlen : b.handles.length ≤ (s.forest.plant content).2.nodes.capacity :=
    Nat.le_trans (Forest.length_le_size hnd fun k hk => hplant.old.contains (hb.contains hk))
      (Forest.size_le_capacity _)
  obtain ⟨n, hn⟩ := Nat.exists_eq_add_of_le hlen
  have heq := copyBelow_eq (s := s.withForest (s.forest.plant content).2)
    (hplant.old.contains hh) (s.forest.plant content).1
  rw [Session.forest_withForest, Forest.below_plant, ← htops, hn, ← List.append_nil (List.map _ _)]
    at heq
  exact ⟨n, heq⟩

variable [RegularCopy C]

/-- The first pending node is copied and linked below its target; its children are pending then. -/
theorem copyPending_first {m : Node C} (n : Nat) (pending : List (Handle × Handle))
    (hF : s.forest.WellFormed) (hm : s.forest.get? h = some m)
    (hcopyable : RegularCopy.copyable m.content = true) (ht : s.forest.contains t = true)
    (hht : h ≠ t) :
    ∃ c F, copyPending (n + 1) ((h, t) :: pending) s =
        copyPending n ((s.forest.below h).map (·, c) ++ pending) (s.withForest F) ∧
      s.forest.Budded F t c m.content := by
  have hh : s.forest.contains h = true := Forest.contains_iff.mpr ⟨m, hm⟩
  have hcopy := copyBare_of_copyable hm hcopyable
  have hattach := attachLast_plant hF ht m.content
  have hbud := hF.budded_link ht m.content
  generalize (s.forest.plant m.content).1 = c at hcopy hattach hbud
  generalize (s.forest.plant m.content).2.link t (s.forest.below t).length c = F at hattach hbud
  have hkids := query_children (s := s.withForest F) (h := h) (hbud.contains ht hh)
  rw [Session.forest_withForest, Forest.below, hbud.old h hh hht, ← Forest.below] at hkids
  exact ⟨c, F, copyPending_cons n pending hcopy hattach hkids, hbud⟩

/-- The nodes of a stand, all of them copyable, are copied below the target while the rest of the
pending list waits. -/
theorem copyPending_run (st : Stand) (n : Nat) (pending : List (Handle × Handle))
    (hF : s.forest.WellFormed) (hst : s.forest.Bears st) (hnd : st.handles.Nodup)
    (ht : s.forest.contains t = true) (htst : t ∉ st.handles)
    (hcopyable : ∀ k ∈ st.handles, ∀ m, s.forest.get? k = some m →
      RegularCopy.copyable m.content = true) :
    ∃ G f, copyPending (st.handles.length + n) (st.tops.map (·, t) ++ pending) s =
        copyPending n pending (s.withForest G) ∧ s.forest.CopiedBelow G st t f := by
  induction st generalizing s t n pending with
  | bare =>
    refine ⟨s.forest, id, ?_, .bare hF t id⟩
    simp [Stand.handles, Stand.tops]
  | tree h b r ihb ihr =>
    obtain ⟨hh, hbelow, hb, hr⟩ := hst
    obtain ⟨-, hndbr⟩ := List.nodup_cons.mp hnd
    obtain ⟨hndb, hndr, -⟩ := List.nodup_append.mp hndbr
    obtain ⟨m, hm⟩ := Forest.contains_iff.mp hh
    have hht : h ≠ t := fun he => htst (by simp [Stand.handles, he])
    have htb : t ∉ b.handles := fun hm => htst (by simp [Stand.handles, hm])
    have htr : t ∉ r.handles := fun hm => htst (by simp [Stand.handles, hm])
    -- the first top is copied and linked below the target
    obtain ⟨c, F₁, hfirst, hbud⟩ := copyPending_first (b.handles.length + (r.handles.length + n))
      (r.tops.map (·, t) ++ pending) hF hm (hcopyable h List.mem_cons_self m hm) ht hht
    rw [hbelow] at hfirst
    -- what stands below it is copied below the copy
    have hb₁ := hbud.get?_handles hb htb
    obtain ⟨G₁, f₁, hrun₁, h₁⟩ := ihb (s := s.withForest F₁) (t := c) (r.handles.length + n)
      (r.tops.map (·, t) ++ pending) hbud.wellFormed (hb.congr hb₁) hndb hbud.contains_leaf
      (fun hc => hbud.ne_leaf (hb.contains hc) rfl) fun k hk m' hm' =>
        hcopyable k (by simp [Stand.handles, hk]) m' (hb₁ k hk ▸ hm')
    -- the rest is copied below the target
    have hr₁ := h₁.get?_handles_beside hbud ht hr htr
    obtain ⟨G, f₂, hrun₂, h₂⟩ := ihr (s := s.withForest G₁) (t := t) n pending h₁.wellFormed
      (hr.congr hr₁) hndr (h₁.contains hbud.contains_leaf (hbud.contains ht ht)) htr
      fun k hk m' hm' => hcopyable k (by simp [Stand.handles, hk]) m' (hr₁ k hk ▸ hm')
    have hlen : (Stand.tree h b r).handles.length + n =
        b.handles.length + (r.handles.length + n) + 1 := by
      rw [Stand.handles, List.length_cons, List.length_append]
      omega
    obtain ⟨f, hf, hf₁, hf₂⟩ := Stand.exists_glue hnd c f₁ f₂
    have htfirst : t ∉ (Stand.tree h b .bare).handles := by
      simp only [Stand.handles, List.mem_cons, List.mem_append, not_or] at htst ⊢
      exact ⟨htst.1, htst.2.1, List.not_mem_nil⟩
    have hsingle : s.forest.CopiedBelow G₁ (.tree h b .bare) t f :=
      .single ⟨hh, hbelow, hb, trivial⟩ ht htfirst (Forest.contentOf?_of_get? hm) hbud h₁ hf hf₁
    refine ⟨G, f, ?_, hsingle.beside ⟨hh, hbelow, hb, hr⟩ ht htst h₂ hf₂⟩
    rw [hlen]
    exact hfirst.trans (hrun₁.trans hrun₂)

/-- If one of the nodes of a stand is not copyable, the copying stops there. -/
theorem copyPending_fails (st : Stand) (n : Nat) (pending : List (Handle × Handle))
    (hF : s.forest.WellFormed) (hst : s.forest.Bears st) (hnd : st.handles.Nodup)
    (ht : s.forest.contains t = true) (htst : t ∉ st.handles)
    (hbad : ∃ k ∈ st.handles, ∃ m, s.forest.get? k = some m ∧
      RegularCopy.copyable m.content = false) :
    ∃ line u, copyPending (st.handles.length + n) (st.tops.map (·, t) ++ pending) s =
      .error (.invariantViolation (.linkedCopy line)) u := by
  induction st generalizing s t n pending with
  | bare =>
    obtain ⟨k, hk, -⟩ := hbad
    exact absurd hk List.not_mem_nil
  | tree h b r ihb ihr =>
    obtain ⟨hh, hbelow, hb, hr⟩ := hst
    obtain ⟨-, hndbr⟩ := List.nodup_cons.mp hnd
    obtain ⟨hndb, hndr, -⟩ := List.nodup_append.mp hndbr
    obtain ⟨m, hm⟩ := Forest.contains_iff.mp hh
    have hht : h ≠ t := fun he => htst (by simp [Stand.handles, he])
    have htb : t ∉ b.handles := fun hm => htst (by simp [Stand.handles, hm])
    have htr : t ∉ r.handles := fun hm => htst (by simp [Stand.handles, hm])
    have hlen : (Stand.tree h b r).handles.length + n =
        b.handles.length + (r.handles.length + n) + 1 := by
      rw [Stand.handles, List.length_cons, List.length_append]
      omega
    rw [hlen]
    cases hc : RegularCopy.copyable m.content with
    | false =>
      obtain ⟨line, u, hcopy, -⟩ := copyBare_of_not_copyable hF hm hc
      refine ⟨line, u, ?_⟩
      simp only [Stand.tops, List.map_cons, List.cons_append, copyPending, bind_of_error _ hcopy]
    | true =>
      obtain ⟨c, F₁, hfirst, hbud⟩ := copyPending_first (b.handles.length + (r.handles.length + n))
        (r.tops.map (·, t) ++ pending) hF hm hc ht hht
      rw [hbelow] at hfirst
      have hb₁ := hbud.get?_handles hb htb
      have hcb : c ∉ b.handles := fun hm => hbud.ne_leaf (hb.contains hm) rfl
      by_cases hgood : ∀ k ∈ b.handles, ∀ m', s.forest.get? k = some m' →
          RegularCopy.copyable m'.content = true
      · -- what stands below the first top is copied, so the fault is beside it
        obtain ⟨G₁, f₁, hrun₁, h₁⟩ := copyPending_run (s := s.withForest F₁) (t := c) b
          (r.handles.length + n) (r.tops.map (·, t) ++ pending) hbud.wellFormed (hb.congr hb₁) hndb
          hbud.contains_leaf hcb fun k hk m' hm' => hgood k hk m' (hb₁ k hk ▸ hm')
        have hr₁ := h₁.get?_handles_beside hbud ht hr htr
        obtain ⟨line, u, hfail⟩ := ihr (s := s.withForest G₁) (t := t) n pending h₁.wellFormed
          (hr.congr hr₁) hndr (h₁.contains hbud.contains_leaf (hbud.contains ht ht)) htr (by
            obtain ⟨k, hk, m', hm', hbad⟩ := hbad
            rcases List.mem_cons.mp hk with rfl | hk
            · rw [hm] at hm'
              cases hm'
              exact absurd hc (by simp [hbad])
            · rcases List.mem_append.mp hk with hk | hk
              · exact absurd (hgood k hk m' hm') (by simp [hbad])
              · exact ⟨k, hk, m', (hr₁ k hk).trans hm', hbad⟩)
        exact ⟨line, u, hfirst.trans (hrun₁.trans hfail)⟩
      · obtain ⟨k, hk, m', hm', hbad⟩ : ∃ k ∈ b.handles, ∃ m', s.forest.get? k = some m' ∧
            RegularCopy.copyable m'.content = false := by simpa using hgood
        obtain ⟨line, u, hfail⟩ := ihb (s := s.withForest F₁) (t := c) (r.handles.length + n)
          (r.tops.map (·, t) ++ pending) hbud.wellFormed (hb.congr hb₁) hndb hbud.contains_leaf hcb
          ⟨k, hk, m', (hb₁ k hk).trans hm', hbad⟩
        exact ⟨line, u, hfirst.trans hfail⟩

/-- A subtree of copyable nodes is copied as it stands. -/
theorem copy_run (hF : s.forest.WellFormed) (hh : s.forest.contains h = true)
    (hcopyable : ∀ k m, s.forest.Covers h k → s.forest.get? k = some m →
      RegularCopy.copyable m.content = true) :
    ∃ c t f, copy h s = .ok c t ∧ s.forest.Sprouted t.forest c ∧
      s.forest.DeepCopy t.forest h c f := by
  obtain ⟨m, hm⟩ := Forest.contains_iff.mp hh
  obtain ⟨b, hb, htops, hnd, hhnot⟩ := hF.exists_bears_below hh
  have hcopy := copyBare_of_copyable hm (hcopyable h m Forest.covers_refl hm)
  have hplant := hF.sprouted_plant m.content
  have hold : ∀ k ∈ b.handles, (s.forest.plant m.content).2.get? k = s.forest.get? k :=
    fun k hk => hplant.old.get? k (hb.contains hk)
  obtain ⟨n, hbelow⟩ := copyBelow_plant hF hh hb htops hnd m.content
  obtain ⟨G, f₁, hrun, hG⟩ := copyPending_run (s := s.withForest (s.forest.plant m.content).2)
    (t := (s.forest.plant m.content).1) b n [] hplant.wellFormed (hb.congr hold) hnd
    hplant.contains (fun hc => by simpa [hplant.fresh] using hb.contains hc) fun k hk m' hm' =>
      hcopyable k m' ((hF.covers_iff_of_bears hb htops).mpr (Or.inr hk)) (hold k hk ▸ hm')
  have hbelow' : copyBelow h (s.forest.plant m.content).1
      (s.withForest (s.forest.plant m.content).2) = .ok () (s.withForest G) := by
    rw [hbelow, hrun]
    cases n <;> rfl
  have hcopied : copy h s = .ok (s.forest.plant m.content).1 (s.withForest G) := by
    rw [copy, bind_of_ok _ hcopy, bind_of_ok _ (onFailure_of_ok _ hbelow')]
    rfl
  refine ⟨_, _, fun k => if k = h then (s.forest.plant m.content).1 else f₁ k, hcopied, ?_,
    hG.deepCopy hF hb htops (Forest.contentOf?_of_get? hm) (if_pos rfl) ?_⟩
  · rcases copy_outcome hF h with ⟨c, t, hok, hsprout⟩ | ⟨e, t, herror, -⟩
    · rw [hcopied] at hok
      cases hok
      exact hsprout
    · rw [hcopied] at herror
      exact absurd herror (by simp)
  · intro k hk
    have hne : k ≠ h := fun he => hhnot (he ▸ hk)
    exact if_neg hne

/-- A subtree with a node that is not copyable is not copied, and nothing is left behind. -/
theorem copy_of_not_copyable (hF : s.forest.WellFormed) (hh : s.forest.contains h = true)
    (hbad : ∃ k m, s.forest.Covers h k ∧ s.forest.get? k = some m ∧
      RegularCopy.copyable m.content = false) :
    ∃ line t, copy h s = .error (.invariantViolation (.linkedCopy line)) t ∧
      t.forest.SameNodes s.forest := by
  obtain ⟨m, hm⟩ := Forest.contains_iff.mp hh
  have hfails : ∃ line t, copy h s = .error (.invariantViolation (.linkedCopy line)) t := by
    cases hc : RegularCopy.copyable m.content with
    | false =>
      obtain ⟨line, t, hcopy, -⟩ := copyBare_of_not_copyable hF hm hc
      exact ⟨line, t, by rw [copy, bind_of_error _ hcopy]⟩
    | true =>
      obtain ⟨b, hb, htops, hnd, -⟩ := hF.exists_bears_below hh
      have hcopy := copyBare_of_copyable hm hc
      have hplant := hF.sprouted_plant m.content
      have hold : ∀ k ∈ b.handles, (s.forest.plant m.content).2.get? k = s.forest.get? k :=
        fun k hk => hplant.old.get? k (hb.contains hk)
      obtain ⟨k, m', hk, hm', hbad⟩ := hbad
      have hkb : k ∈ b.handles := by
        rcases (hF.covers_iff_of_bears hb htops).mp hk with rfl | hkb
        · rw [hm] at hm'
          cases hm'
          exact absurd hc (by simp [hbad])
        · exact hkb
      obtain ⟨n, hbelow⟩ := copyBelow_plant hF hh hb htops hnd m.content
      obtain ⟨line, u, hfail⟩ := copyPending_fails
        (s := s.withForest (s.forest.plant m.content).2) (t := (s.forest.plant m.content).1) b n []
        hplant.wellFormed (hb.congr hold) hnd hplant.contains
        (fun hc => by simpa [hplant.fresh] using hb.contains hc)
        ⟨k, hkb, m', (hold k hkb).trans hm', hbad⟩
      obtain ⟨v, hrelease⟩ := release_run (s.forest.plant m.content).1 u
      exact ⟨line, v, by rw [copy, bind_of_ok _ hcopy,
        bind_of_error _ (onFailure_of_error (hbelow.trans hfail) hrelease)]⟩
  obtain ⟨line, t, hrun⟩ := hfails
  rcases copy_outcome hF h with ⟨c, u, hok, -⟩ | ⟨e, u, herror, hsame⟩
  · rw [hrun] at hok
    exact absurd hok (by simp)
  · cases hrun.symm.trans herror
    exact ⟨line, _, hrun, hsame⟩

end EditM
end Grove
