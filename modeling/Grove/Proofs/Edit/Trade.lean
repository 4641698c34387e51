import Grove.Proofs.Edit.Sibling
import Grove.Proofs.Edit.Swap

/-!
# Swaps of two subtrees

While two subtrees trade places, a placeholder stands for the first one. If the copy hook gives the
root of a new tree as placeholder, the three replacements cannot fail, for none of the nodes that they
put in is above the place where it is put; and in the end nothing is left of that tree.
-/

namespace Grove
set_option autoImplicit false

namespace Forest
variable {C : Type} {E F G : Forest C} {a b base c k h p q x : Handle}

/-- What the first question of a swap tells if the answer is no. -/
theorem WellFormed.not_covers_of_nested (hF : F.WellFormed) (hne : a ≠ b)
    (hnested : (do if ← F.isAncestor a b then return true
                   F.isAncestor b a) = Except.ok false) : ¬ F.Covers a b ∧ ¬ F.Covers b a := by
  cases ha : F.isAncestor a b with
  | error e =>
    rw [ha] at hnested
    exact nomatch hnested
  | ok r =>
    rw [ha] at hnested
    cases r with
    | true => exact nomatch hnested
    | false =>
      have hb : F.isAncestor b a = .ok false := hnested
      constructor
      · exact not_covers_of_not_above hne (hF.not_above_of_isAncestor hb)
      · exact not_covers_of_not_above hne.symm (hF.not_above_of_isAncestor ha)

/-- What the second question of a swap tells if the answer is yes. -/
theorem parents_of_owned
    (howned : (do if !(← F.hasParent a) then return false
                  F.hasParent b) = Except.ok true) :
    (∃ p, F.above? a = some p) ∧ ∃ q, F.above? b = some q := by
  cases ha : F.hasParent a with
  | error e =>
    rw [ha] at howned
    exact nomatch howned
  | ok r =>
    rw [ha] at howned
    cases r with
    | false => exact nomatch howned
    | true =>
      have hb : F.hasParent b = .ok true := howned
      exact ⟨Option.isSome_iff_exists.mp (Forest.hasParent_eq_ok ha).2,
        Option.isSome_iff_exists.mp (Forest.hasParent_eq_ok hb).2⟩

/-- `G` has the root `x` of `F` in the place of `base`, below `p`. -/
structure Replaced (F G : Forest C) (p base x : Handle) : Prop where
  wellFormed : G.WellFormed
  contentOf?_eq : ∀ k, G.contentOf? k = F.contentOf? k
  above?_eq : ∀ k, G.above? k = if k = base then none else if k = x then some p else F.above? k
  below_eq : ∀ k, G.below k = (F.below k).map fun h => if h = base then x else h
  covers : ∀ {k h}, G.Covers k h → F.Covers k h ∨ F.Covers k p ∧ F.Covers x h
  settings : G.settings = F.settings

theorem replaced_substitute {i : Nat} (hF : F.WellFormed) (hi : (F.below p)[i]? = some base)
    (hx : F.contains x = true) (hroot : F.above? x = none) (hnot : ¬ F.Covers x p) :
    F.Replaced (F.substitute p i x base) p base x := by
  have hmem := List.mem_of_getElem? hi
  have hb := hF.contains_of_mem_below hmem
  refine ⟨hF.substitute hi hx hroot hnot, contentOf?_substitute F p i x base,
    above?_substitute hx hb, fun k => ?_, covers_of_substitute hx hb, rfl⟩
  rw [below_substitute (contains_of_mem_below hmem)]
  by_cases hk : k = p
  · rw [if_pos hk, hk, set_eq_map (hF.nodup_below p) hi]
  · -- nobody else lists the base
    have hrest : (F.below k).map (fun h => if h = base then x else h) = (F.below k).map id := by
      refine List.map_congr_left fun h hh => if_neg ?_
      rintro rfl
      have hup := hF.above?_eq_some_iff.mpr hh
      rw [hF.above?_eq_some_iff.mpr hmem] at hup
      exact hk (Option.some.inj hup).symm
    rw [if_neg hk, hrest, List.map_id]

namespace Replaced

theorem contains_eq (hG : F.Replaced G p base x) (k : Handle) : G.contains k = F.contains k :=
  contains_eq_of_contentOf?_eq (hG.contentOf?_eq k)

theorem covers_of_not (hG : F.Replaced G p base x) (hnot : ¬ F.Covers k p) (hc : G.Covers k h) :
    F.Covers k h :=
  (hG.covers hc).resolve_right fun hp => hnot hp.1

end Replaced

/-- `G` is `F` with the subtrees of `a` and `b` in each other's places. -/
structure Traded (F G : Forest C) (a b : Handle) : Prop where
  wellFormed : G.WellFormed
  live : F.contains a = true ∧ F.contains b = true
  contentOf?_eq : ∀ k, G.contentOf? k = F.contentOf? k
  above?_eq : ∀ k, G.above? k = F.above? (Handle.exchange a b k)
  below_eq : ∀ k, G.below k = (F.below k).map (Handle.exchange a b)
  settings : G.settings = F.settings

theorem Traded.contains_eq (hG : F.Traded G a b) (k : Handle) : G.contains k = F.contains k :=
  contains_eq_of_contentOf?_eq (hG.contentOf?_eq k)

theorem Traded.size_eq (hG : F.Traded G a b) : G.size = F.size := size_congr hG.contains_eq

/-- The placeholder `c` takes the place of `a`, `a` that of `b`, and `b` that of the placeholder. -/
structure Rotated (F E G : Forest C) (a b c p q : Handle) : Prop where
  sprouted : F.Sprouted E c
  parents : F.above? a = some p ∧ F.above? b = some q
  rotated : ∃ F₁ F₂, E.Replaced F₁ p a c ∧ F₁.Replaced F₂ q b a ∧ F₂.Replaced G p c b

namespace Rotated

theorem wellFormed (h : Rotated F E G a b c p q) : G.WellFormed := by
  obtain ⟨_, _, -, -, h₃⟩ := h.rotated
  exact h₃.wellFormed

theorem contentOf?_eq (h : Rotated F E G a b c p q) (k : Handle) :
    G.contentOf? k = E.contentOf? k := by
  obtain ⟨_, _, h₁, h₂, h₃⟩ := h.rotated
  rw [h₃.contentOf?_eq, h₂.contentOf?_eq, h₁.contentOf?_eq]

theorem ne_placeholder (h : Rotated F E G a b c p q) (hk : F.contains k = true) : k ≠ c :=
  ne_of_contains hk h.sprouted.fresh

theorem root (h : Rotated F E G a b c p q) : G.above? c = none := by
  obtain ⟨_, _, -, -, h₃⟩ := h.rotated
  rw [h₃.above?_eq, if_pos rfl]

theorem above?_of_old (h : Rotated F E G a b c p q) (hk : F.contains k = true) :
    G.above? k = F.above? (Handle.exchange a b k) := by
  obtain ⟨_, _, h₁, h₂, h₃⟩ := h.rotated
  obtain ⟨hp, hq⟩ := h.parents
  have hkc := h.ne_placeholder hk
  rw [h₃.above?_eq, if_neg hkc, h₂.above?_eq, h₁.above?_eq, if_neg hkc,
    h.sprouted.old.above?_eq hk, Handle.exchange]
  by_cases hka : k = a
  · by_cases hkb : k = b
    · rw [if_pos hkb, if_pos hka, ← hkb, hka, hp]
    · rw [if_neg hkb, if_neg hkb, if_pos hka, if_pos hka, hq]
  · by_cases hkb : k = b
    · rw [if_pos hkb, if_neg hka, if_pos hkb, hp]
    · rw [if_neg hkb, if_neg hkb, if_neg hka, if_neg hka, if_neg hka, if_neg hkb]

theorem below_of_old (h : Rotated F E G a b c p q) (hF : F.WellFormed)
    (hk : F.contains k = true) : G.below k = (F.below k).map (Handle.exchange a b) := by
  obtain ⟨_, _, h₁, h₂, h₃⟩ := h.rotated
  rw [h₃.below_eq, h₂.below_eq, h₁.below_eq, h.sprouted.old.below_eq hk, List.map_map, List.map_map]
  refine List.map_congr_left fun d hd => ?_
  have hdc := h.ne_placeholder (hF.contains_of_mem_below hd)
  have hac := h.ne_placeholder (contains_of_above? h.parents.1)
  have hbc := h.ne_placeholder (contains_of_above? h.parents.2)
  simp only [Function.comp_apply, Handle.exchange]
  by_cases hda : d = a
  · rw [if_pos hda, if_pos hda, if_neg hbc.symm, if_pos rfl]
  · by_cases hdb : d = b
    · rw [if_neg hda, if_neg hda, if_pos hdb, if_neg hac]
    · rw [if_neg hda, if_neg hda, if_neg hdb, if_neg hdc]

/-- The tree of the placeholder is what it was. -/
theorem covers_iff (h : Rotated F E G a b c p q) (hF : F.WellFormed) :
    G.Covers c k ↔ E.Covers c k := by
  obtain ⟨F₁, F₂, h₁, h₂, h₃⟩ := h.rotated
  obtain ⟨hp, hq⟩ := h.parents
  have hcp := h.sprouted.not_covers hF (hF.contains_of_above? hp)
  have hcq := h.sprouted.not_covers hF (hF.contains_of_above? hq)
  have hcp₂ : ¬ F₂.Covers c p := fun hc =>
    hcp (h₁.covers_of_not hcp (h₂.covers_of_not (fun hc => hcq (h₁.covers_of_not hcp hc)) hc))
  constructor
  · intro hc
    exact h₁.covers_of_not hcp (h₂.covers_of_not (fun hc => hcq (h₁.covers_of_not hcp hc))
      (h₃.covers_of_not hcp₂ hc))
  · intro hc
    induction hc with
    | refl => exact covers_refl
    | tail hcm hmk ih =>
      rename_i m k
      -- the nodes below the placeholder are new, so their parents were not written
      have hck : E.Covers c k := hcm.tail hmk
      have hnew := h.sprouted.not_contains_of_covers hF hck
      have hkc : k ≠ c := by
        rintro rfl
        rw [Over, h.sprouted.root] at hmk
        cases hmk
      have hka := (ne_of_contains (contains_of_above? hp) hnew).symm
      have hkb := (ne_of_contains (contains_of_above? hq) hnew).symm
      refine ih.tail ?_
      rw [Over, h₃.above?_eq, if_neg hkc, if_neg hkb, h₂.above?_eq, if_neg hkb, if_neg hka,
        h₁.above?_eq, if_neg hka, if_neg hkc]
      exact hmk

theorem get?_uproot_of_old (h : Rotated F E G a b c p q) (hF : F.WellFormed) {ds : List Handle}
    (hds : ∀ k, k ∈ ds ↔ E.Covers c k) (hk : F.contains k = true) :
    (G.uproot ds).get? k = G.get? k := by
  rw [get?_uproot, if_neg]
  intro hkds
  exact h.sprouted.not_covers hF hk ((hds k).mp hkds)

theorem get?_uproot_of_new (h : Rotated F E G a b c p q) {ds : List Handle}
    (hds : ∀ k, k ∈ ds ↔ E.Covers c k) (hk : F.contains k = false) :
    (G.uproot ds).get? k = none := by
  rw [get?_uproot]
  by_cases hkds : k ∈ ds
  · rw [if_pos hkds]
  · have hkE : E.contains k = false := by
      refine Bool.eq_false_iff.mpr fun hkE => ?_
      rcases h.sprouted.covered k hkE with hkF | hc
      · exact ne_of_contains hkF hk rfl
      · exact hkds ((hds k).mpr hc)
    rw [if_neg hkds, ← not_contains_iff, ← hkE]
    exact contains_eq_of_contentOf?_eq (h.contentOf?_eq k)

/-- Once the placeholder is taken out, the two subtrees have traded places. -/
theorem traded (h : Rotated F E G a b c p q) (hF : F.WellFormed) {ds : List Handle}
    (hds : ∀ k, k ∈ ds ↔ G.Covers c k) : F.Traded (G.uproot ds) a b := by
  have hdsE : ∀ k, k ∈ ds ↔ E.Covers c k := fun k => (hds k).trans (h.covers_iff hF)
  have ha := contains_of_above? h.parents.1
  have hb := contains_of_above? h.parents.2
  refine ⟨h.wellFormed.uproot h.root hds, ⟨ha, hb⟩, fun k => ?_, fun k => ?_, fun k => ?_, ?_⟩
  · cases hk : F.contains k with
    | true =>
      rw [contentOf?, h.get?_uproot_of_old hF hdsE hk, ← contentOf?, h.contentOf?_eq,
        h.sprouted.old.contentOf?_eq hk]
    | false => rw [contentOf?, h.get?_uproot_of_new hdsE hk, contentOf?, not_contains_iff.mp hk]
  · cases hk : F.contains k with
    | true => rw [above?, h.get?_uproot_of_old hF hdsE hk, ← above?, h.above?_of_old hk]
    | false =>
      have hfix : Handle.exchange a b k = k :=
        Handle.exchange_of_ne (ne_of_contains ha hk).symm (ne_of_contains hb hk).symm
      rw [above?, h.get?_uproot_of_new hdsE hk, hfix, above?, not_contains_iff.mp hk]
  · cases hk : F.contains k with
    | true => rw [below, h.get?_uproot_of_old hF hdsE hk, ← below, h.below_of_old hF hk]
    | false =>
      rw [below, h.get?_uproot_of_new hdsE hk, below_eq_nil_of_not_contains hk]
      rfl
  · obtain ⟨_, _, h₁, h₂, h₃⟩ := h.rotated
    rw [settings_uproot, h₃.settings, h₂.settings, h₁.settings, h.sprouted.old.settings]

end Rotated
end Forest

namespace EditM
variable {C : Type} [ShallowCopy C] {s t : Session C} {a b base c p q x : Handle}

theorem replace_replaced (hF : s.forest.WellFormed) (move : Bool)
    (hp : s.forest.above? base = some p) (hx : s.forest.contains x = true)
    (hroot : s.forest.above? x = none) (hnot : ¬ s.forest.Covers x base) :
    ∃ G, replace base x move s = .ok x (s.withForest G) ∧ s.forest.Replaced G p base x := by
  obtain ⟨i, hi, hrun⟩ := replace_of_root hF move hp hx hroot hnot
  exact ⟨_, hrun,
    Forest.replaced_substitute hF hi hx hroot (Forest.not_covers_of_over hnot hp)⟩

/-- The replacements of a swap, with the root of a new tree as placeholder. -/
theorem trade_run {F : Forest C} (hF : F.WellFormed) (hs : F.Sprouted s.forest c)
    (hp : F.above? a = some p) (hq : F.above? b = some q) (hab : ¬ F.Covers a b)
    (hba : ¬ F.Covers b a) :
    ∃ t, (do
      discard (replace a c true)
      discard (replace b a true)
      discard (replace c b true)
      discard (dispose c)
      return true : EditM C Bool) s = .ok true t ∧ F.Traded t.forest a b := by
  have ha := Forest.contains_of_above? hp
  have hb := Forest.contains_of_above? hq
  have hca := hs.not_covers hF ha
  have hcb := hs.not_covers hF hb
  have hne_ca := Forest.ne_of_not_covers hca
  have hne_cb := Forest.ne_of_not_covers hcb
  have hne_ab := Forest.ne_of_not_covers hab
  have hold : ∀ {k h}, F.contains h = true → ¬ F.Covers k h → ¬ s.forest.Covers k h :=
    fun hh hnot hc => hnot (hs.old.covers hF hh hc).2
  have hap := hF.not_covers_of_over hp
  have hbp := Forest.not_covers_of_over hba hp
  have hlive_p := hF.contains_of_above? hp
  -- the placeholder takes the place of the first node
  obtain ⟨F₁, hrun₁, hF₁⟩ := replace_replaced hs.wellFormed true
    (by rw [hs.old.above?_eq ha, hp]) hs.contains hs.root hca
  have hab₁ : ¬ F₁.Covers a b := fun h =>
    (hF₁.covers h).elim (hold hb hab) fun h => hcb h.2
  -- the first node takes the place of the second one
  obtain ⟨F₂, hrun₂, hF₂⟩ := replace_replaced (s := s.withForest F₁) hF₁.wellFormed true
    (by rw [Session.forest_withForest, hF₁.above?_eq, if_neg hne_ab.symm, if_neg hne_cb.symm,
      hs.old.above?_eq hb, hq])
    (by rw [Session.forest_withForest, hF₁.contains_eq, hs.old.contains ha])
    (by rw [Session.forest_withForest, hF₁.above?_eq, if_pos rfl]) hab₁
  have hac₁ : ¬ F₁.Covers a c := fun h =>
    (hF₁.covers h).elim (Forest.not_covers_of_root hs.root hne_ca.symm)
      fun h => hold hlive_p hap h.1
  have hbc₁ : ¬ F₁.Covers b c := fun h =>
    (hF₁.covers h).elim (Forest.not_covers_of_root hs.root hne_cb.symm)
      fun h => hold hlive_p hbp h.1
  have hbc₂ : ¬ F₂.Covers b c := fun h => (hF₂.covers h).elim hbc₁ fun h => hac₁ h.2
  -- the second node takes the place of the placeholder
  obtain ⟨F₃, hrun₃, hF₃⟩ := replace_replaced (s := s.withForest F₂) (p := p) hF₂.wellFormed true
    (by rw [Session.forest_withForest, hF₂.above?_eq, if_neg hne_cb, if_neg hne_ca,
      Session.forest_withForest, hF₁.above?_eq, if_neg hne_ca, if_pos rfl])
    (by rw [Session.forest_withForest, hF₂.contains_eq, Session.forest_withForest,
      hF₁.contains_eq, hs.old.contains hb])
    (by rw [Session.forest_withForest, hF₂.above?_eq, if_pos rfl]) hbc₂
  have hrotated : Forest.Rotated F s.forest F₃ a b c p q :=
    ⟨hs, ⟨hp, hq⟩, F₁, F₂, hF₁, hF₂, hF₃⟩
  -- the placeholder is a root again
  obtain ⟨ds, -, -, hds, hrun₄⟩ := dispose_of_root (s := s.withForest F₃) (h := c) hF₃.wellFormed
    (by rw [Session.forest_withForest, hF₃.contains_eq, Session.forest_withForest,
      hF₂.contains_eq, Session.forest_withForest, hF₁.contains_eq, hs.contains]) hrotated.root
  refine ⟨s.withForest (F₃.uproot ds), ?_, hrotated.traded hF hds⟩
  refine (bind_of_ok _ (discard_of_ok hrun₁)).trans ((bind_of_ok _ (discard_of_ok hrun₂)).trans ?_)
  exact (bind_of_ok _ (discard_of_ok hrun₃)).trans (bind_of_ok _ (discard_of_ok hrun₄))

theorem swapSubtrees_traded (hF : s.forest.WellFormed) (hne : a ≠ b)
    (hclean : CleanContent (s.forest.contentOf? a)) (hrun : swapSubtrees a b s = .ok true t) :
    s.forest.Traded t.forest a b := by
  obtain ⟨nested, s₁, hq, hrun⟩ := bind_eq_ok.mp hrun
  obtain ⟨hnested, rfl⟩ := query_eq_ok.mp hq
  cases nested with
  | true => exact nomatch hrun
  | false =>
    obtain ⟨owned, s₂, hq, hrun⟩ := bind_eq_ok.mp hrun
    obtain ⟨howned, rfl⟩ := query_eq_ok.mp hq
    cases owned with
    | false => exact nomatch hrun
    | true =>
      obtain ⟨hab, hba⟩ := hF.not_covers_of_nested hne hnested
      obtain ⟨⟨p, hp⟩, q, hq⟩ := Forest.parents_of_owned howned
      obtain ⟨c, u, hcopy, hrun⟩ := bind_eq_ok.mp hrun
      rcases hclean _ a hF rfl with ⟨c', u', hcopy', hsprout⟩ | ⟨e, u', hcopy', -⟩
      · cases hcopy.symm.trans hcopy'
        obtain ⟨v, htrade, htraded⟩ := trade_run hF hsprout hp hq hab hba
        cases hrun.symm.trans htrade
        exact htraded
      · exact nomatch hcopy.symm.trans hcopy'

end EditM
end Grove
