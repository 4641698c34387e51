import Grove.Proofs.Edit.Sibling

/-!
# Transplants

A transplant sheds the children of the node that is put in, that node itself and the children of the
base. What it has shed are roots then, none of them above the base, so each of them can be linked as it
is: those that the base had become children of the node, in their order, and the node takes the place
of the base. Nothing is copied on the way, whatever the settings are.
-/

namespace Grove
set_option autoImplicit false

namespace Forest
variable {C : Type} {D E F G : Forest C} {base c k p x : Handle} {cs l : List Handle} {i : Nat}

/-! ## Handing over -/

/-- `x` is a root that is to take the place of `base`, and the listed roots are to become children of
`x`. -/
structure Handover (F : Forest C) (p base x : Handle) (cs : List Handle) : Prop where
  wellFormed : F.WellFormed
  contains : F.contains x = true
  root : F.above? x = none
  not_covers : ¬ F.Covers x base
  parent : F.above? base = some p
  pending : ∀ c ∈ cs, F.contains c = true ∧ F.above? c = none ∧ c ≠ x ∧ ¬ F.Covers c base
  nodup : cs.Nodup

theorem Handover.link (hF : F.Handover p base x (c :: cs)) :
    (F.link x (F.below x).length c).Handover p base x cs := by
  obtain ⟨hc, hroot, hne, hnot⟩ := hF.pending c List.mem_cons_self
  have hcx := not_covers_of_root hF.root hne
  have hkeep : ∀ a, ¬ F.Covers a base → ¬ (F.link x (F.below x).length c).Covers a base := by
    intro a ha h
    rcases Relation.reflTransGen_iff_eq_or_transGen.mp h with he | h
    · exact ha (he ▸ .refl)
    · rcases above_of_link hc h with h | ⟨-, h⟩
      · exact ha h.to_reflTransGen
      · exact hnot h
  refine ⟨hF.wellFormed.link hF.contains hc hroot hcx (Nat.le_refl _), ?_, ?_, hkeep x
    hF.not_covers, ?_, ?_, (List.nodup_cons.mp hF.nodup).2⟩
  · simpa using hF.contains
  · rw [above?_link hc, if_neg (Ne.symm hne), hF.root]
  · rw [above?_link hc, if_neg (ne_of_not_covers hnot).symm, hF.parent]
  · intro d hd
    obtain ⟨hd', hdroot, hdx, hdnot⟩ := hF.pending d (List.mem_cons_of_mem c hd)
    have hdc : d ≠ c := fun he => (List.nodup_cons.mp hF.nodup).1 (he ▸ hd)
    exact ⟨by simpa using hd', by rw [above?_link hc, if_neg hdc, hdroot], hdx, hkeep d hdnot⟩

theorem Shed.handover (hG : F.Shed G (F.below x ++ [x] ++ cs)) (hF : F.WellFormed)
    (hp : F.above? base = some p) (hx : F.contains x = true) (hnot : ¬ F.Covers x base)
    (hcs : ∀ c ∈ cs, c ∈ F.below base ∧ c ≠ x) (hnd : cs.Nodup) : G.Handover p base x cs := by
  have hover : ∀ c ∈ cs, F.Over base c := fun c hc => hF.above?_eq_some_iff.mpr (hcs c hc).1
  have hbase : base ∉ F.below x ++ [x] ++ cs := by
    simp only [List.mem_append, List.mem_singleton, not_or]
    refine ⟨⟨?_, (ne_of_not_covers hnot).symm⟩, ?_⟩
    · intro hb
      exact hnot (.single (hF.above?_eq_some_iff.mpr hb))
    · intro hb
      exact hF.acyclic base (.single (hover base hb))
  refine ⟨hG.wellFormed hF, by rw [hG.contains_eq, hx], ?_, fun hc => hnot (hG.covers hc), ?_, fun c
    hc => ⟨?_, ?_, (hcs c hc).2, ?_⟩, hnd⟩
  · rw [hG.above?_eq, if_pos (by simp)]
  · rw [hG.above?_eq, if_neg hbase, hp]
  · rw [hG.contains_eq]
    exact contains_of_above? (hover c hc)
  · rw [hG.above?_eq, if_pos (by simp [hc])]
  · intro h
    exact hF.not_covers_of_over (hover c hc) (hG.covers h)

structure Adopted (F G : Forest C) (x : Handle) (cs : List Handle) : Prop where
  above?_eq : ∀ k, G.above? k = if k ∈ cs then some x else F.above? k
  below_eq : ∀ k, G.below k = if k = x then F.below x ++ cs else F.below k
  contentOf?_eq : ∀ k, G.contentOf? k = F.contentOf? k
  settings : G.settings = F.settings

theorem Adopted.refl (F : Forest C) (x : Handle) : F.Adopted F x [] := by
  refine ⟨fun k => by simp, fun k => ?_, fun _ => rfl, rfl⟩
  split
  · rename_i hk
    rw [hk, List.append_nil]
  · rfl

theorem Adopted.cons (hx : F.contains x = true) (hc : F.contains c = true)
    (hG : (F.link x (F.below x).length c).Adopted G x cs) : F.Adopted G x (c :: cs) where
  above?_eq k := by
    rw [hG.above?_eq, above?_link hc]
    by_cases hk : k ∈ cs
    · rw [if_pos hk, if_pos (List.mem_cons_of_mem c hk)]
    · by_cases hkc : k = c <;> simp [hk, hkc]
  below_eq k := by
    rw [hG.below_eq, below_link hx, if_pos rfl, List.insertIdx_length_self, List.append_assoc,
      List.singleton_append]
    split
    · rfl
    · rename_i hk
      rw [below_link hx, if_neg hk]
  contentOf?_eq k := by rw [hG.contentOf?_eq, contentOf?_link]
  settings := by rw [hG.settings, settings_link]

/-! ## The forest after a transplant -/

/-- `G` is `F` with `x` in the place of `base` below `p`, and with the children of `base` below `x`. -/
structure Transplanted (F G : Forest C) (p base x : Handle) : Prop where
  wellFormed : G.WellFormed
  /-- the children of the base, without `x` if it was one of them -/
  children : G.below x = (F.below base).erase x
  adopted : ∀ c ∈ F.below base, c ≠ x → G.above? c = some x
  place : G.below p = ((F.below p).erase x).map fun h => if h = base then x else h
  parent : G.above? x = some p
  bare : G.above? base = none ∧ G.below base = []
  /-- the former children of `x` are roots, with their own children -/
  discarded : ∀ c ∈ F.below x, G.above? c = none ∧ G.below c = F.below c
  former : ∀ q, F.above? x = some q → q ≠ p → q ≠ base → G.below q = (F.below q).erase x
  above?_eq : ∀ k, k ≠ x → k ≠ base → k ∉ F.below base → k ∉ F.below x → G.above? k = F.above? k
  below_eq : ∀ k, k ≠ p → k ≠ base → k ≠ x → F.above? x ≠ some k → G.below k = F.below k
  contains_eq : ∀ k, G.contains k = F.contains k
  contentOf?_eq : ∀ k, G.contentOf? k = F.contentOf? k
  settings : G.settings = F.settings

theorem WellFormed.filter_below (hF : F.WellFormed) (hl : ∀ c ∈ F.below k, c ∈ l ↔ c = x) :
    ((F.below k).filter fun c => c ∉ l) = (F.below k).erase x := by
  rw [(hF.nodup_below k).erase_eq_filter]
  refine List.filter_congr fun c hc => ?_
  rw [Bool.eq_iff_iff, decide_eq_true_eq, hl c hc, bne_iff_ne]

/-- What is left of the children lists after a transplant has shed what it relinks. -/
theorem Shed.below_of_transplant (hD : F.Shed D (F.below x ++ [x] ++ (F.below base).erase x))
    (hF : F.WellFormed) (k : Handle) :
    D.below k = if k = x ∨ k = base then [] else (F.below k).erase x := by
  rw [hD.below_eq]
  split
  · rename_i hk
    refine List.filter_eq_nil_iff.mpr fun c hc => ?_
    have hmem : c ∈ F.below x ++ [x] ++ (F.below base).erase x := by
      rcases hk with rfl | rfl
      · exact List.mem_append_left _ (List.mem_append_left _ hc)
      · by_cases hcx : c = x
        · simp [hcx]
        · exact List.mem_append_right _ ((List.mem_erase_of_ne hcx).mpr hc)
    simp only [hmem, not_true_eq_false, decide_false, Bool.false_eq_true, not_false_eq_true]
  · rename_i hk
    obtain ⟨hkx, hkb⟩ := not_or.mp hk
    -- the children of other nodes are not among those of `x` and `base`
    have hother : ∀ q, k ≠ q → ∀ c ∈ F.below k, c ∉ F.below q := by
      intro q hq c hc hcq
      have hup := hF.above?_eq_some_iff.mpr hc
      exact hq (Option.some.inj (hup.symm.trans (hF.above?_eq_some_iff.mpr hcq)))
    refine hF.filter_below fun c hc => ?_
    have hcx := hother x hkx c hc
    have hcb : c ∉ (F.below base).erase x := fun hm =>
      hother base hkb c hc (List.mem_of_mem_erase hm)
    simp [hcx, hcb]

/-- The links of all nodes in a line each; what this means for single nodes follows. -/
theorem WellFormed.transplanted (hF : F.WellFormed) (hp : F.above? base = some p)
    (hnot : ¬ F.Covers x base) (hG : G.WellFormed)
    (hplace : G.below p = ((F.below p).erase x).map fun h => if h = base then x else h)
    (hbelow : ∀ k, k ≠ p → G.below k =
      if k = x then (F.below base).erase x else if k = base then [] else (F.below k).erase x)
    (habove : ∀ k, G.above? k =
      if k = base then none
      else if k = x then some p
      else if k ∈ (F.below base).erase x then some x
      else if k ∈ F.below x then none else F.above? k)
    (hcontent : ∀ k, G.contentOf? k = F.contentOf? k) (hsettings : G.settings = F.settings) :
    F.Transplanted G p base x := by
  have hxb : x ≠ base := ne_of_not_covers hnot
  have hxp : x ≠ p := ne_of_not_covers (Forest.not_covers_of_over hnot hp)
  have hbp : base ≠ p := (hF.ne_of_above (.single hp)).symm
  have hadopted : ∀ c ∈ F.below base, c ≠ x → G.above? c = some x := by
    intro c hc hcx
    have hcb : c ≠ base := by
      rintro rfl
      exact hF.acyclic c (.single (hF.above?_eq_some_iff.mpr hc))
    rw [habove, if_neg hcb, if_neg hcx, if_pos ((List.mem_erase_of_ne hcx).mpr hc)]
  have hformer : ∀ k, k ≠ p → k ≠ base → k ≠ x → G.below k = (F.below k).erase x := by
    intro k hkp hkb hkx
    rw [hbelow k hkp, if_neg hkx, if_neg hkb]
  have hrest : ∀ k, k ≠ p → k ≠ base → k ≠ x → F.above? x ≠ some k → G.below k = F.below k := by
    intro k hkp hkb hkx hq
    rw [hformer k hkp hkb hkx]
    exact List.erase_of_not_mem fun hm => hq (hF.above?_eq_some_iff.mpr hm)
  -- a child of `x` is neither the base nor above it, so it loses its parent and nothing else
  have hdiscarded : ∀ c ∈ F.below x, G.above? c = none ∧ G.below c = F.below c := by
    intro c hc
    have hover : F.Over x c := hF.above?_eq_some_iff.mpr hc
    have hcx : c ≠ x := (hF.ne_of_above (.single hover)).symm
    have hcb : c ≠ base := by
      rintro rfl
      exact hnot (.single hover)
    have hcp : c ≠ p := by
      rintro rfl
      exact hnot (.tail (.single hover) hp)
    have hncs : c ∉ (F.below base).erase x := by
      intro hm
      have hup := hF.above?_eq_some_iff.mpr (List.mem_of_mem_erase hm)
      exact hxb (Option.some.inj (hover.symm.trans hup))
    constructor
    · rw [habove, if_neg hcb, if_neg hcx, if_neg hncs, if_pos hc]
    · exact hrest c hcp hcb hcx fun hq => hF.not_covers_of_over hq (.single hover)
  refine ⟨hG, ?_, hadopted, hplace, ?_, ⟨?_, ?_⟩, hdiscarded, ?_, ?_, hrest,
    fun k => contains_eq_of_contentOf?_eq (hcontent k), hcontent, hsettings⟩
  · rw [hbelow x hxp, if_pos rfl]
  · rw [habove, if_neg hxb, if_pos rfl]
  · rw [habove, if_pos rfl]
  · rw [hbelow base hbp, if_neg hxb.symm, if_pos rfl]
  · intro q hq hqp hqb
    exact hformer q hqp hqb (hF.ne_of_above (.single hq))
  · intro k hkx hkb hnb hnx
    rw [habove, if_neg hkb, if_neg hkx, if_neg (mt List.mem_of_mem_erase hnb), if_neg hnx]

/-- What a transplant sheds, hands over and puts in, taken together. -/
theorem Shed.transplanted (hD : F.Shed D (F.below x ++ [x] ++ (F.below base).erase x))
    (hF : F.WellFormed) (hp : F.above? base = some p) (hnot : ¬ F.Covers x base)
    (hE : D.Adopted E x ((F.below base).erase x)) (hH : E.Handover p base x [])
    (hi : (E.below p)[i]? = some base) :
    F.Transplanted (E.substitute p i x base) p base x := by
  have hpin := hH.wellFormed.contains_of_above? hH.parent
  have hbin := contains_of_above? hH.parent
  have hxp : x ≠ p := ne_of_not_covers (not_covers_of_over hnot hp)
  have hpb : p ≠ base := hF.ne_of_above (.single hp)
  have hG := hH.wellFormed.substitute hi hH.contains hH.root
    (not_covers_of_over hH.not_covers hH.parent)
  apply hF.transplanted hp hnot hG
  · rw [below_substitute hpin, if_pos rfl, set_eq_map (hH.wellFormed.nodup_below p) hi,
      hE.below_eq, if_neg hxp.symm, hD.below_of_transplant hF,
      if_neg (not_or.mpr ⟨hxp.symm, hpb⟩)]
  · intro k hkp
    rw [below_substitute hpin, if_neg hkp, hE.below_eq]
    split
    · rw [hD.below_of_transplant hF, if_pos (Or.inl rfl), List.nil_append]
    · rename_i hkx
      rw [hD.below_of_transplant hF]
      simp only [hkx, false_or]
  · intro k
    rw [above?_substitute hH.contains hbin, hE.above?_eq, hD.above?_eq]
    by_cases hkx : k = x
    · simp only [hkx, if_true]
    · by_cases hkc : k ∈ (F.below base).erase x <;> simp [hkx, hkc]
  · intro k
    rw [contentOf?_substitute, hE.contentOf?_eq, hD.contentOf?_eq]
  · rw [settings_substitute, hE.settings, hD.settings]

end Forest

namespace EditM
variable {C : Type} [ShallowCopy C] {s : Session C} {base p x : Handle} {cs : List Handle}

theorem addRoots_run (hs : s.forest.Handover p base x cs) :
    ∃ G, (cs.forM fun c => discard (addChild x c)) s = .ok () (s.withForest G) ∧
      G.Handover p base x [] ∧ s.forest.Adopted G x cs := by
  induction cs generalizing s with
  | nil => exact ⟨s.forest, rfl, hs, .refl _ x⟩
  | cons c cs ih =>
    obtain ⟨hc, hroot, hne, hnot⟩ := hs.pending c List.mem_cons_self
    have hcx := Forest.not_covers_of_root hs.root hne
    have hadd : addChild x c s =
        .ok c (s.withForest (s.forest.link x (s.forest.below x).length c)) := by
      rw [addChild, bind_of_ok _ (query_numChildren hs.contains)]
      exact insertChild_of_root hs.wellFormed hs.contains (Nat.le_refl _) hc hroot hcx
    obtain ⟨G, hrun, hG, hadopted⟩ := ih (s := s.withForest _) hs.link
    exact ⟨G, (bind_of_ok _ (discard_of_ok hadd)).trans hrun, hG, hadopted.cons hs.contains hc⟩

theorem discardChildren_run (hF : s.forest.WellFormed) (hx : s.forest.contains x = true) :
    ∃ t, discardChildren x s = .ok () t ∧ s.forest.Shed t.forest (s.forest.below x) := by
  have hquery : query (fun F => F.hasChildren x) s = .ok (!(s.forest.below x).isEmpty) s :=
    query_of_ok (Forest.hasChildren_of_contains hx)
  rw [discardChildren, bind_of_ok _ hquery]
  cases hcs : s.forest.below x with
  | nil => exact ⟨s, rfl, .refl _⟩
  | cons c cs =>
    obtain ⟨G, hrun, hG⟩ := removeChildren_run hF hx
    rw [hcs] at hG
    exact ⟨_, (bind_of_ok _ hrun).trans ((bind_of_ok _ (describe_run _ _)).trans
      (notify_run _ _)), hG⟩

/-- Until the children of `base` are handed over, a transplant that may go on cannot fail. -/
theorem transplant_handover (hF : s.forest.WellFormed) (hp : s.forest.above? base = some p)
    (hx : s.forest.contains x = true) (hnot : ¬ s.forest.Covers x base) :
    ∃ s₁ s₂ s₃, discardChildren x s = .ok () s₁ ∧ detach x s₁ = .ok () s₂ ∧
      removeChildren base s₂ = .ok ((s.forest.below base).erase x) s₃ ∧
      s.forest.Shed s₃.forest (s.forest.below x ++ [x] ++ (s.forest.below base).erase x) ∧
      s₃.forest.Handover p base x ((s.forest.below base).erase x) := by
  have hb := Forest.contains_of_above? hp
  obtain ⟨s₁, hdiscard, hshed₁⟩ := discardChildren_run hF hx
  have hs₁ := hshed₁.wellFormed hF
  have hdetach := detach_of_contains hs₁ (h := x) (by rwa [hshed₁.contains_eq])
  have hshed₂ := hshed₁.trans (hs₁.shed_cut x)
  have hs₂ := hshed₂.wellFormed hF
  obtain ⟨G, hremove, hshed₃⟩ := removeChildren_run (p := base)
    (s := s₁.withForest (s₁.forest.cut x)) hs₂ (by rwa [← hshed₂.contains_eq] at hb)
  -- of the children of the base only `x` has been shed before
  have hbelow : (s₁.forest.cut x).below base = (s.forest.below base).erase x := by
    rw [hshed₂.below_eq]
    refine hF.filter_below fun c hc => ?_
    have hcx : c ∉ s.forest.below x := by
      intro hm
      have hup := hF.above?_eq_some_iff.mpr hc
      rw [hF.above?_eq_some_iff.mpr hm] at hup
      exact Forest.ne_of_not_covers hnot (Option.some.inj hup)
    simp [hcx]
  rw [Session.forest_withForest, hbelow] at hremove hshed₃
  have hshed := hshed₂.trans hshed₃
  refine ⟨s₁, _, _, hdiscard, hdetach, hremove, hshed, ?_⟩
  have hnodup := hF.nodup_below base
  refine hshed.handover hF hp hx hnot (fun c hc => ?_) (hnodup.erase x)
  exact (hnodup.mem_erase_iff.mp hc).symm

theorem transplant_run (hF : s.forest.WellFormed) (hp : s.forest.above? base = some p)
    (hx : s.forest.contains x = true) (hnot : ¬ s.forest.Covers x base) :
    ∃ t, transplant base x s = .ok x t ∧ s.forest.Transplanted t.forest p base x := by
  have hb := Forest.contains_of_above? hp
  have hne := Forest.ne_of_not_covers hnot
  have hquery := query_parent hb
  rw [hp] at hquery
  have hensure := query_ensureNotAbove hF hb hnot
  obtain ⟨s₁, s₂, s₃, hdiscard, hdetach, hremove, hshed, hhandover⟩ :=
    transplant_handover hF hp hx hnot
  obtain ⟨G, hadd, hG, hadopted⟩ := addRoots_run hhandover
  obtain ⟨i, hfind, hi⟩ := hG.wellFormed.getElem?_of_above? hG.parent
  have hindex : query (fun F => F.indexOfChild p base) (s₃.withForest G) =
      .ok (some i) (s₃.withForest G) := by
    apply query_of_ok
    simp only [Session.forest_withForest, Forest.indexOfChild,
      Forest.children_of_contains (hG.wellFormed.contains_of_above? hG.parent)]
    exact congrArg Except.ok hfind
  have hset := setChild_of_root (s := s₃.withForest G) hG.wellFormed hi hG.contains hG.root
    (Forest.not_covers_of_over hG.not_covers hG.parent)
  have hchild : query (fun F => F.child p i) (s₃.withForest (G.substitute p i x base)) =
      .ok x (s₃.withForest (G.substitute p i x base)) :=
    query_of_ok (Forest.child_of_getElem? (Forest.getElem?_substitute hi))
  refine ⟨s₃.withForest (G.substitute p i x base), ?_,
    hshed.transplanted hF hp hnot hadopted hG hi⟩
  simp only [transplant, bind_of_ok _ hquery, if_neg hne, bind_of_ok _ hensure,
    bind_of_ok _ hdiscard, bind_of_ok _ hdetach, bind_of_ok _ hremove]
  refine (bind_of_ok _ hadd).trans ((bind_of_ok _ hindex).trans ?_)
  exact (bind_of_ok _ (discard_of_ok hset)).trans hchild

end EditM
end Grove
