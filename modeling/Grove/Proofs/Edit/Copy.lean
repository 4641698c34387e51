import Grove.Edit.Copy
import Grove.Proofs.Edit.Link

/-!
# Copies

While a copy is being made, the forest consists of the nodes that were there before, unchanged, and of
new nodes below the new root: it has sprouted. Taking that root out gives the old nodes back, so a
copy that fails leaves nothing behind. This holds of clean contents, for which the copy hook either
gives the root of a new tree or fails without a trace.

Regular copies are clean: they are new nodes with the same content, or else come with children and
are refused.
-/

namespace Grove
set_option autoImplicit false

namespace Forest
variable {C : Type} {F G : Forest C} {a b c h k p q x : Handle} {i : Nat}

/-- `G` has the nodes of `F`, and besides them those of a new tree with the root `c`. -/
structure Sprouted (F G : Forest C) (c : Handle) : Prop where
  old : F.Extends G
  wellFormed : G.WellFormed
  fresh : F.contains c = false
  contains : G.contains c = true
  root : G.above? c = none
  covered : ∀ k, G.contains k = true → F.contains k = true ∨ G.Covers c k

theorem Extends.covers_mono (hFG : F.Extends G) (hc : F.Covers a b) : G.Covers a b := by
  refine Relation.ReflTransGen.mono (fun q h hq => ?_) _ _ hc
  rw [Over, hFG.above?_eq (contains_of_above? hq)]
  exact hq

theorem extends_plant (F : Forest C) (content : C) : F.Extends (F.plant content).2 := by
  refine ⟨fun h hh => ?_, rfl⟩
  have hne := ne_of_contains hh (not_contains_plant_fst F content)
  rw [get?_plant, if_neg hne]

theorem WellFormed.sprouted_plant (hF : F.WellFormed) (content : C) :
    F.Sprouted (F.plant content).2 (F.plant content).1 where
  old := extends_plant F content
  wellFormed := hF.plant content
  fresh := not_contains_plant_fst F content
  contains := (contains_plant F content _).mpr (Or.inl rfl)
  root := by
    rw [above?_plant]
    exact above?_eq_none_of_not_contains (not_contains_plant_fst F content)
  covered k hk := by
    rcases (contains_plant F content k).mp hk with rfl | hk
    · exact Or.inr covers_refl
    · exact Or.inl hk

theorem covers_link (hx : F.contains x = true) (hroot : F.above? x = none) (hc : F.Covers a b) :
    (F.link p i x).Covers a b := by
  refine Relation.ReflTransGen.mono (fun q h hq => ?_) _ _ hc
  have hne : h ≠ x := by
    rintro rfl
    rw [Over, hroot] at hq
    exact absurd hq (by simp)
  rw [Over, above?_link hx, if_neg hne]
  exact hq

theorem get?_link (hp : F.contains p = true) (hx : F.contains x = true) (hkp : k ≠ p)
    (hkx : k ≠ x) : (F.link p i x).get? k = F.get? k := by
  rw [get?_eq_get?_iff, contentOf?_link, above?_link hx, below_link hp, if_neg hkx, if_neg hkp]
  exact ⟨rfl, rfl, rfl⟩

namespace Sprouted

theorem not_contains_of_covers (hG : F.Sprouted G c) (hF : F.WellFormed) (hk : G.Covers c k) :
    F.contains k = false := by
  cases hin : F.contains k with
  | false => rfl
  | true =>
    have hc := (hG.old.covers hF hin hk).1
    rw [hG.fresh] at hc
    exact absurd hc (by simp)

theorem not_covers (hG : F.Sprouted G c) (hF : F.WellFormed) (hk : F.contains k = true) :
    ¬ G.Covers c k := by
  intro hc
  exact ne_of_contains hk (hG.not_contains_of_covers hF hc) rfl

theorem congr {E : Forest C} (hG : F.Sprouted G c) (hE : G.SameNodes E) : F.Sprouted E c where
  old := hG.old.trans hE.extends
  wellFormed := hE.wellFormed hG.wellFormed
  fresh := hG.fresh
  contains := by rw [← hE.contains_eq, hG.contains]
  root := by rw [← hE.above?_eq, hG.root]
  covered k hk := by
    have hover : E.Over = G.Over := by
      funext q h
      simp only [Over, hE.above?_eq]
    rw [Covers, hover]
    exact hG.covered k (by rwa [hE.contains_eq])

theorem graft {E : Forest C} {d : Handle} (hG : F.Sprouted G c) (hE : G.Sprouted E d)
    (hp : G.contains p = true) (hpF : F.contains p = false) (hi : i ≤ (G.below p).length) :
    F.Sprouted (E.link p i d) c := by
  have hp' := hE.old.contains hp
  have hne : ∀ {k}, G.contains k = true → k ≠ d := fun hk => ne_of_contains hk hE.fresh
  have hcp : G.Covers c p := (hG.covered p hp).resolve_left (by simp [hpF])
  have hgrown : ∀ {a b}, E.Covers a b → (E.link p i d).Covers a b :=
    covers_link hE.contains hE.root
  refine ⟨⟨?_, hE.old.settings.trans hG.old.settings⟩, ?_, hG.fresh, ?_, ?_, ?_⟩
  · intro h hh
    have hhG := hG.old.contains hh
    have hhp : h ≠ p := ne_of_contains hh hpF
    rw [get?_link hp' hE.contains hhp (hne hhG), hE.old.get? h hhG, hG.old.get? h hh]
  · refine hE.wellFormed.link hp' hE.contains hE.root (hE.not_covers hG.wellFormed hp) ?_
    rwa [hE.old.below_eq hp]
  · simpa using hE.old.contains hG.contains
  · rw [above?_link hE.contains, if_neg (hne hG.contains), hE.old.above?_eq hG.contains]
    exact hG.root
  · intro k hk
    rw [contains_link] at hk
    rcases hE.covered k hk with hk | hk
    · exact (hG.covered k hk).imp_right fun hck => hgrown (hE.old.covers_mono hck)
    · refine Or.inr (Relation.ReflTransGen.trans (hgrown (hE.old.covers_mono hcp)) ?_)
      refine Relation.ReflTransGen.head ?_ (hgrown hk)
      rw [Over, above?_link hE.contains, if_pos rfl]

/-- Taking out the new tree gives the old nodes back. -/
theorem uproot (hG : F.Sprouted G c) (hF : F.WellFormed) {ds : List Handle}
    (hds : ∀ k, k ∈ ds ↔ G.Covers c k) : (G.uproot ds).SameNodes F := by
  refine ⟨fun k => ?_, hG.old.settings⟩
  rw [get?_uproot]
  by_cases hk : k ∈ ds
  · have hkF := hG.not_contains_of_covers hF ((hds k).mp hk)
    rw [if_pos hk, not_contains_iff.mp hkF]
  · rw [if_neg hk]
    cases hkF : F.contains k with
    | true => exact hG.old.get? k hkF
    | false =>
      have hkG : G.contains k = false := by
        cases hkG : G.contains k with
        | false => rfl
        | true =>
          rcases hG.covered k hkG with h | h
          · rw [hkF] at h
            exact absurd h (by simp)
          · exact absurd ((hds k).mpr h) hk
      rw [not_contains_iff.mp hkG, not_contains_iff.mp hkF]

end Sprouted
end Forest

/-- Contents whose shallow copies are new nodes with the same content, or come as a new tree of more
than one node. -/
class RegularCopy (C : Type) [ShallowCopy C] where
  copyable : C → Bool
  copyShallow_of_not_contains : ∀ {s : Session C} {h : Handle}, s.forest.contains h = false →
    EditM.copyShallow h s = .error (.invalidHandle h) s
  copyShallow_of_copyable : ∀ {s : Session C} {h : Handle} {n : Node C},
    s.forest.get? h = some n → copyable n.content = true →
      EditM.copyShallow h s = EditM.create n.content s
  copyShallow_of_not_copyable : ∀ {s : Session C} {h : Handle} {n : Node C},
    s.forest.WellFormed → s.forest.get? h = some n → copyable n.content = false →
      ∃ c t, EditM.copyShallow h s = .ok c t ∧ s.forest.Sprouted t.forest c ∧
        t.forest.below c ≠ []

/-- The edit gives the root of a new tree, or fails and leaves all nodes as they were. -/
def EditM.Sprouts {C : Type} (x : EditM C Handle) (s : Session C) : Prop :=
  (∃ c t, x s = .ok c t ∧ s.forest.Sprouted t.forest c) ∨
    ∃ e t, x s = .error e t ∧ t.forest.SameNodes s.forest

/-- The copy hook sprouts on every node with this content, or on handles without a node if there is no
content. -/
def EditM.CleanContent {C : Type} [ShallowCopy C] (content? : Option C) : Prop :=
  ∀ (s : Session C) (h : Handle), s.forest.WellFormed → s.forest.contentOf? h = content? →
    Sprouts (copyShallow h) s

/-- The contents of a whole subtree are clean. -/
def Forest.Clean {C : Type} [ShallowCopy C] (F : Forest C) (h : Handle) : Prop :=
  ∀ k, F.Covers h k → EditM.CleanContent (F.contentOf? k)

theorem Forest.Clean.of_mem_below {C : Type} [ShallowCopy C] {F : Forest C} {h k : Handle}
    (hh : F.Clean h) (hF : F.WellFormed) (hk : k ∈ F.below h) : F.Clean k :=
  fun l hl => hh l (Relation.ReflTransGen.head (hF.above?_eq_some_iff.mpr hk) hl)

namespace EditM
variable {C : Type} [ShallowCopy C] {s t : Session C} {c h k p x : Handle} {n : Node C} {i : Nat}

theorem release_of_sprouted {F : Forest C} (hF : F.WellFormed) (hs : F.Sprouted s.forest c) :
    ∃ t, release c s = .ok () t ∧ t.forest.SameNodes F := by
  obtain ⟨ds, -, -, hds, hrun⟩ := dispose_of_root hs.wellFormed hs.contains hs.root
  have hdetach := detach_of_contains hs.wellFormed hs.contains
  rw [Forest.cut_of_root hs.root, Session.withForest_self] at hdetach
  refine ⟨s.withForest (s.forest.uproot ds), ?_, hs.uproot hF hds⟩
  refine tryCatch_of_ok _ ?_
  rw [bind_of_ok _ hdetach, discard_of_ok hrun]

/-- A release does not fail; at worst it leaves a notice. -/
theorem release_run (h : Handle) (s : Session C) : ∃ t, release h s = .ok () t := by
  cases hrun : (do detach h; discard (dispose h) : EditM C Unit) s with
  | ok u t => exact ⟨t, tryCatch_of_ok _ hrun⟩
  | error e t => exact ⟨_, (tryCatch_of_error _ hrun).trans (notify_run _ t)⟩

theorem attachLast_of_sprouted (hF : s.forest.WellFormed) (ht : s.forest.Sprouted t.forest c)
    (hp : s.forest.contains p = true) :
    attachLast p c t =
      .ok () (t.withForest (t.forest.link p (s.forest.below p).length c)) := by
  have hp' := ht.old.contains hp
  have hlen := query_numChildren hp'
  rw [ht.old.below_eq hp] at hlen
  rw [attachLast, bind_of_ok _ hlen]
  refine attach_of_root ht.wellFormed hp' ht.contains ht.root (ht.not_covers hF hp) ?_
  exact Nat.le_of_eq (by rw [ht.old.below_eq hp])

theorem attachLast_plant (hF : s.forest.WellFormed) (hp : s.forest.contains p = true)
    (content : C) :
    attachLast p (s.forest.plant content).1 (s.withForest (s.forest.plant content).2) =
      .ok () (s.withForest ((s.forest.plant content).2.link p (s.forest.below p).length
        (s.forest.plant content).1)) :=
  attachLast_of_sprouted (t := s.withForest _) hF (hF.sprouted_plant content) hp

theorem copyPending_cons {s₁ s₂ : Session C} {source target copy : Handle}
    {children : List Handle} (m : Nat) (pending : List (Handle × Handle))
    (hcopy : copyBare source s = .ok copy s₁)
    (hattach : attachLast target copy s₁ = .ok () s₂)
    (hkids : query (fun F => F.children source) s₂ = .ok children s₂) :
    copyPending (m + 1) ((source, target) :: pending) s =
      copyPending m (children.map (·, copy) ++ pending) s₂ := by
  simp only [copyPending, bind_of_ok _ hcopy, bind_of_ok _ (onFailure_of_ok (release _) hattach),
    bind_of_ok _ hkids]

theorem copyBelow_eq (hh : s.forest.contains h = true) (target : Handle) :
    copyBelow h target s =
      copyPending s.forest.nodes.capacity ((s.forest.below h).map (·, target)) s := by
  simp only [copyBelow, bind_of_ok _ (query_children hh), bind_of_ok _ (look_run _ _)]

/-- A copy that is not refused is what the hook has made, without parent and children. -/
theorem copyBare_eq_ok (hrun : copyBare h s = .ok c t) :
    copyShallow h s = .ok c t ∧ t.forest.contains c = true ∧ t.forest.above? c = none ∧
      t.forest.below c = [] := by
  obtain ⟨b, u, hcopy, hcheck⟩ := bind_eq_ok.mp hrun
  obtain ⟨n, v, hnode, hrest⟩ := bind_eq_ok.mp hcheck
  obtain ⟨hn, rfl⟩ := query_eq_ok.mp hnode
  by_cases hlinked : (n.parent.isSome || !n.children.isEmpty) = true
  · rw [if_pos hlinked] at hrest
    obtain ⟨line, u, -, hrelease⟩ := bind_eq_ok.mp hrest
    obtain ⟨r, u, -, hthrow⟩ := bind_eq_ok.mp hrelease
    obtain ⟨r, u, hthrow, -⟩ := bind_eq_ok.mp hthrow
    exact nomatch hthrow
  · rw [if_neg hlinked] at hrest
    cases hrest
    have hget := Forest.node_eq_ok.mp hn
    obtain ⟨hparent, hchildren⟩ : n.parent = none ∧ n.children = [] := by simpa using hlinked
    refine ⟨hcopy, Forest.contains_iff.mpr ⟨n, hget⟩, ?_, ?_⟩
    · rw [Forest.above?_of_get? hget, hparent]
    · rw [Forest.below_of_get? hget, hchildren]

/-- A new tree of more than one node is refused, and taken out again. -/
theorem copyBare_of_linked (hF : s.forest.WellFormed) (hcopy : copyShallow h s = .ok c t)
    (ht : s.forest.Sprouted t.forest c) (hkids : t.forest.below c ≠ []) :
    ∃ u, copyBare h s = .error (.invariantViolation (.linkedCopy (t.forest.describe c))) u ∧
      u.forest.SameNodes s.forest := by
  obtain ⟨m, hm, hnode⟩ := query_node ht.contains
  obtain ⟨u, hu, hsame⟩ := release_of_sprouted hF ht
  have hlinked : (m.parent.isSome || !m.children.isEmpty) = true := by
    rw [Forest.below_of_get? hm] at hkids
    simp [hkids]
  refine ⟨u, ?_, hsame⟩
  simp only [copyBare, bind_of_ok _ hcopy, bind_of_ok _ hnode, hlinked, if_true,
    bind_of_ok _ (describe_run c t), bind_of_ok _ hu]
  rfl

/-! ## Clean copies -/

theorem copyBare_sprouts (hF : s.forest.WellFormed)
    (hh : CleanContent (s.forest.contentOf? h)) : Sprouts (copyBare h) s := by
  rcases hh s h hF rfl with ⟨c, t, hcopy, ht⟩ | ⟨e, t, hcopy, hsame⟩
  · by_cases hkids : t.forest.below c = []
    · obtain ⟨m, hm, hnode⟩ := query_node ht.contains
      have hroot := ht.root
      rw [Forest.above?_of_get? hm] at hroot
      rw [Forest.below_of_get? hm] at hkids
      refine Or.inl ⟨c, t, ?_, ht⟩
      simp only [copyBare, bind_of_ok _ hcopy, bind_of_ok _ hnode, hroot, hkids]
      rfl
    · obtain ⟨u, hrun, hsame⟩ := copyBare_of_linked hF hcopy ht hkids
      exact Or.inr ⟨_, u, hrun, hsame⟩
  · exact Or.inr ⟨e, t, by rw [copyBare, bind_of_error _ hcopy], hsame⟩

/-- While clean nodes are copied below new ones, the forest has sprouted, whatever comes of it. -/
theorem copyPending_sprouted {F : Forest C} {root : Handle} (m : Nat)
    (pending : List (Handle × Handle)) (hF : F.WellFormed) (hs : F.Sprouted s.forest root)
    (hsources : ∀ ab ∈ pending, F.contains ab.1 = true ∧ F.Clean ab.1)
    (htargets : ∀ ab ∈ pending, F.contains ab.2 = false ∧ s.forest.contains ab.2 = true) :
    F.Sprouted (final (copyPending m pending) s).forest root := by
  induction m generalizing pending s with
  | zero => cases pending <;> exact hs
  | succ m ih =>
    cases pending with
    | nil => exact hs
    | cons ab pending =>
      obtain ⟨source, target⟩ := ab
      obtain ⟨hsource, hclean⟩ : F.contains source = true ∧ F.Clean source :=
        hsources _ List.mem_cons_self
      obtain ⟨hnew, htarget⟩ : F.contains target = false ∧ s.forest.contains target = true :=
        htargets _ List.mem_cons_self
      have hcontent : CleanContent (s.forest.contentOf? source) := by
        rw [hs.old.contentOf?_eq hsource]
        exact hclean source Forest.covers_refl
      rcases copyBare_sprouts hs.wellFormed hcontent with ⟨c, t, hcopy, ht⟩ | ⟨e, t, hcopy, hsame⟩
      · have hattach := attachLast_of_sprouted hs.wellFormed ht htarget
        have hgraft := hs.graft ht htarget hnew (Nat.le_refl _)
        have hlive := Forest.contains_link t.forest target (s.forest.below target).length c
        generalize t.forest.link target (s.forest.below target).length c = G at hattach hgraft hlive
        have hkids := query_children (s := t.withForest G) (hgraft.old.contains hsource)
        rw [Session.forest_withForest, hgraft.old.below_eq hsource] at hkids
        rw [final_congr (copyPending_cons m pending hcopy hattach hkids)]
        refine ih _ hgraft (fun ab hab => ?_) fun ab hab => ?_
        · rcases List.mem_append.mp hab with hab | hab
          · obtain ⟨k, hk, rfl⟩ := List.mem_map.mp hab
            exact ⟨hF.contains_of_mem_below hk, hclean.of_mem_below hF hk⟩
          · exact hsources ab (List.mem_cons_of_mem _ hab)
        · rcases List.mem_append.mp hab with hab | hab
          · obtain ⟨k, -, rfl⟩ := List.mem_map.mp hab
            exact ⟨hs.old.not_contains ht.fresh, (hlive c).trans ht.contains⟩
          · obtain ⟨h1, h2⟩ := htargets ab (List.mem_cons_of_mem _ hab)
            exact ⟨h1, (hlive ab.2).trans (ht.old.contains h2)⟩
      · have hrun : copyPending (m + 1) ((source, target) :: pending) s = .error e t := by
          simp only [copyPending, bind_of_error _ hcopy]
        rw [final_of_error hrun]
        exact hs.congr hsame.symm

theorem copyBelow_sprouted (hF : s.forest.WellFormed) (hclean : s.forest.Clean h)
    (ht : s.forest.Sprouted t.forest c) (hleaf : t.forest.below c = []) :
    s.forest.Sprouted (final (copyBelow h c) t).forest c := by
  cases hh : t.forest.contains h with
  | false =>
    have hkids := query_of_not_contains (q := fun F => F.children h) rfl hh
    rwa [copyBelow, final_of_error (bind_of_error _ hkids)]
  | true =>
    have hold : ∀ k ∈ t.forest.below h, s.forest.contains k = true ∧ s.forest.Clean k := by
      intro k hk
      cases hin : s.forest.contains h with
      | true =>
        rw [ht.old.below_eq hin] at hk
        exact ⟨hF.contains_of_mem_below hk, hclean.of_mem_below hF hk⟩
      | false =>
        -- the only new node is the copy, which has no children
        have hc := (ht.covered h hh).resolve_left (by simp [hin])
        rcases Relation.ReflTransGen.cases_head hc with rfl | ⟨d, hd, -⟩
        · rw [hleaf] at hk
          exact absurd hk List.not_mem_nil
        · have hmem := ht.wellFormed.above?_eq_some_iff.mp hd
          rw [hleaf] at hmem
          exact absurd hmem List.not_mem_nil
    rw [final_congr (copyBelow_eq hh c)]
    refine copyPending_sprouted _ _ hF ht (fun ab hab => ?_) fun ab hab => ?_
    · obtain ⟨k, hk, rfl⟩ := List.mem_map.mp hab
      exact hold k hk
    · obtain ⟨k, -, rfl⟩ := List.mem_map.mp hab
      exact ⟨ht.fresh, ht.contains⟩

/-- A deep copy of a clean subtree is a new tree, or fails and leaves nothing behind. -/
theorem copy_sprouts (hF : s.forest.WellFormed) (hclean : s.forest.Clean h) :
    Sprouts (copy h) s := by
  rcases copyBare_sprouts hF (hclean h Forest.covers_refl) with
    ⟨c, t, hcopy, ht⟩ | ⟨e, t, hcopy, hsame⟩
  · have hsprout := copyBelow_sprouted hF hclean ht (copyBare_eq_ok hcopy).2.2.2
    cases hrun : copyBelow h c t with
    | ok u v =>
      rw [final_of_ok hrun] at hsprout
      exact Or.inl ⟨c, v, by
        rw [copy, bind_of_ok _ hcopy, bind_of_ok _ (onFailure_of_ok _ hrun)]
        rfl, hsprout⟩
    | error e v =>
      rw [final_of_error hrun] at hsprout
      obtain ⟨w, hw, hsame⟩ := release_of_sprouted hF hsprout
      exact Or.inr ⟨e, w, by
        rw [copy, bind_of_ok _ hcopy, bind_of_error _ (onFailure_of_error hrun hw)], hsame⟩
  · exact Or.inr ⟨e, t, by rw [copy, bind_of_error _ hcopy], hsame⟩

/-! ## Regular copies -/

section
variable [RegularCopy C]

theorem copyShallow_of_contains (hF : s.forest.WellFormed) (hh : s.forest.contains h = true) :
    ∃ c t, copyShallow h s = .ok c t ∧ s.forest.Sprouted t.forest c := by
  obtain ⟨n, hn⟩ := Forest.contains_iff.mp hh
  cases hc : RegularCopy.copyable n.content with
  | true =>
    rw [RegularCopy.copyShallow_of_copyable hn hc, create_run]
    exact ⟨_, _, rfl, hF.sprouted_plant n.content⟩
  | false =>
    obtain ⟨c, t, hrun, hsprout, -⟩ := RegularCopy.copyShallow_of_not_copyable hF hn hc
    exact ⟨c, t, hrun, hsprout⟩

theorem copyShallow_outcome (hF : s.forest.WellFormed) (h : Handle) :
    (∃ c t, copyShallow h s = .ok c t ∧ s.forest.contains h = true ∧ s.forest.Sprouted t.forest c) ∨
      copyShallow h s = .error (.invalidHandle h) s := by
  cases hh : s.forest.contains h with
  | false => exact Or.inr (RegularCopy.copyShallow_of_not_contains hh)
  | true =>
    obtain ⟨c, t, hrun, hsprout⟩ := copyShallow_of_contains hF hh
    exact Or.inl ⟨c, t, hrun, rfl, hsprout⟩

theorem copyBare_of_copyable (hn : s.forest.get? h = some n)
    (hc : RegularCopy.copyable n.content = true) :
    copyBare h s =
      .ok (s.forest.plant n.content).1 (s.withForest (s.forest.plant n.content).2) := by
  have hcopy := RegularCopy.copyShallow_of_copyable hn hc
  rw [create_run] at hcopy
  have hnode : query (fun F => F.node (s.forest.plant n.content).1)
      (s.withForest (s.forest.plant n.content).2) =
        .ok { content := n.content } (s.withForest (s.forest.plant n.content).2) :=
    query_of_ok (Forest.node_of_get? (by simp [Forest.get?_plant]))
  simp only [copyBare, bind_of_ok _ hcopy, bind_of_ok _ hnode]
  rfl

theorem copyBare_of_not_copyable (hF : s.forest.WellFormed) (hn : s.forest.get? h = some n)
    (hc : RegularCopy.copyable n.content = false) :
    ∃ line t, copyBare h s = .error (.invariantViolation (.linkedCopy line)) t ∧
      t.forest.SameNodes s.forest := by
  obtain ⟨c, t, hcopy, ht, hkids⟩ := RegularCopy.copyShallow_of_not_copyable hF hn hc
  obtain ⟨u, hrun, hsame⟩ := copyBare_of_linked hF hcopy ht hkids
  exact ⟨_, u, hrun, hsame⟩

theorem clean_of_regular (F : Forest C) (h : Handle) : F.Clean h := by
  intro k _ s h hF _
  rcases copyShallow_outcome hF h with ⟨c, t, hrun, -, ht⟩ | hrun
  · exact Or.inl ⟨c, t, hrun, ht⟩
  · exact Or.inr ⟨_, s, hrun, .refl _⟩

theorem copy_outcome (hF : s.forest.WellFormed) (h : Handle) :
    (∃ c t, copy h s = .ok c t ∧ s.forest.Sprouted t.forest c) ∨
      ∃ e t, copy h s = .error e t ∧ t.forest.SameNodes s.forest :=
  copy_sprouts hF (clean_of_regular _ h)

end

/-! ## Sanitizing -/

theorem sanitize_of_root (hh : s.forest.contains h = true) (hroot : s.forest.above? h = none) :
    sanitize h s = .ok h s := by
  have hq := query_parent hh
  rw [hroot] at hq
  simp only [sanitize, bind_of_ok _ hq]
  rfl

theorem sanitize_of_copy (hp : s.forest.above? h = some p)
    (hset : s.forest.settings.sanitize = .copy) : sanitize h s = copy h s := by
  have hq := query_parent (Forest.contains_of_above? hp)
  rw [hp] at hq
  have hlook := look_run (fun F : Forest C => F.settings.sanitize) s
  simp only [sanitize, bind_of_ok _ hq, bind_of_ok _ hlook, hset]

theorem sanitize_of_reject (hp : s.forest.above? h = some p)
    (hset : s.forest.settings.sanitize = .reject) :
    sanitize h s = .error (.alreadyOwned (s.forest.describe h) (s.forest.describe p)) s := by
  have hq := query_parent (Forest.contains_of_above? hp)
  rw [hp] at hq
  have hlook := look_run (fun F : Forest C => F.settings.sanitize) s
  simp only [sanitize, bind_of_ok _ hq, bind_of_ok _ hlook, hset]
  rfl

theorem sanitize_of_not_contains (hh : s.forest.contains h = false) :
    sanitize h s = .error (.invalidHandle h) s := by
  have hq := query_of_not_contains (q := fun F => F.parent h) rfl hh
  simp only [sanitize, bind_of_error _ hq]

/-- What is inserted is the given root itself, or a clean copy. -/
theorem sanitize_of_clean (hF : s.forest.WellFormed) (hclean : s.forest.Clean h) :
    sanitize h s = .ok h s ∨ Sprouts (sanitize h) s := by
  cases hh : s.forest.contains h with
  | false => exact Or.inr (Or.inr ⟨_, s, sanitize_of_not_contains hh, .refl _⟩)
  | true =>
    cases hp : s.forest.above? h with
    | none => exact Or.inl (sanitize_of_root hh hp)
    | some p =>
      cases hset : s.forest.settings.sanitize with
      | copy =>
        rw [Sprouts, sanitize_of_copy hp hset]
        exact Or.inr (copy_sprouts hF hclean)
      | reject => exact Or.inr (Or.inr ⟨_, s, sanitize_of_reject hp hset, .refl _⟩)

end EditM
end Grove
