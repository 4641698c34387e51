import Grove.Proofs.Edit.Harmless
import Grove.Proofs.Edit.History

/-!
# What edits retain

No edit but the freeing of a node loses a node, and no edit but the change of a content changes one.
New nodes are only made where an edit says so: where it creates or copies, and where it inserts a
copy under the policy that asks for one.
-/

namespace Grove
set_option autoImplicit false

namespace Forest
variable {C : Type} {F G E : Forest C} {grows : Prop} {a b c h k p x y : Handle} {l : List Handle}
  {copyable : C → Prop}

/-- `G` has all nodes of `F` with their contents, and other ones only if it `grows`. -/
structure Retains (F G : Forest C) (grows : Prop) : Prop where
  wellFormed : G.WellFormed
  settings : G.settings = F.settings
  contentOf?_eq : ∀ k, F.contains k = true → G.contentOf? k = F.contentOf? k
  covered : ∀ k, G.contains k = true → F.contains k = true ∨ grows

namespace Retains

theorem refl (hF : F.WellFormed) : F.Retains F grows := ⟨hF, rfl, fun _ _ => rfl, fun _ => .inl⟩

theorem contains (hG : F.Retains G grows) (hk : F.contains k = true) : G.contains k = true := by
  rw [contains_eq_of_contentOf?_eq (hG.contentOf?_eq k hk)]
  exact hk

theorem trans (hG : F.Retains G grows) (hE : G.Retains E grows) : F.Retains E grows where
  wellFormed := hE.wellFormed
  settings := hE.settings.trans hG.settings
  contentOf?_eq k hk := (hE.contentOf?_eq k (hG.contains hk)).trans (hG.contentOf?_eq k hk)
  covered k hk := (hE.covered k hk).elim (hG.covered k) .inr

end Retains

theorem WellFormed.retains (hE : E.WellFormed) (hsettings : E.settings = F.settings)
    (hcontent : ∀ k, E.contentOf? k = F.contentOf? k) : F.Retains E grows := by
  refine ⟨hE, hsettings, fun k _ => hcontent k, fun k hk => Or.inl ?_⟩
  rwa [contains_eq_of_contentOf?_eq (hcontent k)] at hk

theorem SameNodes.retains (hE : E.SameNodes F) (hF : F.WellFormed) : F.Retains E grows :=
  (hE.symm.wellFormed hF).retains hE.settings fun k => by simp only [contentOf?, hE.get? k]

theorem Sprouted.retains (hE : F.Sprouted E c) (hgrows : grows) : F.Retains E grows :=
  ⟨hE.wellFormed, hE.old.settings, fun _ hk => hE.old.contentOf?_eq hk, fun _ _ => .inr hgrows⟩

/-- What stands for an inserted node is new only if the node has a parent and the settings ask for
copies. -/
theorem StandsFor.covered (hy : F.StandsFor G y x) (hx : F.Admits copyable p x)
    (hk : G.contains k = true) :
    F.contains k = true ∨ F.above? x ≠ none ∧ F.settings.sanitize = .copy := by
  rcases hy with ⟨-, -, hsame⟩ | ⟨howned, -⟩
  · exact .inl (hsame k ▸ hk)
  · rcases hx.2 with ⟨hroot, -⟩ | ⟨-, hcopy, -⟩
    · exact absurd hroot howned
    · exact .inr ⟨howned, hcopy⟩

theorem Relisted.retains (hG : F.Relisted G p l) (hy : F.StandsFor G y x)
    (hx : F.Admits copyable p x) (h : F.settings.sanitize = .copy → grows) : F.Retains G grows :=
  ⟨hG.wellFormed, hG.settings, hG.contentOf?_eq, fun _ hk =>
    (hy.covered hx hk).imp_right fun hcopy => h hcopy.2⟩

end Forest

namespace EditM
variable {C : Type} [ShallowCopy C]

/-- A swap of subtrees trades them, or leaves all nodes as they are. -/
theorem swapSubtrees_outcome {s : Session C} {a b : Handle} (hF : s.forest.WellFormed)
    (hne : a ≠ b) (ha : CleanContent (s.forest.contentOf? a)) :
    (∃ r t, swapSubtrees a b s = .ok r t ∧
        (t.forest = s.forest ∨ s.forest.Traded t.forest a b)) ∨
      ∃ e t, swapSubtrees a b s = .error e t ∧ t.forest.SameNodes s.forest := by
  cases hrun : swapSubtrees a b s with
  | error e t => exact .inr ⟨e, t, rfl, harmless_swapSubtrees hF hne ha e t hrun⟩
  | ok r t =>
    refine .inl ⟨r, t, rfl, ?_⟩
    cases r with
    | true => exact .inr (swapSubtrees_traded hF hne ha hrun)
    | false =>
      obtain ⟨nested, s₁, hq, hrun⟩ := bind_eq_ok.mp hrun
      obtain ⟨hnested, rfl⟩ := query_eq_ok.mp hq
      cases nested with
      | true =>
        cases hrun
        exact .inl rfl
      | false =>
        obtain ⟨owned, s₂, hq, hrun⟩ := bind_eq_ok.mp hrun
        obtain ⟨howned, rfl⟩ := query_eq_ok.mp hq
        cases owned with
        | false =>
          cases hrun
          exact .inl rfl
        | true =>
          obtain ⟨c, u, -, hrun⟩ := bind_eq_ok.mp hrun
          obtain ⟨_, v, -, hrun⟩ := bind_eq_ok.mp hrun
          obtain ⟨_, v, -, hrun⟩ := bind_eq_ok.mp hrun
          obtain ⟨_, v, -, hrun⟩ := bind_eq_ok.mp hrun
          obtain ⟨_, v, -, hrun⟩ := bind_eq_ok.mp hrun
          exact nomatch hrun

/-- The sessions that have retained what is in `F`. -/
def Retaining (F : Forest C) (grows : Prop) (s : Session C) : Prop := F.Retains s.forest grows

variable [RegularCopy C] {F : Forest C} {grows : Prop}

/-- Without a copying policy nothing grows. -/
theorem editRegime_retaining (hgrows : F.settings.sanitize = .copy → grows) :
    EditRegime (Retaining F grows) (fun _ => True) fun _ => True where
  tolerates _ _ := trivial
  above _ _ _ := trivial
  below _ _ _ := trivial
  notify n s hs := .ok (notify_run n s) hs trivial
  removeChild {p} i _ s hs := by
    cases hi : (s.forest.below p)[i]? with
    | none =>
      obtain ⟨e, hrun⟩ := removeChild_of_getElem?_eq_none hi
      exact .error hrun hs trivial
    | some c =>
      refine .ok (removeChild_of_getElem? hs.wellFormed hi) (hs.trans ?_) trivial
      exact (hs.wellFormed.cut c).retains (Forest.settings_cut _ c) (Forest.contentOf?_cut _ c)
  detach {h} _ s hs := by
    cases hin : s.forest.contains h with
    | false => exact .error (detach_of_not_contains hin) hs trivial
    | true =>
      refine .ok (detach_of_contains hs.wellFormed hin) (hs.trans ?_) trivial
      exact (hs.wellFormed.cut h).retains (Forest.settings_cut _ h) (Forest.contentOf?_cut _ h)
  insertChild {p x} i _ _ s hs := by
    rcases insertChild_outcome hs.wellFormed p i x with
      ⟨hx, y, t, hrun, hy, ht⟩ | ⟨-, e, t, hrun, hsame⟩
    · exact .ok hrun (hs.trans (ht.retains hy hx (hs.settings ▸ hgrows))) trivial
    · exact .error hrun (hs.trans (hsame.retains hs.wellFormed)) trivial
  setChild {p x} i _ _ s hs := by
    rcases setChild_outcome hs.wellFormed p i x with
      ⟨hx, c, y, t, hrun, -, hy, ht⟩ | ⟨-, e, t, hrun, hsame⟩
    · exact .ok hrun (hs.trans (ht.retains hy hx (hs.settings ▸ hgrows))) trivial
    · exact .error hrun (hs.trans (hsame.retains hs.wellFormed)) trivial
  sanitize {h} _ s hs := by
    rcases sanitize_outcome hs.wellFormed h with
      ⟨-, -, hrun⟩ | ⟨hadmits, howned, y, t, f, hrun, ht, -⟩ | ⟨-, e, t, hrun, hsame⟩
    · exact .ok hrun hs trivial
    · have hcopy : s.forest.settings.sanitize = .copy :=
        ((hadmits h).2.resolve_left fun hroot => howned hroot.1).2.1
      exact .ok hrun (hs.trans (ht.retains (hgrows (hs.settings ▸ hcopy)))) trivial
    · exact .error hrun (hs.trans (hsame.retains hs.wellFormed)) trivial
  swapPositions {a b} _ _ s hs := by
    rcases swapPositions_outcome hs.wellFormed a b with ⟨G, hrun, hG⟩ | ⟨e, hrun⟩
    · refine .ok hrun (hs.trans ?_) trivial
      exact (hs.wellFormed.rename (Handle.exchange_exchange a b) hG.above?_eq hG.below_eq).retains
        hG.settings hG.contentOf?_eq
    · exact .error hrun hs trivial
  swapSubtrees {a b} hne _ _ s hs := by
    rcases swapSubtrees_outcome hs.wellFormed hne (clean_of_regular s.forest a a .refl) with
      ⟨r, t, hrun, hsame | ht⟩ | ⟨e, t, hrun, hsame⟩
    · exact .ok hrun (by rwa [Retaining, hsame]) trivial
    · exact .ok hrun (hs.trans (ht.wellFormed.retains ht.settings ht.contentOf?_eq)) trivial
    · exact .error hrun (hs.trans (hsame.retains hs.wellFormed)) trivial

theorem makerRegime_retaining (hgrows : grows) :
    MakerRegime (Retaining F grows) (fun _ => True) fun _ => True where
  toEditRegime := editRegime_retaining fun _ => hgrows
  create content s hs := by
    refine .ok (create_run content s) (hs.trans ⟨hs.wellFormed.plant content, rfl, ?_, ?_⟩) trivial
    · exact fun k hk => (s.forest.extends_plant content).contentOf?_eq hk
    · exact fun k _ => .inr hgrows
  copyShallow h s hs := by
    rcases copyShallow_outcome hs.wellFormed h with ⟨c, t, hrun, -, ht⟩ | hrun
    · exact .ok hrun (hs.trans (ht.retains hgrows)) trivial
    · exact .error hrun hs trivial
  copy h s hs := by
    rcases copy_outcome hs.wellFormed h with ⟨c, t, hrun, ht⟩ | ⟨e, t, hrun, hsame⟩
    · exact .ok hrun (hs.trans (ht.retains hgrows)) trivial
    · exact .error hrun (hs.trans (hsame.retains hs.wellFormed)) trivial

end EditM

section
variable {C : Type} [ShallowCopy C] [RegularCopy C] {s : Session C}

/-- Every edit but the freeing of a node retains all nodes, as long as it does not change a content. -/
theorem Edit.retains (hF : s.forest.WellFormed) (e : Edit C) (hdispose : ∀ h, e ≠ .dispose h)
    (hcontent : ∀ h f, e ≠ .setContent h f) : s.forest.Retains (final e.run s).forest True :=
  ((EditM.makerRegime_retaining (F := s.forest) trivial).run (.refl hF) (fun _ _ => trivial)
    (e.failsOnly_of_forall fun _ => trivial) (fun h f he => absurd he (hcontent h f))
    fun h he => absurd he (hdispose h)).final

omit [ShallowCopy C] [RegularCopy C] in
theorem EditM.setContent_retains (h : Handle) (f : C → C) (s : Session C) {k : Handle}
    (hk : s.forest.contains k = true) :
    (final (setContent h f) s).forest.contains k = true ∧
      (k ≠ h → (final (setContent h f) s).forest.contentOf? k = s.forest.contentOf? k) := by
  cases hh : s.forest.contains h with
  | false =>
    rw [final_of_error (setContent_of_not_contains f hh)]
    exact ⟨hk, fun _ => rfl⟩
  | true =>
    rw [final_of_ok (setContent_of_contains f hh), Session.forest_withForest]
    refine ⟨by simpa using hk, fun hne => ?_⟩
    simp only [Forest.contentOf?, Forest.get?_update, if_neg hne]

end
end Grove
