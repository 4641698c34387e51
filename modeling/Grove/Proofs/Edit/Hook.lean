import Grove.Proofs.Edit.Copy
import Grove.Proofs.Edit.Follow

/-!
# Safe copies

What a shallow copy may do without harm: it may make new nodes and link them, and hand back a new node
or the source. A deep copy made of such copies changes no node that was there before, so a position
that was looked up before the copy is still right after it.
-/

namespace Grove
set_option autoImplicit false

/-- Shallow copies that keep the links of a well-formed forest, and change no old node if they
succeed. -/
class SafeCopy (C : Type) [ShallowCopy C] : Prop where
  wellFormed : ∀ {s : Session C} (h : Handle), s.forest.WellFormed →
    (final (EditM.copyShallow h) s).forest.WellFormed
  extends_of_ok : ∀ {s t : Session C} {h c : Handle}, s.forest.WellFormed →
    EditM.copyShallow h s = .ok c t →
      s.forest.contains h = true ∧ s.forest.Extends t.forest ∧
        (c = h ∨ s.forest.contains c = false)

instance safeCopy_of_regularCopy {C : Type} [ShallowCopy C] [RegularCopy C] : SafeCopy C where
  wellFormed {s} h hF := by
    rcases EditM.copyShallow_outcome hF h with ⟨c, t, hrun, -, hsprout⟩ | hrun
    · rw [final_of_ok hrun]
      exact hsprout.wellFormed
    · rwa [final_of_error hrun]
  extends_of_ok {s t h c} hF hrun := by
    rcases EditM.copyShallow_outcome hF h with ⟨c', t', hrun', hh, hsprout⟩ | hrun'
    · rw [hrun'] at hrun
      cases hrun
      exact ⟨hh, hsprout.old, Or.inr hsprout.fresh⟩
    · rw [hrun'] at hrun
      exact nomatch hrun

/-- The law that a well-formed forest stays well-formed. -/
def KeepsWellFormed {C : Type} (s t : Session C) : Prop :=
  s.forest.WellFormed → t.forest.WellFormed

namespace EditM
variable {C : Type} {s t : Session C} {c h k p x : Handle} {i : Nat}

instance isPreorder_keepsWellFormed : IsPreorder (Session C) KeepsWellFormed where
  refl _ hF := hF
  trans _ _ _ hst htu hF := htu (hst hF)

theorem links_setContent (h : Handle) (f : C → C) (s : Session C) (k : Handle) :
    (final (setContent h f) s).forest.above? k = s.forest.above? k ∧
      (final (setContent h f) s).forest.below k = s.forest.below k := by
  cases hh : s.forest.contains h with
  | false =>
    rw [final_of_error (setContent_of_not_contains f hh)]
    exact ⟨rfl, rfl⟩
  | true =>
    rw [final_of_ok (setContent_of_contains f hh), Session.forest_withForest]
    simp only [Forest.above?, Forest.below, Forest.get?_update]
    split
    · rename_i hk
      rw [hk]
      cases s.forest.get? h <;> exact ⟨rfl, rfl⟩
    · exact ⟨rfl, rfl⟩

theorem setContent_keepsWellFormed (h : Handle) (f : C → C) :
    Follows KeepsWellFormed (setContent h f) := fun s hF =>
  hF.congr (fun k => (links_setContent h f s k).1) fun k => (links_setContent h f s k).2

variable [ShallowCopy C]

theorem attachLast_keepsWellFormed (p x : Handle) :
    Follows KeepsWellFormed (attachLast (C := C) p x) := by
  intro s hF
  rcases attachLast_outcome hF with ⟨hp, hx, hroot, hnot, hrun⟩ | ⟨e, hrun⟩
  · rw [final_of_ok hrun]
    exact hF.link hp hx hroot hnot (Nat.le_refl _)
  · rwa [final_of_error hrun]

/-- Hanging one new node below another changes no old one. -/
theorem attachLast_extends {F : Forest C} (hF : F.Extends s.forest)
    (hs : s.forest.WellFormed) (hp : F.contains p = false) (hx : F.contains x = false)
    (hrun : attachLast p x s = .ok () t) : F.Extends t.forest := by
  rcases attachLast_outcome (p := p) (x := x) hs with ⟨hps, hxs, -, -, hlink⟩ | ⟨e, he⟩
  · rw [hlink] at hrun
    cases hrun
    refine ⟨fun k hk => ?_, hF.settings⟩
    rw [Session.forest_withForest, Forest.get?_link hps hxs (Forest.ne_of_contains hk hp)
      (Forest.ne_of_contains hk hx), hF.get? k hk]
  · rw [he] at hrun
    exact nomatch hrun

theorem removeChild_keepsWellFormed (p : Handle) (i : Nat) :
    Follows KeepsWellFormed (removeChild (C := C) p i) := by
  intro s hF
  cases hi : (s.forest.below p)[i]? with
  | none =>
    obtain ⟨e, hrun⟩ := removeChild_of_getElem?_eq_none hi
    rwa [final_of_error hrun]
  | some c =>
    rw [final_of_ok (removeChild_of_getElem? hF hi)]
    exact hF.cut c

theorem detach_keepsWellFormed (h : Handle) : Follows KeepsWellFormed (detach (C := C) h) := by
  intro s hF
  cases hh : s.forest.contains h with
  | false => rwa [final_of_error (detach_of_not_contains hh)]
  | true =>
    rw [final_of_ok (detach_of_contains hF hh)]
    exact hF.cut h

theorem dispose_keepsWellFormed (h : Handle) : Follows KeepsWellFormed (dispose (C := C) h) := by
  intro s hF
  cases hh : s.forest.contains h with
  | false => rwa [final_of_error (dispose_of_not_contains hh)]
  | true =>
    cases hp : s.forest.above? h with
    | some p => rwa [final_of_error (dispose_of_owned hp)]
    | none =>
      obtain ⟨ds, -, -, hds, hrun⟩ := dispose_of_root hF hh hp
      rw [final_of_ok hrun]
      exact hF.uproot hp hds

theorem linkLaw_keepsWellFormed [SafeCopy C] : LinkLaw (C := C) KeepsWellFormed where
  notify _ _ hF := hF
  create content _ hF := hF.plant content
  setContent := setContent_keepsWellFormed
  attachLast := attachLast_keepsWellFormed
  removeChild := removeChild_keepsWellFormed
  detach := detach_keepsWellFormed
  dispose := dispose_keepsWellFormed
  copyShallow h _ hF := SafeCopy.wellFormed h hF

/-! ## Deep copies -/

variable [SafeCopy C]

theorem copyBare_extends (hF : s.forest.WellFormed) (hrun : copyBare h s = .ok c t) :
    s.forest.contains h = true ∧ s.forest.Extends t.forest ∧ t.forest.WellFormed ∧
      (c = h ∨ s.forest.contains c = false) ∧ t.forest.above? c = none ∧ t.forest.below c = [] := by
  obtain ⟨hcopy, -, hroot, hleaf⟩ := copyBare_eq_ok hrun
  obtain ⟨hh, hext, hc⟩ := SafeCopy.extends_of_ok hF hcopy
  exact ⟨hh, hext, (linkLaw_keepsWellFormed.copyShallow h).of_ok hcopy hF, hc, hroot, hleaf⟩

/-- As long as the nodes to be copied are old nodes with a parent and their targets are new, no old
node changes. -/
theorem copyPending_extends {F : Forest C} (hF : F.WellFormed) (m : Nat)
    (pending : List (Handle × Handle)) (hext : F.Extends s.forest) (hs : s.forest.WellFormed)
    (hpending : ∀ ab ∈ pending, F.above? ab.1 ≠ none ∧ F.contains ab.2 = false)
    (hrun : copyPending m pending s = .ok () t) : F.Extends t.forest := by
  induction m generalizing pending s with
  | zero =>
    cases pending with
    | nil =>
      cases hrun
      exact hext
    | cons ab pending => exact nomatch hrun
  | succ m ih =>
    cases pending with
    | nil =>
      cases hrun
      exact hext
    | cons ab pending =>
      obtain ⟨source, target⟩ := ab
      obtain ⟨howned, hnew⟩ := hpending _ List.mem_cons_self
      obtain ⟨c, s₁, hcopy, hrun₁⟩ := bind_eq_ok.mp hrun
      obtain ⟨_, s₂, hattach, hrun₂⟩ := bind_eq_ok.mp hrun₁
      obtain ⟨cs, s₃, hkids, hrun₃⟩ := bind_eq_ok.mp hrun₂
      obtain ⟨-, hext₁, hs₁, hc, hroot, -⟩ := copyBare_extends hs hcopy
      have hsource : F.contains source = true := by
        obtain ⟨p, hp⟩ := Option.ne_none_iff_exists'.mp howned
        exact Forest.contains_of_above? hp
      -- the copy is not the source, for the source has a parent
      have hcF : F.contains c = false := by
        rcases hc with rfl | hc
        · rw [(hext.trans hext₁).above?_eq hsource] at hroot
          exact absurd hroot howned
        · exact hext.not_contains hc
      rw [onFailure_eq_ok] at hattach
      have hext₂ := attachLast_extends (hext.trans hext₁) hs₁ hnew hcF hattach
      have hs₂ := (attachLast_keepsWellFormed target c).of_ok hattach hs₁
      rw [query_children (hext₂.contains hsource)] at hkids
      cases hkids
      refine ih _ hext₂ hs₂ (fun ab hab => ?_) hrun₃
      rcases List.mem_append.mp hab with hab | hab
      · obtain ⟨k, hk, rfl⟩ := List.mem_map.mp hab
        rw [hext₂.below_eq hsource] at hk
        exact ⟨by simp [hF.above?_eq_some_iff.mpr hk], hcF⟩
      · exact hpending ab (List.mem_cons_of_mem _ hab)

theorem copy_extends (hF : s.forest.WellFormed) (hrun : copy h s = .ok c t) :
    s.forest.Extends t.forest := by
  obtain ⟨root, s₁, hcopy, hrun₁⟩ := bind_eq_ok.mp hrun
  obtain ⟨_, s₂, hbelow, hrun₂⟩ := bind_eq_ok.mp hrun₁
  cases hrun₂
  obtain ⟨hh, hext, hs₁, hc, hroot, hbare⟩ := copyBare_extends hF hcopy
  rw [onFailure_eq_ok] at hbelow
  rw [copyBelow_eq (hext.contains hh), hext.below_eq hh] at hbelow
  refine copyPending_extends hF _ _ hext hs₁ (fun ab hab => ?_) hbelow
  obtain ⟨k, hk, rfl⟩ := List.mem_map.mp hab
  refine ⟨by simp [hF.above?_eq_some_iff.mpr hk], ?_⟩
  -- a source that is handed back is childless, so its children are not copied
  rcases hc with rfl | hc
  · rw [← hext.below_eq hh, hbare] at hk
    exact absurd hk (by simp)
  · exact hc

/-- What is inserted leaves the old nodes as they were. -/
theorem sanitize_extends (hF : s.forest.WellFormed) (hrun : sanitize h s = .ok c t) :
    s.forest.Extends t.forest := by
  cases hh : s.forest.contains h with
  | false =>
    rw [sanitize_of_not_contains hh] at hrun
    exact nomatch hrun
  | true =>
    cases hp : s.forest.above? h with
    | none =>
      rw [sanitize_of_root hh hp] at hrun
      cases hrun
      exact .refl _
    | some p =>
      cases hset : s.forest.settings.sanitize with
      | reject =>
        rw [sanitize_of_reject hp hset] at hrun
        exact nomatch hrun
      | copy =>
        rw [sanitize_of_copy hp hset] at hrun
        exact copy_extends hF hrun

end EditM
end Grove
