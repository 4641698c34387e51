import Grove.Proofs.Edit.DeepCopy
import Grove.Proofs.Edit.Insert

/-!
# Relisting

Removing a child, inserting one and putting a node in the place of one have the same effect: a node
has another list of children. What has joined the list has that node as its parent, what has left it
is a root, and no other link has changed. Of such an edit only the list has to be told.
-/

namespace Grove
set_option autoImplicit false

namespace Forest
variable {C : Type} {E F G : Forest C} {c k p x y : Handle} {i : Nat} {l : List Handle}

/-- `G` is `F` with the children `l` for `p`, and perhaps with new nodes. -/
structure Relisted (F G : Forest C) (p : Handle) (l : List Handle) : Prop where
  wellFormed : G.WellFormed
  children : G.below p = l
  above?_eq : ∀ k, F.contains k = true →
    G.above? k = if k ∈ l then some p else if k ∈ F.below p then none else F.above? k
  below_eq : ∀ k, F.contains k = true → k ≠ p → G.below k = F.below k
  contentOf?_eq : ∀ k, F.contains k = true → G.contentOf? k = F.contentOf? k
  settings : G.settings = F.settings

/-- In well-formed forests the parents follow from the children. -/
theorem relisted_of_below (hF : F.WellFormed) (hG : G.WellFormed)
    (hbelow : ∀ k, G.below k = if k = p then l else F.below k)
    (hcontent : ∀ k, G.contentOf? k = F.contentOf? k) (hsettings : G.settings = F.settings) :
    F.Relisted G p l := by
  have hchildren : G.below p = l := by rw [hbelow, if_pos rfl]
  have hrest : ∀ {k}, k ≠ p → G.below k = F.below k := by
    intro k hk
    rw [hbelow, if_neg hk]
  refine ⟨hG, hchildren, fun k _ => ?_, fun k _ hk => hrest hk, fun k _ => hcontent k, hsettings⟩
  by_cases hk : k ∈ l
  · rw [if_pos hk, hG.above?_eq_some_iff, hchildren]
    exact hk
  · have hup : ∀ q, G.above? k = some q ↔ q ≠ p ∧ F.above? k = some q := by
      intro q
      rw [hG.above?_eq_some_iff, hF.above?_eq_some_iff]
      by_cases hq : q = p
      · simp [hq, hchildren, hk]
      · simp [hq, hrest hq]
    rw [if_neg hk]
    ext q
    by_cases hkp : k ∈ F.below p
    · rw [if_pos hkp, hup, hF.above?_eq_some_iff.mpr hkp]
      simp [eq_comm]
    · have hne : ∀ q, F.above? k = some q → q ≠ p := by
        rintro q hq rfl
        exact hkp (hF.above?_eq_some_iff.mp hq)
      rw [if_neg hkp, hup]
      exact and_iff_right_of_imp (hne q)

theorem relisted_cut (hF : F.WellFormed) (hi : (F.below p)[i]? = some c) :
    F.Relisted (F.cut c) p ((F.below p).eraseIdx i) := by
  refine relisted_of_below hF (hF.cut c) (fun k => ?_) (contentOf?_cut F c) (settings_cut F c)
  rw [hF.below_cut, eraseIdx_eq_erase (hF.nodup_below p) hi]
  split
  · rename_i hk
    rw [hk]
  · rename_i hk
    refine List.erase_of_not_mem fun hc => hk ?_
    have hp := hF.above?_eq_some_iff.mpr (List.mem_of_getElem? hi)
    exact Option.some.inj ((hF.above?_eq_some_iff.mpr hc).symm.trans hp)

theorem relisted_link (hF : F.WellFormed) (hp : F.contains p = true) (hx : F.contains x = true)
    (hroot : F.above? x = none) (hnot : ¬ F.Covers x p) (hi : i ≤ (F.below p).length) :
    F.Relisted (F.link p i x) p ((F.below p).insertIdx i x) :=
  relisted_of_below hF (hF.link hp hx hroot hnot hi) (below_link hp) (contentOf?_link F p i x) rfl

theorem relisted_substitute (hF : F.WellFormed) (hi : (F.below p)[i]? = some c)
    (hx : F.contains x = true) (hroot : F.above? x = none) (hnot : ¬ F.Covers x p) :
    F.Relisted (F.substitute p i x c) p ((F.below p).set i x) :=
  relisted_of_below hF (hF.substitute hi hx hroot hnot)
    (below_substitute (Forest.contains_of_mem_below (List.mem_of_getElem? hi)))
    (contentOf?_substitute F p i x c) rfl

theorem Extends.relisted (hFG : F.Extends G) (hp : F.contains p = true)
    (hE : G.Relisted E p l) : F.Relisted E p l where
  wellFormed := hE.wellFormed
  children := hE.children
  above?_eq k hk := by
    rw [hE.above?_eq k (hFG.contains hk), hFG.below_eq hp, hFG.above?_eq hk]
  below_eq k hk hkp := (hE.below_eq k (hFG.contains hk) hkp).trans (hFG.below_eq hk)
  contentOf?_eq k hk := (hE.contentOf?_eq k (hFG.contains hk)).trans (hFG.contentOf?_eq hk)
  settings := hE.settings.trans hFG.settings

theorem Relisted.contains (hG : F.Relisted G p l) (hk : F.contains k = true) :
    G.contains k = true := by
  rw [contains_eq_of_contentOf?_eq (hG.contentOf?_eq k hk)]
  exact hk

theorem Relisted.refl (hF : F.WellFormed) (p : Handle) : F.Relisted F p (F.below p) := by
  refine ⟨hF, rfl, ?_, fun _ _ _ => rfl, fun _ _ => rfl, rfl⟩
  intro k hk
  by_cases hkp : k ∈ F.below p
  · rw [if_pos hkp]
    exact hF.above?_eq_some_iff.mpr hkp
  · rw [if_neg hkp, if_neg hkp]

/-- The second list counts, as long as what has left the first one was a child or a root in the
beginning. -/
theorem Relisted.trans {l' : List Handle} (hG : F.Relisted G p l) (hE : G.Relisted E p l')
    (hl : ∀ k ∈ l, k ∈ l' ∨ k ∈ F.below p ∨ F.above? k = none) : F.Relisted E p l' := by
  refine ⟨hE.wellFormed, hE.children, ?_, ?_, ?_, hE.settings.trans hG.settings⟩
  · intro k hk
    rw [hE.above?_eq k (hG.contains hk), hG.children, hG.above?_eq k hk]
    by_cases hkl' : k ∈ l'
    · rw [if_pos hkl', if_pos hkl']
    · rw [if_neg hkl', if_neg hkl']
      by_cases hkl : k ∈ l
      · rcases (hl k hkl).resolve_left hkl' with hkp | hroot <;> simp [*]
      · rw [if_neg hkl, if_neg hkl]
  · intro k hk hkp
    rw [hE.below_eq k (hG.contains hk) hkp, hG.below_eq k hk hkp]
  · intro k hk
    rw [hE.contentOf?_eq k (hG.contains hk), hG.contentOf?_eq k hk]

/-- With the list that was there in the beginning every node is as it was. -/
theorem Relisted.get?_eq (hG : F.Relisted G p (F.below p)) (hF : F.WellFormed)
    (hk : F.contains k = true) : G.get? k = F.get? k := by
  rw [get?_eq_get?_iff, hG.contentOf?_eq k hk, hG.above?_eq k hk]
  refine ⟨rfl, ?_, ?_⟩
  · by_cases hkp : k ∈ F.below p
    · rw [if_pos hkp]
      exact (hF.above?_eq_some_iff.mpr hkp).symm
    · rw [if_neg hkp, if_neg hkp]
  · by_cases hkp : k = p
    · rw [hkp, hG.children]
    · rw [hG.below_eq k hk hkp]

/-- In `G` there is `y` for the `x` of `F` that was to be inserted: a root itself, without any new
node, and for a node that is owned a copy of its subtree. -/
def StandsFor (F G : Forest C) (y x : Handle) : Prop :=
  (F.above? x = none ∧ y = x ∧ ∀ k, G.contains k = F.contains k) ∨
    F.above? x ≠ none ∧ ∃ f, F.DeepCopy G x y f

/-- `x` can be inserted below `p`: it is a root that is not above `p`, or a copy of it can be made and
the settings ask for one. -/
def Admits (copyable : C → Prop) (F : Forest C) (p x : Handle) : Prop :=
  F.contains x = true ∧
    (F.above? x = none ∧ ¬ F.Covers x p ∨
      F.above? x ≠ none ∧ F.settings.sanitize = .copy ∧
        ∀ k n, F.Covers x k → F.get? k = some n → copyable n.content)

end Forest

namespace EditM
variable {C : Type} [ShallowCopy C] [RegularCopy C] {s : Session C} {p x : Handle}

/-- What is inserted is the given root itself, or else a copy, which can be inserted anywhere; a
refusal changes no node. -/
theorem sanitize_outcome (hF : s.forest.WellFormed) (x : Handle) :
    (s.forest.contains x = true ∧ s.forest.above? x = none ∧ sanitize x s = .ok x s) ∨
      ((∀ p, s.forest.Admits (RegularCopy.copyable · = true) p x) ∧ s.forest.above? x ≠ none ∧
        ∃ y t f, sanitize x s = .ok y t ∧ s.forest.Sprouted t.forest y ∧
          s.forest.DeepCopy t.forest x y f) ∨
      ((∀ p, ¬ s.forest.Admits (RegularCopy.copyable · = true) p x) ∧
        ∃ e t, sanitize x s = .error e t ∧ t.forest.SameNodes s.forest) := by
  cases hx : s.forest.contains x with
  | false =>
    refine Or.inr (Or.inr ⟨fun p hadmits => ?_, _, s, sanitize_of_not_contains hx, .refl _⟩)
    exact absurd hadmits.1 (by simp [hx])
  | true =>
    cases hq : s.forest.above? x with
    | none => exact Or.inl ⟨rfl, rfl, sanitize_of_root hx hq⟩
    | some q =>
      have howned : s.forest.above? x ≠ none := by simp [hq]
      cases hset : s.forest.settings.sanitize with
      | reject =>
        refine Or.inr (Or.inr ⟨?_, _, s, sanitize_of_reject hq hset, .refl _⟩)
        rintro p ⟨-, ⟨hroot, -⟩ | ⟨-, hcopy, -⟩⟩
        · exact howned hroot
        · exact nomatch hset.symm.trans hcopy
      | copy =>
        rw [sanitize_of_copy hq hset]
        by_cases hall : ∀ k n, s.forest.Covers x k → s.forest.get? k = some n →
            RegularCopy.copyable n.content = true
        · exact Or.inr (Or.inl ⟨fun p => ⟨hx, Or.inr ⟨howned, hset, hall⟩⟩, Option.some_ne_none q,
            copy_run hF hx hall⟩)
        · obtain ⟨line, t, hrun, hsame⟩ := copy_of_not_copyable hF hx (by simpa using hall)
          refine Or.inr (Or.inr ⟨?_, _, t, hrun, hsame⟩)
          rintro p ⟨-, ⟨hroot, -⟩ | ⟨-, -, hcopyable⟩⟩
          · exact howned hroot
          · exact hall hcopyable

/-- An insertion relists the parent if the parent admits the node, and else it leaves all nodes as
they were. -/
theorem insertChild_outcome (hF : s.forest.WellFormed) (p : Handle) (i : Nat) (x : Handle) :
    (s.forest.Admits (RegularCopy.copyable · = true) p x ∧
        ∃ y t, insertChild p i x s = .ok y t ∧ s.forest.StandsFor t.forest y x ∧
          s.forest.Relisted t.forest p ((s.forest.below p).insertIdx i y)) ∨
      ((s.forest.contains p = true → i ≤ (s.forest.below p).length →
          ¬ s.forest.Admits (RegularCopy.copyable · = true) p x) ∧
        ∃ e t, insertChild p i x s = .error e t ∧ t.forest.SameNodes s.forest) := by
  cases hp : s.forest.contains p with
  | false => exact Or.inr ⟨nofun, _, s, insertChild_of_not_contains hp i x, .refl _⟩
  | true =>
    by_cases hi : i ≤ (s.forest.below p).length
    · rcases sanitize_outcome hF x with ⟨hx, hroot, hrun⟩ |
        ⟨hadmits, howned, y, t, f, hrun, hs, hcopy⟩ | ⟨hnot, e, t, hrun, hsame⟩
      · rcases insertChild_of_sanitize_ok hp hi hrun (.refl _) hF with
          ⟨-, -, hnot, hinsert⟩ | ⟨e, hinsert⟩
        · exact Or.inl ⟨⟨hx, Or.inl ⟨hroot, hnot⟩⟩, x, _, hinsert,
            Or.inl ⟨hroot, rfl, Forest.contains_link _ p i x⟩,
            Forest.relisted_link hF hp hx hroot hnot hi⟩
        · refine Or.inr ⟨?_, e, s, hinsert, .refl _⟩
          rintro - - ⟨-, ⟨-, hnot⟩ | ⟨howned, -⟩⟩
          · exact nomatch (insertChild_of_root hF hp hi hx hroot hnot).symm.trans hinsert
          · exact howned hroot
      · have hrelisted := Forest.relisted_link hs.wellFormed (hs.old.contains hp) hs.contains hs.root
          (hs.not_covers hF hp) (i := i) (by rwa [hs.old.below_eq hp])
        rw [hs.old.below_eq hp] at hrelisted
        have hstands : s.forest.DeepCopy (t.forest.link p i y) x y f :=
          hcopy.relink hp (Forest.contentOf?_link t.forest p i y) fun k hk => by
            rw [Forest.below_link (hs.old.contains hp), if_neg hk]
        exact Or.inl ⟨hadmits p, y, _, insertChild_of_sprouted hF hp hi hrun hs,
          Or.inr ⟨howned, f, hstands⟩, hs.old.relisted hp hrelisted⟩
      · exact Or.inr ⟨fun _ _ => hnot p, e, t, insertChild_of_sanitize_error hp hi hrun, hsame⟩
    · exact Or.inr ⟨fun _ hle => absurd hle hi, _, s,
        insertChild_of_lt hp (Nat.not_le.mp hi) x, .refl _⟩

theorem setChild_outcome (hF : s.forest.WellFormed) (p : Handle) (i : Nat) (x : Handle) :
    (s.forest.Admits (RegularCopy.copyable · = true) p x ∧
        ∃ c y t, setChild p i x s = .ok c t ∧ (s.forest.below p)[i]? = some c ∧
          s.forest.StandsFor t.forest y x ∧
          s.forest.Relisted t.forest p ((s.forest.below p).set i y)) ∨
      ((i < (s.forest.below p).length →
          ¬ s.forest.Admits (RegularCopy.copyable · = true) p x) ∧
        ∃ e t, setChild p i x s = .error e t ∧ t.forest.SameNodes s.forest) := by
  cases hi : (s.forest.below p)[i]? with
  | none =>
    obtain ⟨e, hrun⟩ := setChild_of_getElem?_eq_none hi x
    have hlen := List.getElem?_eq_none_iff.mp hi
    exact Or.inr ⟨fun hlt => absurd hlt (Nat.not_lt.mpr hlen), e, s, hrun, .refl _⟩
  | some c =>
    have hp := Forest.contains_of_mem_below (List.mem_of_getElem? hi)
    rcases sanitize_outcome hF x with ⟨hx, hroot, hrun⟩ |
      ⟨hadmits, howned, y, t, f, hrun, hs, hcopy⟩ | ⟨hnot, e, t, hrun, hsame⟩
    · rcases setChild_of_sanitize_ok hi hrun (.refl _) hF with
        ⟨-, -, hnot, hset⟩ | ⟨e, hset⟩
      · exact Or.inl ⟨⟨hx, Or.inl ⟨hroot, hnot⟩⟩, c, x, _, hset, rfl,
          Or.inl ⟨hroot, rfl, Forest.contains_substitute _ p i x c⟩,
          Forest.relisted_substitute hF hi hx hroot hnot⟩
      · refine Or.inr ⟨?_, e, s, hset, .refl _⟩
        rintro - ⟨-, ⟨-, hnot⟩ | ⟨howned, -⟩⟩
        · exact nomatch (setChild_of_root hF hi hx hroot hnot).symm.trans hset
        · exact howned hroot
    · have hrelisted := Forest.relisted_substitute hs.wellFormed (p := p) (i := i) (c := c)
        (by rwa [hs.old.below_eq hp]) hs.contains hs.root (hs.not_covers hF hp)
      rw [hs.old.below_eq hp] at hrelisted
      have hstands : s.forest.DeepCopy (t.forest.substitute p i y c) x y f :=
        hcopy.relink hp (Forest.contentOf?_substitute t.forest p i y c) fun k hk => by
          rw [Forest.below_substitute (hs.old.contains hp), if_neg hk]
      exact Or.inl ⟨hadmits p, c, y, _, setChild_of_sprouted hF hi hrun hs, rfl,
        Or.inr ⟨howned, f, hstands⟩, hs.old.relisted hp hrelisted⟩
    · exact Or.inr ⟨fun _ => hnot p, e, t, setChild_of_sanitize_error hi hrun, hsame⟩

end EditM
end Grove
