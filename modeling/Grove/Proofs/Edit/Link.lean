import Grove.Proofs.Edit.Run

/-!
# Outcomes of the linking edits

Each edit that writes links has, in a well-formed forest, one of two outcomes: it relinks the forest
as one of the functions on forests does, or it fails and has changed nothing.
-/

namespace Grove
set_option autoImplicit false

namespace Forest
variable {C : Type} {F : Forest C} {c h k p x : Handle} {i : Nat}

/-- Takes a node out of the children of its parent; a root stays as it is. -/
def cut (F : Forest C) (h : Handle) : Forest C :=
  match F.above? h with
  | none => F
  | some p => (F.setBelow p ((F.below p).erase h)).setParent h none

theorem cut_of_root (hroot : F.above? h = none) : F.cut h = F := by
  simp only [cut, hroot]

theorem WellFormed.unlink_eq_cut (hF : F.WellFormed) (hi : (F.below p)[i]? = some c) :
    F.unlink p i c = F.cut c := by
  have hp := hF.above?_eq_some_iff.mpr (List.mem_of_getElem? hi)
  rw [cut, hp, Forest.unlink, eraseIdx_eq_erase (hF.nodup_below p) hi]

@[simp] theorem settings_cut (F : Forest C) (h : Handle) : (F.cut h).settings = F.settings := by
  unfold cut
  split <;> rfl

@[simp] theorem contains_cut (F : Forest C) (h k : Handle) :
    (F.cut h).contains k = F.contains k := by
  unfold cut
  split <;> simp

@[simp] theorem contentOf?_cut (F : Forest C) (h k : Handle) :
    (F.cut h).contentOf? k = F.contentOf? k := by
  unfold cut
  split <;> simp

theorem above?_cut (F : Forest C) (h k : Handle) :
    (F.cut h).above? k = if k = h then none else F.above? k := by
  cases hp : F.above? h with
  | none =>
    rw [cut_of_root hp]
    split
    · rename_i hk
      rw [hk, hp]
    · rfl
  | some p =>
    simp only [cut, hp]
    rw [above?_setParent (by simpa using contains_of_above? hp), above?_setBelow]

namespace WellFormed

theorem below_cut (hF : F.WellFormed) (h k : Handle) :
    (F.cut h).below k = (F.below k).erase h := by
  have hnot : F.above? h ≠ some k → (F.below k).erase h = F.below k := fun hne =>
    List.erase_of_not_mem fun hm => hne (hF.above?_eq_some_iff.mpr hm)
  cases hp : F.above? h with
  | none => rw [cut_of_root hp, hnot (by simp [hp])]
  | some p =>
    simp only [cut, hp]
    rw [below_setParent, below_setBelow (hF.contains_of_above? hp)]
    split
    · rename_i hk
      rw [hk]
    · rename_i hk
      rw [hnot (by rw [hp]; exact fun he => hk (Option.some.inj he).symm)]

theorem getElem?_of_above? (hF : F.WellFormed) (hp : F.above? h = some p) :
    ∃ i, (F.below p).findIdx? (· == h) = some i ∧ (F.below p)[i]? = some h := by
  have hm := hF.above?_eq_some_iff.mp hp
  cases hi : (F.below p).findIdx? (· == h) with
  | none =>
    rw [List.findIdx?_eq_none_iff] at hi
    simpa using hi h hm
  | some i =>
    obtain ⟨hlt, heq, -⟩ := List.findIdx?_eq_some_iff_getElem.mp hi
    exact ⟨i, rfl, by rw [List.getElem?_eq_getElem hlt, beq_iff_eq.mp heq]⟩

theorem cut (hF : F.WellFormed) (h : Handle) : (F.cut h).WellFormed := by
  cases hp : F.above? h with
  | none => rwa [cut_of_root hp]
  | some p =>
    obtain ⟨i, -, hi⟩ := hF.getElem?_of_above? hp
    rw [← hF.unlink_eq_cut hi]
    exact hF.unlink hi

end WellFormed
end Forest

namespace EditM
variable {C : Type} [Content C] {s : Session C} {c h k p x : Handle} {i : Nat}

theorem describe_run (h : Handle) (s : Session C) :
    describe h s = .ok (s.forest.describe h) s := rfl

theorem removeParent_of_above? (hp : s.forest.above? h = some p) :
    removeParent h s = .ok p (s.withForest (s.forest.setParent h none)) := by
  have hq := query_parent (Forest.contains_of_above? hp)
  rw [hp] at hq
  simp only [removeParent, bind_of_ok _ hq,
    bind_of_ok _ (updateNode_of_contains _ (Forest.contains_of_above? hp))]
  rfl

/-! ## Pointing and attaching -/

theorem setAsParentOf_of_passed (hp : s.forest.contains p = true)
    (hx : s.forest.contains x = true) (hroot : s.forest.above? x = none)
    (hpass : s.forest.ensureAcyclic p x = .ok ()) :
    setAsParentOf p x s = .ok () (s.withForest (s.forest.setParent x (some p))) := by
  obtain ⟨n, -, hn⟩ := query_node hp
  have hq := query_parent hx
  rw [hroot] at hq
  have hacyclic : query (fun F => F.ensureAcyclic p x) s = .ok () s := query_of_ok hpass
  simp only [setAsParentOf, bind_of_ok _ (discard_of_ok hn), bind_of_ok _ hq,
    bind_of_ok _ hacyclic, updateNode_of_contains _ hx]
  rfl

theorem setAsParentOf_of_owned {q : Handle} (hp : s.forest.contains p = true)
    (hq : s.forest.above? x = some q) :
    setAsParentOf p x s =
      .error (.alreadyOwned (s.forest.describe x) (s.forest.describe q)) s := by
  obtain ⟨n, -, hn⟩ := query_node hp
  have hpar := query_parent (Forest.contains_of_above? hq)
  rw [hq] at hpar
  simp only [setAsParentOf, bind_of_ok _ (discard_of_ok hn), bind_of_ok _ hpar]
  rfl

theorem setAsParentOf_of_covers (hF : s.forest.WellFormed) (hp : s.forest.contains p = true)
    (hx : s.forest.contains x = true) (hroot : s.forest.above? x = none)
    (hc : s.forest.Covers x p) :
    setAsParentOf p x s = .error (.cycleDetected (s.forest.describe x)) s := by
  obtain ⟨n, -, hn⟩ := query_node hp
  have hq := query_parent hx
  rw [hroot] at hq
  have hacyclic : query (fun F => F.ensureAcyclic p x) s =
      .error (.cycleDetected (s.forest.describe x)) s :=
    query_of_error (by rw [hF.ensureAcyclic_eq hp hx, if_pos hc])
  simp only [setAsParentOf, bind_of_ok _ (discard_of_ok hn), bind_of_ok _ hq,
    bind_of_error _ hacyclic]

/-- Whatever the links are like, only a root that passes the check is made to point. -/
theorem setAsParentOf_cases (p x : Handle) (s : Session C) :
    (s.forest.contains p = true ∧ s.forest.contains x = true ∧ s.forest.above? x = none ∧
        s.forest.ensureAcyclic p x = .ok () ∧
        setAsParentOf p x s = .ok () (s.withForest (s.forest.setParent x (some p)))) ∨
      ∃ e, setAsParentOf p x s = .error e s := by
  cases hp : s.forest.contains p with
  | false =>
    have hn := query_node_of_not_contains hp
    exact Or.inr ⟨.invalidHandle p, by
      simp only [setAsParentOf, bind_of_error _ (discard_of_error hn)]⟩
  | true =>
    obtain ⟨n, -, hn⟩ := query_node hp
    cases hx : s.forest.contains x with
    | false =>
      have hq := query_of_not_contains (q := fun F => F.parent x) rfl hx
      exact Or.inr ⟨.invalidHandle x, by
        simp only [setAsParentOf, bind_of_ok _ (discard_of_ok hn), bind_of_error _ hq]⟩
    | true =>
      cases hroot : s.forest.above? x with
      | some q => exact Or.inr ⟨_, setAsParentOf_of_owned hp hroot⟩
      | none =>
        cases hpass : s.forest.ensureAcyclic p x with
        | ok u => exact Or.inl ⟨rfl, rfl, rfl, rfl, setAsParentOf_of_passed hp hx hroot hpass⟩
        | error e =>
          have hq := query_parent hx
          rw [hroot] at hq
          have hacyclic : query (fun F => F.ensureAcyclic p x) s = .error e s :=
            query_of_error hpass
          exact Or.inr ⟨e, by
            simp only [setAsParentOf, bind_of_ok _ (discard_of_ok hn), bind_of_ok _ hq,
              bind_of_error _ hacyclic]⟩

theorem setAsParentOf_outcome (hF : s.forest.WellFormed) :
    (s.forest.contains p = true ∧ s.forest.contains x = true ∧ s.forest.above? x = none ∧
        ¬ s.forest.Covers x p ∧
        setAsParentOf p x s = .ok () (s.withForest (s.forest.setParent x (some p)))) ∨
      ∃ e, setAsParentOf p x s = .error e s := by
  rcases setAsParentOf_cases p x s with ⟨hp, hx, hroot, hpass, hrun⟩ | herror
  · refine Or.inl ⟨hp, hx, hroot, fun hc => ?_, hrun⟩
    rw [hF.ensureAcyclic_eq hp hx, if_pos hc] at hpass
    exact nomatch hpass
  · exact Or.inr herror

theorem attach_of_passed (hp : s.forest.contains p = true) (hx : s.forest.contains x = true)
    (hroot : s.forest.above? x = none) (hpass : s.forest.ensureAcyclic p x = .ok ())
    (hi : i ≤ (s.forest.below p).length) :
    attach p i x s = .ok () (s.withForest (s.forest.link p i x)) := by
  have hedit := editChildren_of_some (h := p) (f := fun cs => Position.insert? cs i x)
    (s := s.withForest (s.forest.setParent x (some p))) (a := ())
    (l := (s.forest.below p).insertIdx i x) (by simpa using hp)
    (by simp [Position.insert?, hi])
  simp only [attach, bind_of_ok _ (setAsParentOf_of_passed hp hx hroot hpass), hedit]
  rfl

theorem attach_of_root (hF : s.forest.WellFormed) (hp : s.forest.contains p = true)
    (hx : s.forest.contains x = true) (hroot : s.forest.above? x = none)
    (hnot : ¬ s.forest.Covers x p) (hi : i ≤ (s.forest.below p).length) :
    attach p i x s = .ok () (s.withForest (s.forest.link p i x)) :=
  attach_of_passed hp hx hroot (by rw [hF.ensureAcyclic_eq hp hx, if_neg hnot]) hi

theorem attach_outcome (hF : s.forest.WellFormed) (hi : i ≤ (s.forest.below p).length) :
    (s.forest.contains p = true ∧ s.forest.contains x = true ∧ s.forest.above? x = none ∧
        ¬ s.forest.Covers x p ∧
        attach p i x s = .ok () (s.withForest (s.forest.link p i x))) ∨
      ∃ e, attach p i x s = .error e s := by
  rcases setAsParentOf_outcome hF with ⟨hp, hx, hroot, hc, -⟩ | ⟨e, he⟩
  · exact Or.inl ⟨hp, hx, hroot, hc, attach_of_root hF hp hx hroot hc hi⟩
  · exact Or.inr ⟨e, by simp only [attach, bind_of_error _ he]⟩

theorem attachLast_outcome (hF : s.forest.WellFormed) :
    (s.forest.contains p = true ∧ s.forest.contains x = true ∧ s.forest.above? x = none ∧
        ¬ s.forest.Covers x p ∧ attachLast p x s =
          .ok () (s.withForest (s.forest.link p (s.forest.below p).length x))) ∨
      ∃ e, attachLast p x s = .error e s := by
  cases hp : s.forest.contains p with
  | false =>
    have hq := query_of_not_contains (q := fun F => F.numChildren p) rfl hp
    exact Or.inr ⟨.invalidHandle p, by simp only [attachLast, bind_of_error _ hq]⟩
  | true =>
    rw [attachLast, bind_of_ok _ (query_numChildren hp)]
    have hattach := attach_outcome (x := x) hF (Nat.le_refl (s.forest.below p).length)
    rwa [hp] at hattach

/-! ## Removing and detaching -/

/-- A listed child that points back is unlinked. -/
theorem removeChild_of_points (hi : (s.forest.below p)[i]? = some c)
    (hc : s.forest.above? c = some p) :
    removeChild p i s = .ok c (s.withForest (s.forest.unlink p i c)) := by
  have hp := Forest.contains_of_mem_below (List.mem_of_getElem? hi)
  obtain ⟨hlt, -⟩ := List.getElem?_eq_some_iff.mp hi
  have hedit := editChildren_of_some (f := fun cs => Position.erase? cs i) (a := c)
    (l := (s.forest.below p).eraseIdx i) hp (by simp [Position.erase?, hi])
  have hparent := removeParent_of_above? (h := c) (p := p)
    (s := s.withForest (s.forest.setBelow p ((s.forest.below p).eraseIdx i)))
    (by simpa using hc)
  have hne : ¬ (s.forest.below p).length = 0 := by omega
  simp only [removeChild, bind_of_ok _ (query_numChildren hp), if_neg hne,
    if_neg (Nat.not_le.mpr hlt), bind_of_ok _ hedit, bind_of_ok _ (discard_of_ok hparent)]
  rfl

theorem removeChild_of_getElem? (hF : s.forest.WellFormed)
    (hi : (s.forest.below p)[i]? = some c) :
    removeChild p i s = .ok c (s.withForest (s.forest.cut c)) := by
  rw [← hF.unlink_eq_cut hi]
  exact removeChild_of_points hi (hF.above?_eq_some_iff.mpr (List.mem_of_getElem? hi))

theorem removeChild_of_getElem?_eq_none (hi : (s.forest.below p)[i]? = none) :
    ∃ e, removeChild p i s = .error e s := by
  cases hp : s.forest.contains p with
  | false =>
    have hq := query_of_not_contains (q := fun F => F.numChildren p) rfl hp
    exact ⟨.invalidHandle p, by simp only [removeChild, bind_of_error _ hq]⟩
  | true =>
    have hlen := List.getElem?_eq_none_iff.mp hi
    by_cases h0 : (s.forest.below p).length = 0
    · exact ⟨_, by simp only [removeChild, bind_of_ok _ (query_numChildren hp), h0]; rfl⟩
    · exact ⟨_, by
        simp only [removeChild, bind_of_ok _ (query_numChildren hp), if_neg h0, if_pos hlen]
        rfl⟩

theorem detach_of_contains (hF : s.forest.WellFormed) (hh : s.forest.contains h = true) :
    detach h s = .ok () (s.withForest (s.forest.cut h)) := by
  have hq := query_parent hh
  cases hp : s.forest.above? h with
  | none =>
    rw [hp] at hq
    rw [Forest.cut_of_root hp]
    simp only [detach, bind_of_ok _ hq]
    rfl
  | some p =>
    rw [hp] at hq
    obtain ⟨i, hfind, hi⟩ := hF.getElem?_of_above? hp
    have hindex : query (fun F => F.indexOfChild p h) s = .ok (some i) s := by
      apply query_of_ok
      simp only [Forest.indexOfChild, Forest.children_of_contains (hF.contains_of_above? hp)]
      exact congrArg Except.ok hfind
    simp only [detach, bind_of_ok _ hq, bind_of_ok _ hindex,
      discard_of_ok (removeChild_of_getElem? hF hi)]

theorem detach_of_not_contains (hh : s.forest.contains h = false) :
    detach h s = .error (.invalidHandle h) s := by
  have hq := query_of_not_contains (q := fun F => F.parent h) rfl hh
  simp only [detach, bind_of_error _ hq]

/-! ## Disposing -/

theorem dispose_of_walk {ds : List Handle} (hroot : s.forest.above? h = none)
    (hds : s.forest.descendantsAndSelf h = .ok ds) :
    dispose h s = .ok ds.length (s.withForest (s.forest.uproot ds)) := by
  have hh : s.forest.contains h = true := by
    cases hh : s.forest.contains h with
    | true => rfl
    | false =>
      rw [Forest.descendantsAndSelf, Forest.node_of_not_contains hh] at hds
      cases hds
  have hq := query_parent hh
  rw [hroot] at hq
  have hsub : query (fun F => F.descendantsAndSelf h) s = .ok ds s := query_of_ok hds
  simp only [dispose, bind_of_ok _ hq, bind_of_ok _ hsub]
  rfl

theorem dispose_of_root (hF : s.forest.WellFormed) (hh : s.forest.contains h = true)
    (hroot : s.forest.above? h = none) :
    ∃ ds, s.forest.descendantsAndSelf h = .ok ds ∧ ds.Nodup ∧
      (∀ k, k ∈ ds ↔ s.forest.Covers h k) ∧
      dispose h s = .ok ds.length (s.withForest (s.forest.uproot ds)) := by
  obtain ⟨ds, hds, hnd, hmem⟩ := hF.descendantsAndSelf_eq hh
  exact ⟨ds, hds, hnd, hmem, dispose_of_walk hroot hds⟩

theorem dispose_of_owned (hp : s.forest.above? h = some p) :
    dispose h s = .error (.alreadyOwned (s.forest.describe h) (s.forest.describe p)) s := by
  have hq := query_parent (Forest.contains_of_above? hp)
  rw [hp] at hq
  simp only [dispose, bind_of_ok _ hq]
  rfl

theorem dispose_of_not_contains (hh : s.forest.contains h = false) :
    dispose h s = .error (.invalidHandle h) s := by
  have hq := query_of_not_contains (q := fun F => F.parent h) rfl hh
  simp only [dispose, bind_of_error _ hq]

end EditM
end Grove
