import Grove.Proofs.Edit.Hook

/-!
# Insertions

An insertion checks the position, makes sure of the node to be inserted, and links it. The position
is still there when the node is linked, so once the node is known to be a root that is not above the
parent, the insertion cannot fail any more.
-/

namespace Grove
set_option autoImplicit false

namespace EditM
variable {C : Type} [ShallowCopy C] {s t : Session C} {c h k p x y : Handle} {e : Error} {i : Nat}

/-! ## Inserting a child -/

theorem insertChild_eq (hp : s.forest.contains p = true) (hi : i ≤ (s.forest.below p).length)
    (x : Handle) :
    insertChild p i x s = (do
      let y ← sanitize x
      attach p i y
      return y) s := by
  simp only [insertChild, bind_of_ok _ (query_numChildren hp), if_neg (Nat.not_lt.mpr hi)]

theorem insertChild_of_not_contains (hp : s.forest.contains p = false) (i : Nat) (x : Handle) :
    insertChild p i x s = .error (.invalidHandle p) s := by
  have hq := query_of_not_contains (q := fun F => F.numChildren p) rfl hp
  simp only [insertChild, bind_of_error _ hq]

theorem insertChild_of_lt (hp : s.forest.contains p = true) (hi : (s.forest.below p).length < i)
    (x : Handle) : insertChild p i x s = .error (s.forest.indexError p i) s := by
  simp only [insertChild, bind_of_ok _ (query_numChildren hp), if_pos hi]
  rfl

theorem insertChild_of_sanitize_error (hp : s.forest.contains p = true)
    (hi : i ≤ (s.forest.below p).length) (hx : sanitize x s = .error e t) :
    insertChild p i x s = .error e t := by
  rw [insertChild_eq hp hi, bind_of_error _ hx]

theorem insertChild_of_sanitize_ok (hp : s.forest.contains p = true)
    (hi : i ≤ (s.forest.below p).length) (hx : sanitize x s = .ok y t)
    (hext : s.forest.Extends t.forest) (ht : t.forest.WellFormed) :
    (t.forest.contains y = true ∧ t.forest.above? y = none ∧ ¬ t.forest.Covers y p ∧
        insertChild p i x s = .ok y (t.withForest (t.forest.link p i y))) ∨
      ∃ e, insertChild p i x s = .error e t := by
  rw [insertChild_eq hp hi, bind_of_ok _ hx]
  have hlen : i ≤ (t.forest.below p).length := by rwa [hext.below_eq hp]
  rcases attach_outcome (x := y) ht hlen with ⟨-, hy, hroot, hnot, hrun⟩ | ⟨e, hrun⟩
  · exact Or.inl ⟨hy, hroot, hnot, by rw [bind_of_ok _ hrun]; rfl⟩
  · exact Or.inr ⟨e, by rw [bind_of_error _ hrun]⟩

theorem insertChild_of_root (hF : s.forest.WellFormed) (hp : s.forest.contains p = true)
    (hi : i ≤ (s.forest.below p).length) (hx : s.forest.contains x = true)
    (hroot : s.forest.above? x = none) (hnot : ¬ s.forest.Covers x p) :
    insertChild p i x s = .ok x (s.withForest (s.forest.link p i x)) := by
  rw [insertChild_eq hp hi, bind_of_ok _ (sanitize_of_root hx hroot),
    bind_of_ok _ (attach_of_root hF hp hx hroot hnot hi)]
  rfl

/-- A new tree can be linked below any old node. -/
theorem insertChild_of_sprouted (hF : s.forest.WellFormed) (hp : s.forest.contains p = true)
    (hi : i ≤ (s.forest.below p).length) (hx : sanitize x s = .ok c t)
    (hsprout : s.forest.Sprouted t.forest c) :
    insertChild p i x s = .ok c (t.withForest (t.forest.link p i c)) := by
  have hlen : i ≤ (t.forest.below p).length := by rwa [hsprout.old.below_eq hp]
  rw [insertChild_eq hp hi, bind_of_ok _ hx, bind_of_ok _ (attach_of_root hsprout.wellFormed
    (hsprout.old.contains hp) hsprout.contains hsprout.root (hsprout.not_covers hF hp) hlen)]
  rfl

/-! ## Putting a node in the place of a child -/

theorem setChild_of_getElem?_eq_none (hi : (s.forest.below p)[i]? = none) (x : Handle) :
    ∃ e, setChild p i x s = .error e s := by
  cases hp : s.forest.contains p with
  | false =>
    have hq := query_of_not_contains (q := fun F => F.numChildren p) rfl hp
    exact ⟨.invalidHandle p, by simp only [setChild, bind_of_error _ hq]⟩
  | true =>
    have hlen := List.getElem?_eq_none_iff.mp hi
    by_cases h0 : (s.forest.below p).length = 0
    · exact ⟨_, by simp only [setChild, bind_of_ok _ (query_numChildren hp), h0]; rfl⟩
    · exact ⟨_, by
        simp only [setChild, bind_of_ok _ (query_numChildren hp), if_neg h0, if_pos hlen]
        rfl⟩

theorem setChild_eq (hi : (s.forest.below p)[i]? = some c) (x : Handle) :
    setChild p i x s = (do
      let y ← sanitize x
      setAsParentOf p y
      let previous ← editChildren p fun cs => Position.replace? cs i y
      discard (removeParent previous)
      return previous) s := by
  have hp := Forest.contains_of_mem_below (List.mem_of_getElem? hi)
  obtain ⟨hlt, -⟩ := List.getElem?_eq_some_iff.mp hi
  have hne : ¬ (s.forest.below p).length = 0 := by omega
  simp only [setChild, bind_of_ok _ (query_numChildren hp), if_neg hne,
    if_neg (Nat.not_le.mpr hlt)]

theorem setChild_of_sanitize_error (hi : (s.forest.below p)[i]? = some c)
    (hx : sanitize x s = .error e t) : setChild p i x s = .error e t := by
  rw [setChild_eq hi, bind_of_error _ hx]

/-- What is left to do once the node to be put in the place of a child is known. -/
theorem substitute_of_passed (hi : (s.forest.below p)[i]? = some c)
    (hc : s.forest.above? c = some p) (hy : s.forest.contains y = true)
    (hroot : s.forest.above? y = none) (hpass : s.forest.ensureAcyclic p y = .ok ()) :
    (do
      setAsParentOf p y
      let previous ← editChildren p fun cs => Position.replace? cs i y
      discard (removeParent previous)
      return previous : EditM C Handle) s =
        .ok c (s.withForest (s.forest.substitute p i y c)) := by
  have hp := Forest.contains_of_mem_below (List.mem_of_getElem? hi)
  have hne : c ≠ y := by
    rintro rfl
    rw [hc] at hroot
    exact absurd hroot (by simp)
  have hedit := editChildren_of_some (h := p) (f := fun cs => Position.replace? cs i y)
    (s := s.withForest (s.forest.setParent y (some p))) (a := c)
    (l := (s.forest.below p).set i y) (by simpa using hp) (by simp [Position.replace?, hi])
  have hparent := removeParent_of_above? (h := c) (p := p)
    (s := s.withForest ((s.forest.setParent y (some p)).setBelow p ((s.forest.below p).set i y)))
    (by simp [Forest.above?_setParent hy, hne, hc])
  simp only [bind_of_ok _ (setAsParentOf_of_passed hp hy hroot hpass)]
  rw [bind_of_ok _ hedit]
  exact (bind_of_ok _ (discard_of_ok hparent)).trans rfl

theorem substitute_run (hF : s.forest.WellFormed) (hi : (s.forest.below p)[i]? = some c)
    (hy : s.forest.contains y = true) (hroot : s.forest.above? y = none)
    (hnot : ¬ s.forest.Covers y p) :
    (do
      setAsParentOf p y
      let previous ← editChildren p fun cs => Position.replace? cs i y
      discard (removeParent previous)
      return previous : EditM C Handle) s =
        .ok c (s.withForest (s.forest.substitute p i y c)) := by
  have hmem := List.mem_of_getElem? hi
  have hp := Forest.contains_of_mem_below hmem
  apply substitute_of_passed hi (hF.above?_eq_some_iff.mpr hmem) hy hroot
  rw [hF.ensureAcyclic_eq hp hy, if_neg hnot]

theorem setChild_of_sanitize_ok (hi : (s.forest.below p)[i]? = some c)
    (hx : sanitize x s = .ok y t) (hext : s.forest.Extends t.forest) (ht : t.forest.WellFormed) :
    (t.forest.contains y = true ∧ t.forest.above? y = none ∧ ¬ t.forest.Covers y p ∧
        setChild p i x s = .ok c (t.withForest (t.forest.substitute p i y c))) ∨
      ∃ e, setChild p i x s = .error e t := by
  have hp := Forest.contains_of_mem_below (List.mem_of_getElem? hi)
  rw [setChild_eq hi, bind_of_ok _ hx]
  have hi' : (t.forest.below p)[i]? = some c := by rwa [hext.below_eq hp]
  rcases setAsParentOf_outcome (p := p) (x := y) ht with ⟨-, hy, hroot, hnot, -⟩ | ⟨e, hrun⟩
  · exact Or.inl ⟨hy, hroot, hnot, substitute_run ht hi' hy hroot hnot⟩
  · exact Or.inr ⟨e, by rw [bind_of_error _ hrun]⟩

theorem setChild_of_root (hF : s.forest.WellFormed) (hi : (s.forest.below p)[i]? = some c)
    (hx : s.forest.contains x = true) (hroot : s.forest.above? x = none)
    (hnot : ¬ s.forest.Covers x p) :
    setChild p i x s = .ok c (s.withForest (s.forest.substitute p i x c)) := by
  rw [setChild_eq hi, bind_of_ok _ (sanitize_of_root hx hroot)]
  exact substitute_run hF hi hx hroot hnot

theorem setChild_of_sprouted (hF : s.forest.WellFormed) (hi : (s.forest.below p)[i]? = some c)
    (hx : sanitize x s = .ok y t) (hsprout : s.forest.Sprouted t.forest y) :
    setChild p i x s = .ok c (t.withForest (t.forest.substitute p i y c)) := by
  have hp := Forest.contains_of_mem_below (List.mem_of_getElem? hi)
  rw [setChild_eq hi, bind_of_ok _ hx]
  refine substitute_run hsprout.wellFormed ?_ hsprout.contains hsprout.root
    (hsprout.not_covers hF hp)
  rwa [hsprout.old.below_eq hp]

/-! ## Well-formedness -/

theorem insertChild_keepsWellFormed [SafeCopy C] (p : Handle) (i : Nat) (x : Handle) :
    Follows KeepsWellFormed (insertChild (C := C) p i x) := by
  intro s hF
  cases hp : s.forest.contains p with
  | false => rwa [final_of_error (insertChild_of_not_contains hp i x)]
  | true =>
    by_cases hi : i ≤ (s.forest.below p).length
    · have hsanitize := linkLaw_keepsWellFormed.sanitize (C := C) x
      cases hx : sanitize x s with
      | error e t =>
        rw [final_of_error (insertChild_of_sanitize_error hp hi hx)]
        exact hsanitize.of_error hx hF
      | ok y t =>
        have hext := sanitize_extends hF hx
        have ht := hsanitize.of_ok hx hF
        rcases insertChild_of_sanitize_ok hp hi hx hext ht with
          ⟨hy, hroot, hnot, hrun⟩ | ⟨e, hrun⟩
        · rw [final_of_ok hrun]
          exact ht.link (hext.contains hp) hy hroot hnot (by rwa [hext.below_eq hp])
        · rwa [final_of_error hrun]
    · rwa [final_of_error (insertChild_of_lt hp (Nat.not_le.mp hi) x)]

theorem setChild_keepsWellFormed [SafeCopy C] (p : Handle) (i : Nat) (x : Handle) :
    Follows KeepsWellFormed (setChild (C := C) p i x) := by
  intro s hF
  cases hi : (s.forest.below p)[i]? with
  | none =>
    obtain ⟨e, hrun⟩ := setChild_of_getElem?_eq_none hi x
    rwa [final_of_error hrun]
  | some c =>
    have hp := Forest.contains_of_mem_below (List.mem_of_getElem? hi)
    have hsanitize := linkLaw_keepsWellFormed.sanitize (C := C) x
    cases hx : sanitize x s with
    | error e t =>
      rw [final_of_error (setChild_of_sanitize_error hi hx)]
      exact hsanitize.of_error hx hF
    | ok y t =>
      have hext := sanitize_extends hF hx
      have ht := hsanitize.of_ok hx hF
      rcases setChild_of_sanitize_ok hi hx hext ht with ⟨hy, hroot, hnot, hrun⟩ | ⟨e, hrun⟩
      · rw [final_of_ok hrun]
        exact ht.substitute (by rwa [hext.below_eq hp]) hy hroot hnot
      · rwa [final_of_error hrun]

end EditM
end Grove
