import Grove.Edit.Sibling
import Grove.Proofs.Edit.Insert
import Grove.Proofs.Edit.Remove

/-!
# Edits beside a node

A move takes the node out first and links it afterwards. Once the node is known not to be above the
base, nothing after that can fail: the base is still a child of its parent, and the node is a root.
-/

namespace Grove
set_option autoImplicit false

namespace Forest
variable {C : Type} {F : Forest C} {a b h p x : Handle}

theorem hasParent_of_contains (hh : F.contains h = true) :
    F.hasParent h = .ok (F.above? h).isSome := by
  obtain ⟨n, hn⟩ := contains_iff.mp hh
  simp only [hasParent, node_of_get? hn, above?_of_get? hn]
  rfl

theorem hasParent_eq_ok {b : Bool} (hb : F.hasParent h = .ok b) :
    F.contains h = true ∧ (F.above? h).isSome = b := by
  cases hh : F.contains h with
  | false =>
    rw [hasParent, node_of_not_contains hh] at hb
    exact nomatch hb
  | true =>
    rw [hasParent_of_contains hh] at hb
    exact ⟨rfl, Except.ok.inj hb⟩

theorem covers_of_cut (hc : (F.cut x).Covers a b) : F.Covers a b := by
  refine Relation.ReflTransGen.mono (fun q h hq => ?_) _ _ hc
  rw [Over, above?_cut] at hq
  split at hq
  · exact absurd hq (by simp)
  · exact hq

/-- What is not above a node is not above its parent. -/
theorem not_covers_of_over (hnot : ¬ F.Covers x b) (hp : F.above? b = some p) : ¬ F.Covers x p :=
  fun hc => hnot (hc.tail hp)

/-- Nothing but itself is a root or above it. -/
theorem not_covers_of_root (hroot : F.above? x = none) (hne : a ≠ x) : ¬ F.Covers a x := by
  intro hc
  rcases Relation.ReflTransGen.cases_tail hc with he | ⟨q, -, hq⟩
  · exact hne he.symm
  · rw [Over, hroot] at hq
    exact absurd hq (by simp)

theorem not_covers_of_not_above (hne : x ≠ b) (hnot : ¬ F.Above x b) : ¬ F.Covers x b := fun hc =>
  (covers_iff_eq_or_above.mp hc).elim (fun he => hne he.symm) hnot

theorem ne_of_not_covers (hnot : ¬ F.Covers x b) : x ≠ b := by
  rintro rfl
  exact hnot .refl

variable [Content C]

theorem WellFormed.positionIn_of_over (hF : F.WellFormed) (hp : F.above? h = some p) :
    ∃ i, F.positionIn p h = .ok i ∧ (F.below p)[i]? = some h := by
  obtain ⟨i, hfind, hi⟩ := hF.getElem?_of_above? hp
  refine ⟨i, ?_, hi⟩
  simp only [positionIn, indexOfChild, children_of_contains (hF.contains_of_above? hp)]
  have hindex : (do return (← Except.ok (ε := Error) (F.below p)).findIdx? (· == h)) =
      Except.ok (ε := Error) (some i) := congrArg Except.ok hfind
  rw [hindex]
  rfl

theorem child_of_getElem? {i : Nat} (hi : (F.below p)[i]? = some h) : F.child p i = .ok h := by
  obtain ⟨n, hn⟩ := contains_iff.mp (contains_of_mem_below (List.mem_of_getElem? hi))
  rw [below_of_get? hn] at hi
  have hne : n.children.isEmpty = false := by
    cases hcs : n.children with
    | nil => simp [hcs] at hi
    | cons c cs => rfl
  simp only [child, node_of_get? hn, bind, Except.bind, hne, hi]
  rfl

end Forest

namespace EditM
variable {C : Type} [ShallowCopy C] {s : Session C} {base p x : Handle}

theorem query_ensureNotAbove (hF : s.forest.WellFormed) (hb : s.forest.contains base = true)
    (hnot : ¬ s.forest.Covers x base) :
    query (fun F => F.ensureNotAbove base x) s = .ok () s :=
  query_of_ok (by rw [hF.ensureNotAbove_eq hb, if_neg hnot])

theorem insertBeside_move (hF : s.forest.WellFormed) (side : Side)
    (hp : s.forest.above? base = some p) (hx : s.forest.contains x = true)
    (hnot : ¬ s.forest.Covers x base) :
    ∃ i, ((s.forest.cut x).below p)[i]? = some base ∧
      insertBeside side base x true s =
        .ok x (s.withForest ((s.forest.cut x).link p (i + side.offset) x)) := by
  have hne := Forest.ne_of_not_covers hnot
  have hcut := hF.cut x
  have hp' : (s.forest.cut x).above? base = some p := by
    rw [Forest.above?_cut, if_neg (Ne.symm hne), hp]
  obtain ⟨i, hpos, hi⟩ := hcut.positionIn_of_over hp'
  refine ⟨i, hi, ?_⟩
  have hquery := query_parent (Forest.contains_of_above? hp)
  rw [hp] at hquery
  have hensure := query_ensureNotAbove hF (Forest.contains_of_above? hp) hnot
  have hposition : query (fun F => F.positionIn p base) (s.withForest (s.forest.cut x)) =
      .ok i (s.withForest (s.forest.cut x)) := query_of_ok hpos
  have hle : i + side.offset ≤ ((s.forest.cut x).below p).length := by
    obtain ⟨hlt, -⟩ := List.getElem?_eq_some_iff.mp hi
    cases side <;> simp only [Side.offset] <;> omega
  have hinsert := insertChild_of_root (s := s.withForest (s.forest.cut x)) hcut
    (hcut.contains_of_above? hp') hle (by simpa using hx) (by simp [Forest.above?_cut])
    fun hc => Forest.not_covers_of_over hnot hp (Forest.covers_of_cut hc)
  simp only [insertBeside, bind_of_ok _ hquery, if_true, bind_of_ok _ hensure,
    bind_of_ok _ (detach_of_contains hF hx), bind_of_ok _ hposition, hinsert]
  rfl

theorem replace_of_root (hF : s.forest.WellFormed) (move : Bool)
    (hp : s.forest.above? base = some p) (hx : s.forest.contains x = true)
    (hroot : s.forest.above? x = none) (hnot : ¬ s.forest.Covers x base) :
    ∃ i, (s.forest.below p)[i]? = some base ∧
      replace base x move s = .ok x (s.withForest (s.forest.substitute p i x base)) := by
  obtain ⟨i, hpos, hi⟩ := hF.positionIn_of_over hp
  refine ⟨i, hi, ?_⟩
  have hquery := query_parent (Forest.contains_of_above? hp)
  rw [hp] at hquery
  have howned : query (fun F => F.hasParent x) s = .ok false s :=
    query_of_ok (by rw [Forest.hasParent_of_contains hx, hroot]; rfl)
  have hposition : query (fun F => F.positionIn p base) s = .ok i s := query_of_ok hpos
  have hset := setChild_of_root hF hi hx hroot (Forest.not_covers_of_over hnot hp)
  have hchild : query (fun F => F.child p i) (s.withForest (s.forest.substitute p i x base)) =
      .ok x (s.withForest (s.forest.substitute p i x base)) :=
    query_of_ok (Forest.child_of_getElem? (Forest.getElem?_substitute hi))
  simp only [replace, bind_of_ok _ hquery, if_neg (Forest.ne_of_not_covers hnot)]
  cases move with
  | false =>
    simp only [Bool.false_eq_true, if_false, bind_of_ok _ hposition,
      bind_of_ok _ (discard_of_ok hset), hchild]
  | true =>
    simp only [if_true, bind_of_ok _ howned, Bool.false_eq_true, if_false, bind_of_ok _ hposition,
      bind_of_ok _ (discard_of_ok hset), hchild]

theorem replace_move (hF : s.forest.WellFormed) (hp : s.forest.above? base = some p)
    (hx : s.forest.contains x = true) (hnot : ¬ s.forest.Covers x base) :
    ∃ i, ((s.forest.cut x).below p)[i]? = some base ∧
      replace base x true s = .ok x (s.withForest ((s.forest.cut x).substitute p i x base)) := by
  have hne := Forest.ne_of_not_covers hnot
  have hcut := hF.cut x
  have hp' : (s.forest.cut x).above? base = some p := by
    rw [Forest.above?_cut, if_neg (Ne.symm hne), hp]
  have hreplace := replace_of_root (s := s.withForest (s.forest.cut x)) hcut false hp'
    (by simpa using hx) (by simp [Forest.above?_cut]) fun hc => hnot (Forest.covers_of_cut hc)
  cases hroot : s.forest.above? x with
  | none =>
    have hrun := replace_of_root hF true hp hx hroot hnot
    rwa [Forest.cut_of_root hroot]
  | some q =>
    obtain ⟨i, hi, hrun⟩ := hreplace
    refine ⟨i, hi, Eq.trans ?_ hrun⟩
    have hquery := query_parent (Forest.contains_of_above? hp)
    have hquery' := query_parent (s := s.withForest (s.forest.cut x))
      (Forest.contains_of_above? hp')
    rw [hp] at hquery
    rw [Session.forest_withForest, hp'] at hquery'
    have howned : query (fun F => F.hasParent x) s = .ok true s :=
      query_of_ok (by rw [Forest.hasParent_of_contains hx, hroot]; rfl)
    simp only [replace, bind_of_ok _ hquery, bind_of_ok _ hquery', if_neg hne, if_true,
      bind_of_ok _ howned, Bool.false_eq_true, if_false,
      bind_of_ok _ (query_ensureNotAbove hF (Forest.contains_of_above? hp) hnot),
      bind_of_ok _ (detach_of_contains hF hx)]

end EditM
end Grove
