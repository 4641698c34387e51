import Grove.Proofs.Edit.Transplant
import Grove.Proofs.Integrity

/-!
# Moves

A node that is moved next to a base, or into the place of a base, is taken out of the children of its
former parent first. Only then the position of the base is looked up, so it is right also if the node
stood before the base among the same siblings. A node that is above the base is refused before
anything has changed; if nothing is refused, the node itself is moved, with everything below it. A
transplant leaves behind what is below the node, and gives it the children of the base instead.
-/

namespace Grove
set_option autoImplicit false

def Side.pair : Side → Handle → Handle → List Handle
  | .before, base, x => [x, base]
  | .after, base, x => [base, x]

theorem Side.insertIdx_beside {l : List Handle} {i : Nat} {base : Handle} (side : Side)
    (hi : l[i]? = some base) (x : Handle) :
    ∃ left right, l = left ++ base :: right ∧
      l.insertIdx (i + side.offset) x = left ++ side.pair base x ++ right := by
  induction l generalizing i with
  | nil => simp at hi
  | cons a l ih =>
    cases i with
    | zero =>
      obtain rfl : a = base := by simpa using hi
      exact ⟨[], l, rfl, by cases side <;> rfl⟩
    | succ i =>
      obtain ⟨left, right, hl, hinsert⟩ := ih (i := i) (by simpa using hi)
      refine ⟨a :: left, right, by rw [hl, List.cons_append], ?_⟩
      have hnext : i + 1 + side.offset = i + side.offset + 1 := by omega
      rw [hnext, List.insertIdx_succ_cons, hinsert]
      rfl

namespace Forest
variable {C : Type} {F G : Forest C} {base k p x : Handle} {i : Nat} {side : Side}

/-- `G` is `F` with `x`, and all that is below it, among the children of `p`. -/
structure Moved (F G : Forest C) (p x : Handle) : Prop where
  wellFormed : G.WellFormed
  parent : G.above? x = some p
  /-- another former parent keeps its other children in their order -/
  former : ∀ q, F.above? x = some q → q ≠ p → G.below q = (F.below q).erase x
  below_eq : ∀ k, k ≠ p → F.above? x ≠ some k → G.below k = F.below k
  /-- the subtree of `x` comes along as it is -/
  subtree : G.below x = F.below x ∧ ∀ k, F.Above x k → G.get? k = F.get? k
  contains_eq : ∀ k, G.contains k = F.contains k
  contentOf?_eq : ∀ k, G.contentOf? k = F.contentOf? k
  settings : G.settings = F.settings

structure MovedBeside (F G : Forest C) (side : Side) (p base x : Handle) : Prop
    extends Moved F G p x where
  children : ∃ l r, (F.below p).erase x = l ++ base :: r ∧ G.below p = l ++ side.pair base x ++ r
  above?_eq : ∀ k, k ≠ x → G.above? k = F.above? k

structure MovedInto (F G : Forest C) (p base x : Handle) : Prop extends Moved F G p x where
  children : G.below p = ((F.below p).erase x).map fun h => if h = base then x else h
  released : G.above? base = none
  above?_eq : ∀ k, k ≠ x → k ≠ base → G.above? k = F.above? k

/-- Where the parent of a moved node lists it, and that the subtree of the node keeps its parents, is
all that has to be told of a move. -/
theorem WellFormed.moved (hF : F.WellFormed) (hG : G.WellFormed) (hnot : ¬ F.Covers x p)
    (hparent : G.above? x = some p) (hbelow : ∀ k, k ≠ p → G.below k = (F.below k).erase x)
    (habove : ∀ k, F.Above x k → G.above? k = F.above? k)
    (hcontent : ∀ k, G.contentOf? k = F.contentOf? k) (hsettings : G.settings = F.settings) :
    F.Moved G p x := by
  have hrest : ∀ k, k ≠ p → F.above? x ≠ some k → G.below k = F.below k := by
    intro k hk hq
    rw [hbelow k hk]
    exact List.erase_of_not_mem fun hm => hq (hF.above?_eq_some_iff.mpr hm)
  -- neither the old nor the new parent of `x` is in its subtree
  have hdown : ∀ k, F.Covers x k → G.below k = F.below k := by
    intro k hk
    apply hrest
    · rintro rfl
      exact hnot hk
    · intro hq
      exact hF.not_covers_of_over hq hk
  refine ⟨hG, hparent, fun q _ => hbelow q, hrest, ⟨hdown x .refl, fun k hk => ?_⟩,
    fun k => contains_eq_of_contentOf?_eq (hcontent k), hcontent, hsettings⟩
  exact get?_eq_get?_iff.mpr ⟨hcontent k, habove k hk, hdown k hk.to_reflTransGen⟩

theorem not_covers_cut (hnot : ¬ F.Covers x k) : ¬ (F.cut x).Covers x k := fun hc =>
  hnot (covers_of_cut hc)

theorem movedBeside_link (hF : F.WellFormed) (hp : F.above? base = some p)
    (hx : F.contains x = true) (hnot : ¬ F.Covers x base)
    (hi : ((F.cut x).below p)[i]? = some base) :
    F.MovedBeside ((F.cut x).link p (i + side.offset) x) side p base x := by
  have hxp := not_covers_of_over hnot hp
  have hpin : (F.cut x).contains p = true := by simpa using hF.contains_of_above? hp
  have hxin : (F.cut x).contains x = true := by simpa using hx
  obtain ⟨hlt, hbase⟩ := List.getElem?_eq_some_iff.mp hi
  have hle : i + side.offset ≤ ((F.cut x).below p).length := by
    cases side <;> simp only [Side.offset] <;> omega
  have hroot : (F.cut x).above? x = none := by rw [above?_cut, if_pos rfl]
  have hG := (hF.cut x).link hpin hxin hroot (not_covers_cut hxp) hle
  have habove : ∀ k, k ≠ x → ((F.cut x).link p (i + side.offset) x).above? k = F.above? k := by
    intro k hk
    rw [above?_link hxin, if_neg hk, above?_cut, if_neg hk]
  have hmoved : F.Moved ((F.cut x).link p (i + side.offset) x) p x := by
    apply hF.moved hG hxp
    · rw [above?_link hxin, if_pos rfl]
    · intro k hk
      rw [below_link hpin, if_neg hk, hF.below_cut]
    · intro k hk
      exact habove k (hF.ne_of_above hk).symm
    · intro k
      rw [contentOf?_link, contentOf?_cut]
    · rw [settings_link, settings_cut]
  -- the list is split as it is without `x`
  obtain ⟨left, right, hsplit, hinsert⟩ := side.insertIdx_beside hi x
  refine ⟨hmoved, ⟨left, right, ?_, ?_⟩, habove⟩
  · rw [← hF.below_cut, hsplit]
  · rw [below_link hpin, if_pos rfl, hinsert]

theorem movedInto_substitute (hF : F.WellFormed) (hp : F.above? base = some p)
    (hx : F.contains x = true) (hnot : ¬ F.Covers x base)
    (hi : ((F.cut x).below p)[i]? = some base) :
    F.MovedInto ((F.cut x).substitute p i x base) p base x := by
  have hxp := not_covers_of_over hnot hp
  have hpin : (F.cut x).contains p = true := by simpa using hF.contains_of_above? hp
  have hxin : (F.cut x).contains x = true := by simpa using hx
  have hbin : (F.cut x).contains base = true := by simpa using contains_of_above? hp
  have hne : x ≠ base := ne_of_not_covers hnot
  have hroot : (F.cut x).above? x = none := by rw [above?_cut, if_pos rfl]
  have hG := (hF.cut x).substitute hi hxin hroot (not_covers_cut hxp)
  have habove : ∀ k, k ≠ x → k ≠ base →
      ((F.cut x).substitute p i x base).above? k = F.above? k := by
    intro k hkx hkb
    rw [above?_substitute hxin hbin, if_neg hkb, if_neg hkx, above?_cut, if_neg hkx]
  have hmoved : F.Moved ((F.cut x).substitute p i x base) p x := by
    apply hF.moved hG hxp
    · rw [above?_substitute hxin hbin, if_neg hne, if_pos rfl]
    · intro k hk
      rw [below_substitute hpin, if_neg hk, hF.below_cut]
    · intro k hk
      apply habove k (hF.ne_of_above hk).symm
      rintro rfl
      exact hnot hk.to_reflTransGen
    · intro k
      rw [contentOf?_substitute, contentOf?_cut]
    · rw [settings_substitute, settings_cut]
  refine ⟨hmoved, ?_, ?_, habove⟩
  · rw [below_substitute hpin, if_pos rfl, set_eq_map ((hF.cut x).nodup_below p) hi, hF.below_cut]
  · rw [above?_substitute hxin hbin, if_pos rfl]

end Forest

namespace EditM
variable {C : Type} [ShallowCopy C] {s : Session C} {base p x : Handle}

theorem query_ensureNotAbove_of_covers (hF : s.forest.WellFormed)
    (hb : s.forest.contains base = true) (hc : s.forest.Covers x base) :
    query (fun F => F.ensureNotAbove base x) s =
      .error (.cycleDetected (s.forest.describe x)) s :=
  query_of_error (by rw [hF.ensureNotAbove_eq hb, if_pos hc])

theorem insertBeside_of_covers (hF : s.forest.WellFormed) (side : Side)
    (hp : s.forest.above? base = some p) (hc : s.forest.Covers x base) :
    insertBeside side base x true s = .error (.cycleDetected (s.forest.describe x)) s := by
  have hb := Forest.contains_of_above? hp
  have hquery := query_parent hb
  rw [hp] at hquery
  simp only [insertBeside, bind_of_ok _ hquery, if_true,
    bind_of_error _ (query_ensureNotAbove_of_covers hF hb hc)]

theorem replace_of_above (hF : s.forest.WellFormed) (hp : s.forest.above? base = some p)
    (ha : s.forest.Above x base) :
    replace base x true s = .error (.cycleDetected (s.forest.describe x)) s := by
  have hb := Forest.contains_of_above? hp
  have hc := ha.to_reflTransGen
  have hx := hF.contains_of_covers hc hb
  have hne := hF.ne_of_above ha
  have hquery := query_parent hb
  rw [hp] at hquery
  have howned : query (fun F => F.hasParent x) s = .ok (s.forest.above? x).isSome s :=
    query_of_ok (Forest.hasParent_of_contains hx)
  simp only [replace, bind_of_ok _ hquery, if_neg hne, if_true, bind_of_ok _ howned]
  cases hroot : s.forest.above? x with
  | some q =>
    simp only [Option.isSome_some, if_true,
      bind_of_error _ (query_ensureNotAbove_of_covers hF hb hc)]
  | none =>
    -- a root passes the first check, but it is above `p` too, the parent that it would get
    obtain ⟨i, hpos, hi⟩ := hF.positionIn_of_over hp
    have hposition : query (fun F => F.positionIn p base) s = .ok i s := query_of_ok hpos
    have hxp : s.forest.Covers x p := by
      obtain ⟨q, hxq, hq⟩ := Relation.TransGen.tail'_iff.mp ha
      exact Option.some.inj (hq.symm.trans hp) ▸ hxq
    have hset : setChild p i x s = .error (.cycleDetected (s.forest.describe x)) s := by
      rw [setChild_eq hi, bind_of_ok _ (sanitize_of_root hx hroot), bind_of_error _
        (setAsParentOf_of_covers hF (hF.contains_of_above? hp) hx hroot hxp)]
    simp only [Option.isSome_none, Bool.false_eq_true, if_false, bind_of_ok _ hposition,
      bind_of_error _ (discard_of_error hset)]

structure MovesBeside (move : EditM C Handle) (side : Side) (s : Session C) (p base x : Handle) :
    Prop where
  /-- the base itself and what is above it are refused -/
  refused : x = base ∨ s.forest.Above x base →
    move s = .error (.cycleDetected (s.forest.describe x)) s
  moved : x ≠ base → ¬ s.forest.Above x base →
    ∃ G, move s = .ok x (s.withForest G) ∧ s.forest.MovedBeside G side p base x

structure MovesInto (move : EditM C Handle) (s : Session C) (p base x : Handle) : Prop where
  /-- what is above the base is refused, whether or not it has a parent itself -/
  refused : s.forest.Above x base → move s = .error (.cycleDetected (s.forest.describe x)) s
  moved : x ≠ base → ¬ s.forest.Above x base →
    ∃ G, move s = .ok x (s.withForest G) ∧ s.forest.MovedInto G p base x

theorem insertBeside_moves (hF : s.forest.WellFormed) (side : Side)
    (hp : s.forest.above? base = some p) (hx : s.forest.contains x = true) :
    MovesBeside (insertBeside side base x true) side s p base x := by
  constructor
  · intro hc
    exact insertBeside_of_covers hF side hp
      (Forest.covers_iff_eq_or_above.mpr (hc.imp_left Eq.symm))
  · intro hne hnot
    have hnot := Forest.not_covers_of_not_above hne hnot
    obtain ⟨i, hi, hrun⟩ := insertBeside_move hF side hp hx hnot
    exact ⟨_, hrun, Forest.movedBeside_link hF hp hx hnot hi⟩

end EditM

theorem moves_next_to_child (C : Type) [ShallowCopy C] (s : Session C) (hF : s.forest.WellFormed)
    (p base x : Handle) (hp : s.forest.above? base = some p) (hx : s.forest.contains x = true) :
    EditM.MovesBeside (EditM.insertBefore base x true) .before s p base x ∧
      EditM.MovesBeside (EditM.insertAfter base x true) .after s p base x :=
  ⟨EditM.insertBeside_moves hF .before hp hx, EditM.insertBeside_moves hF .after hp hx⟩

def Session.terrace : Session Label := (Session.fresh Label {}).after
  [.create ⟨.block, "a"⟩, .create ⟨.badCopy, "b"⟩, .create ⟨.block, "c"⟩, .create ⟨.leaf, "d"⟩,
    .create ⟨.leaf, "e"⟩, .addChild ⟨0, 0⟩ ⟨1, 0⟩, .addChild ⟨0, 0⟩ ⟨2, 0⟩, .addChild ⟨2, 0⟩ ⟨3, 0⟩,
    .addChild ⟨1, 0⟩ ⟨4, 0⟩]

theorem moves_next_on_terrace :
    Session.terrace.forest.WellFormed ∧
    (∃ G, EditM.insertAfter ⟨2, 0⟩ ⟨1, 0⟩ true Session.terrace =
        .ok ⟨1, 0⟩ (Session.terrace.withForest G) ∧
      Session.terrace.forest.MovedBeside G .after ⟨0, 0⟩ ⟨2, 0⟩ ⟨1, 0⟩) ∧
    (∃ G, EditM.insertBefore ⟨2, 0⟩ ⟨3, 0⟩ true Session.terrace =
        .ok ⟨3, 0⟩ (Session.terrace.withForest G) ∧
      Session.terrace.forest.MovedBeside G .before ⟨0, 0⟩ ⟨2, 0⟩ ⟨3, 0⟩) ∧
    EditM.insertBefore ⟨3, 0⟩ ⟨2, 0⟩ true Session.terrace =
      .error (.cycleDetected (Session.terrace.forest.describe ⟨2, 0⟩)) Session.terrace := by
  have hF : Session.terrace.forest.WellFormed :=
    Session.wellFormed_after (Forest.wellFormed_empty {}) _
  refine ⟨hF, ?_, ?_, ?_⟩
  · exact (moves_next_to_child Label _ hF ⟨0, 0⟩ ⟨2, 0⟩ ⟨1, 0⟩ rfl rfl).2.moved (by decide)
      (hF.not_above_of_isAncestor rfl)
  · exact (moves_next_to_child Label _ hF ⟨0, 0⟩ ⟨2, 0⟩ ⟨3, 0⟩ rfl rfl).1.moved (by decide)
      (hF.not_above_of_isAncestor rfl)
  · exact (moves_next_to_child Label _ hF ⟨2, 0⟩ ⟨3, 0⟩ ⟨2, 0⟩ rfl rfl).1.refused
      (.inr (.single rfl))

theorem moves_into_place (C : Type) [ShallowCopy C] (s : Session C) (hF : s.forest.WellFormed)
    (p base x : Handle) (hp : s.forest.above? base = some p) (hx : s.forest.contains x = true) :
    EditM.MovesInto (EditM.replace base x true) s p base x := by
  constructor
  · intro ha
    exact EditM.replace_of_above hF hp ha
  · intro hne hnot
    have hnot := Forest.not_covers_of_not_above hne hnot
    obtain ⟨i, hi, hrun⟩ := EditM.replace_move hF hp hx hnot
    exact ⟨_, hrun, Forest.movedInto_substitute hF hp hx hnot hi⟩

theorem moves_into_place_on_terrace :
    Session.terrace.forest.WellFormed ∧
    (∃ G, EditM.replace ⟨2, 0⟩ ⟨3, 0⟩ true Session.terrace =
        .ok ⟨3, 0⟩ (Session.terrace.withForest G) ∧
      Session.terrace.forest.MovedInto G ⟨0, 0⟩ ⟨2, 0⟩ ⟨3, 0⟩) ∧
    EditM.replace ⟨2, 0⟩ ⟨0, 0⟩ true Session.terrace =
      .error (.cycleDetected (Session.terrace.forest.describe ⟨0, 0⟩)) Session.terrace := by
  have hF : Session.terrace.forest.WellFormed :=
    Session.wellFormed_after (Forest.wellFormed_empty {}) _
  refine ⟨hF, ?_, ?_⟩
  · exact (moves_into_place Label _ hF ⟨0, 0⟩ ⟨2, 0⟩ ⟨3, 0⟩ rfl rfl).moved (by decide)
      (hF.not_above_of_isAncestor rfl)
  · exact (moves_into_place Label _ hF ⟨0, 0⟩ ⟨2, 0⟩ ⟨0, 0⟩ rfl rfl).refused (.single rfl)

theorem transplants_children (C : Type) [ShallowCopy C] (s : Session C) (hF : s.forest.WellFormed)
    (p base x : Handle) (hp : s.forest.above? base = some p) (hx : s.forest.contains x = true)
    (hne : x ≠ base) (hnot : ¬ s.forest.Above x base) :
    ∃ t, EditM.transplant base x s = .ok x t ∧ s.forest.Transplanted t.forest p base x :=
  EditM.transplant_run hF hp hx (Forest.not_covers_of_not_above hne hnot)

theorem transplants_on_terrace :
    Session.terrace.forest.WellFormed ∧
    ∃ t, EditM.transplant ⟨2, 0⟩ ⟨1, 0⟩ Session.terrace = .ok ⟨1, 0⟩ t ∧
      Session.terrace.forest.Transplanted t.forest ⟨0, 0⟩ ⟨2, 0⟩ ⟨1, 0⟩ := by
  have hF : Session.terrace.forest.WellFormed :=
    Session.wellFormed_after (Forest.wellFormed_empty {}) _
  exact ⟨hF, transplants_children Label _ hF ⟨0, 0⟩ ⟨2, 0⟩ ⟨1, 0⟩ rfl rfl (by decide)
    (hF.not_above_of_isAncestor rfl)⟩

end Grove
