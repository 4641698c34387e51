import Grove.Proofs.Cursor.Calls
import Grove.Proofs.Edit.Harmless

/-!
# Replacing several children

`replace` takes children away one after the other, and then puts the new node in the place of the one
that is left. The counts are checked before anything is done. Whether the new node can be put in comes
out last of all, and then the children that were taken away stay away.
-/

namespace Grove
set_option autoImplicit false

namespace Forest
variable {C : Type} {F G : Forest C} {p : Handle} {cs : List Handle}

theorem Shed.relisted (hG : F.Shed G cs) (hF : F.WellFormed) (hcs : ∀ c ∈ cs, c ∈ F.below p) :
    F.Relisted G p ((F.below p).filter fun c => c ∉ cs) := by
  refine relisted_of_below hF (hG.wellFormed hF) (fun k => ?_) hG.contentOf?_eq hG.settings
  by_cases hk : k = p
  · rw [if_pos hk, hk, hG.below_eq]
  · rw [if_neg hk, hG.below_of_ne hF hcs hk]

theorem Shed.clean [ShallowCopy C] {x : Handle} (hG : F.Shed G cs) (hx : F.Clean x) : G.Clean x := by
  intro k hk
  rw [hG.contentOf?_eq]
  exact hx k (hG.covers hk)

end Forest

namespace Cursor
variable {C : Type} {c d e : Cursor C} {x y : Handle} {i m : Nat}

/-- The `m` children after position `i` were taken away, and the cursor has gone back to the child
there. Where none was to be taken away, the cursor has not moved. -/
structure Shortened (c : Cursor C) (i m : Nat) (d : Cursor C) : Prop where
  forest : c.session.forest.Shed d.session.forest ((c.children.drop (i + 1)).take m)
  parent : d.parent = c.parent
  position : d.position = if m = 0 then c.position else i
  last : d.last = some i

/-- The child at position `i` and the `m` children after it have given way to `y`, and the cursor is
right before it. -/
structure Collapsed (c : Cursor C) (i m : Nat) (y : Handle) (d : Cursor C) : Prop where
  edited : c.Edited d (c.children.take i ++ y :: c.children.drop (i + 1 + m))
  position : d.position = i
  last : d.last = some i

theorem Collapsed.next (hd : c.Collapsed i m y d) (hi : i ≤ c.children.length) :
    d.next.1 = some y := by
  have hat : d.children[d.position]? = some y := by
    rw [hd.edited.children, hd.position, List.getElem?_append_right (by rw [List.length_take]; omega),
      List.length_take, Nat.min_eq_left hi, Nat.sub_self]
    rfl
  rw [Cursor.next, hat]

theorem Shortened.edited (hd : c.Shortened i m d) (hc : c.Sound) :
    c.Edited d (c.children.take (i + 1) ++ c.children.drop (i + 1 + m)) := by
  have hrelisted := hd.forest.relisted hc.wellFormed (p := c.parent) fun _ hk =>
    Forest.mem_of_mem_slice hk
  have hrest := Forest.filter_not_mem_slice (hc.wellFormed.nodup_below c.parent) (i + 1) m
  exact ⟨hd.parent, hrest ▸ hrelisted⟩

theorem Shortened.sound (hd : c.Shortened i m d) (hc : c.Sound) (hi : c.last = some (i + m)) :
    d.Sound := by
  have hlt := hc.last_lt hi
  have hlen : (c.children.take (i + 1) ++ c.children.drop (i + 1 + m)).length =
      c.children.length - m := by
    rw [List.length_append, List.length_take, List.length_drop]
    omega
  have hplace := hc.last_beside (i + m) hi
  refine hc.edited (hd.edited hc) ?_ fun j hj => ?_
  · have hle := hc.position_le
    rw [hlen, hd.position]
    split <;> omega
  · rw [hd.last] at hj
    cases hj
    rw [hlen, hd.position]
    split <;> omega

theorem Shortened.untouched (hd : c.Shortened i m d) (he : d.Untouched e) : c.Shortened i m e where
  forest := hd.forest.congr he.nodes
  parent := he.parent.trans hd.parent
  position := he.position.trans hd.position
  last := he.last.trans hd.last

theorem Shortened.untouched_iff (hd : c.Shortened i m d) (hc : c.Sound)
    (hi : c.last = some (i + m)) : c.Untouched d ↔ m = 0 := by
  constructor
  · intro hsame
    have hlt := hc.last_lt hi
    have hlen := congrArg List.length (hd.edited hc).children
    rw [Cursor.children, hsame.parent, hsame.nodes.below_eq, ← Cursor.children, List.length_append,
      List.length_take, List.length_drop] at hlen
    omega
  · rintro rfl
    exact ⟨hd.forest.sameNodes (.refl _), hd.parent, hd.position, hd.last.trans hi.symm⟩

theorem Shortened.collapsed (hd : c.Shortened i m d) (hc : c.Sound) (hlt : i < c.children.length)
    (he : d.Overwritten i x y e) :
    c.Edited e (c.children.take i ++ y :: c.children.drop (i + 1 + m)) := by
  obtain ⟨hparent, hshort⟩ := hd.edited hc
  obtain ⟨hparent', hset⟩ := he.edited
  have hlen : (c.children.take i).length = i := by
    rw [List.length_take]
    omega
  have hlist : (c.children.take (i + 1) ++ c.children.drop (i + 1 + m)).set i y =
      c.children.take i ++ y :: c.children.drop (i + 1 + m) := by
    rw [List.take_succ_eq_append_getElem hlt, List.append_assoc,
      List.set_append_right _ _ (Nat.le_of_eq hlen), hlen, Nat.sub_self]
    rfl
  rw [(hd.edited hc).children, hlist, hparent] at hset
  refine ⟨hparent'.trans hparent, hshort.trans hset fun k hk => Or.inr (Or.inl ?_)⟩
  exact (List.mem_append.mp hk).elim List.mem_of_mem_take List.mem_of_mem_drop

end Cursor

namespace CursorM
variable {C : Type} {c d e : Cursor C} {s : Session C} {x y : Handle} {i m n : Nat}
  {cs : List Handle}

theorem previous_run (hc : c.Sound) (hp : c.position = i + 1) :
    (∃ k, (modifyGet Cursor.previous : CursorM C (Option Handle)) c =
        .ok (some k) { c with position := i, last := some i }) ∧
      ({ c with position := i, last := some i } : Cursor C).Sound := by
  have hle := hc.position_le
  have hback := c.goTo_of_gt (t := i) (by omega)
  have hsound := hc.goTo (t := i) (by omega)
  rw [hback] at hsound
  have hprevious := Cursor.previous_eq_goTo hle
  rw [hp, Nat.add_sub_cancel, hback, List.getElem?_eq_getElem (by omega)] at hprevious
  have hrun : (modifyGet Cursor.previous : CursorM C (Option Handle)) c =
      .ok c.previous.1 c.previous.2 := rfl
  rw [hprevious] at hrun
  exact ⟨⟨_, hrun⟩, hsound⟩

variable [ShallowCopy C]

/-- Going back and taking away what is passed does to the session what the removal of a slice does. -/
theorem removeBack_of_removeSlice (hc : c.Sound) (hi : c.last = some (i + m))
    (hrun : EditM.removeSlice c.parent (i + 1) m c.session = .ok cs s) :
    removeBack m c = .ok ()
      { c with session := s, position := if m = 0 then c.position else i, last := some i } := by
  induction m generalizing c cs with
  | zero =>
    cases hrun
    rw [← show c.last = some i from hi]
    rfl
  | succ m ih =>
    obtain ⟨h, t, hremove, hrest⟩ := bind_eq_ok.mp hrun
    obtain ⟨cs', u, hslice, hpure⟩ := bind_eq_ok.mp hrest
    cases hpure
    rw [Nat.add_right_comm i 1 m] at hremove
    have hfirst := remove_of_ok hi hremove
    obtain ⟨hd, -⟩ := Cursor.remove_keepsSound.of_ok hfirst hc
    -- the cursor is now right before the gap, on whichever side of the child it was
    have hgap : (if i + (m + 1) < c.position then c.position - 1 else c.position) = i + m + 1 := by
      rcases hc.last_beside _ hi with h | h <;> split <;> omega
    obtain ⟨⟨k, hback⟩, hsound⟩ := previous_run hd hgap
    have hplace : (if m = 0 then i + m else i) = i := by split <;> omega
    have hrec := ih hsound rfl hslice
    dsimp only at hrec
    rw [hplace] at hrec
    simp only [removeBack, bind_of_ok _ (discard_of_ok hfirst), bind_of_ok _ hback]
    exact hrec

theorem removeBack_run (hc : c.Sound) (hi : c.last = some (i + m)) :
    ∃ d, removeBack m c = .ok () d ∧ c.Shortened i m d ∧
      EditM.removeSlice c.parent (i + 1) m c.session =
        .ok ((c.children.drop (i + 1)).take m) d.session := by
  have hlt : i + m < (c.session.forest.below c.parent).length := hc.last_lt hi
  obtain ⟨G, hrun, hG⟩ := EditM.removeSlice_run (p := c.parent) (i := i + 1) (n := m)
    hc.wellFormed (by omega)
  exact ⟨_, removeBack_of_removeSlice hc hi hrun, ⟨hG, rfl, rfl, rfl⟩, hrun⟩

/-! ## Replacing -/

theorem replace_zero (x : Handle) (c : Cursor C) :
    replace x 0 c = .error (.cursorState .replaceNone) c := rfl

theorem replace_of_none (hc : c.last = none) (x : Handle) (n : Nat) :
    replace x (n + 1) c = .error (.cursorState .replaceUnmoved) c := by
  simp only [replace, if_neg (Nat.succ_ne_zero n), bind_of_error _ (requireLast_of_none _ hc)]

theorem replace_of_lt (hi : c.last = some i) (hn : i + 1 < n) (x : Handle) :
    replace x n c = .error (.cursorState .replaceShort) c := by
  simp only [replace, if_neg (show ¬ n = 0 by omega), bind_of_ok _ (requireLast_of_some _ hi),
    if_pos hn]
  rfl

theorem replace_of_removeBack (hi : c.last = some (i + m)) (hback : removeBack m c = .ok () d)
    (x : Handle) :
    replace x (m + 1) c = (do
      let inserted ← set x
      let c ← get
      if c.last.any fun index => decide (index < c.position) then
        discard (modifyGet Cursor.previous)
      return inserted) d := by
  simp only [replace, if_neg (Nat.succ_ne_zero m), bind_of_ok _ (requireLast_of_some _ hi),
    if_neg (show ¬ i + m + 1 < m + 1 by omega), Nat.add_sub_cancel, bind_of_ok _ hback]

theorem replace_of_set_ok (hi : c.last = some (i + m)) (hback : removeBack m c = .ok () d)
    (hset : set x d = .ok y e) (he : e.Sound) (hlast : e.last = some i) :
    replace x (m + 1) c = .ok y { e with position := i } := by
  rw [replace_of_removeBack hi hback, bind_of_ok _ hset, bind_of_ok _ (get_run e)]
  rcases he.last_beside i hlast with hp | ⟨hp, -⟩
  · obtain ⟨⟨k, hprevious⟩, -⟩ := previous_run he hp.symm
    rw [← hlast] at hprevious
    have hany : (e.last.any fun index => decide (index < e.position)) = true := by
      rw [hlast]
      exact decide_eq_true (by omega)
    simp only [hany, if_true, bind_of_ok _ (discard_of_ok hprevious)]
    rfl
  · have hany : (e.last.any fun index => decide (index < e.position)) = false := by
      rw [hlast]
      exact decide_eq_false (by omega)
    simp only [hany, hp]
    rfl

theorem untouched_of_set_error {err : Error} (hc : c.Sound) (hi : c.last = some i)
    (hx : c.session.forest.Clean x) (hrun : set x c = .error err e) : c.Untouched e := by
  have hharmless := EditM.harmless_setChild_child hc.wellFormed c.parent i hx
  rw [set_eq_edit hi, edit] at hrun
  split at hrun
  · cases hrun
  · rename_i err' s hfails
    cases hrun
    exact ⟨hharmless _ _ hfails, rfl, rfl, rfl⟩

/-- The children that were taken away are all that a failure has changed. -/
theorem shortened_of_replace_error {err : Error} (hc : c.Sound) (hi : c.last = some (i + m))
    (hx : c.session.forest.Clean x) (hrun : replace x (m + 1) c = .error err e) :
    c.Shortened i m e := by
  obtain ⟨d, hback, hd, -⟩ := removeBack_run hc hi
  rw [replace_of_removeBack hi hback] at hrun
  rcases bind_eq_error.mp hrun with hset | ⟨y, e', -, hrest⟩
  · exact hd.untouched
      (untouched_of_set_error (hd.sound hc hi) hd.last (hd.forest.clean hx) hset)
  -- what comes after the new node was put in cannot fail
  · rw [bind_of_ok _ (get_run e')] at hrest
    dsimp only at hrest
    split at hrest <;> exact nomatch hrest

variable [RegularCopy C]

/-- Whether the new node can be put in is a matter of the list that is left. -/
theorem replace_of_sound (hc : c.Sound) (hi : c.last = some (i + m)) (x : Handle) :
    ∃ d, c.Shortened i m d ∧
      ((d.session.forest.Admits (RegularCopy.copyable · = true) c.parent x ∧
          ∃ y e, replace x (m + 1) c = .ok y e ∧ c.Collapsed i m y e) ∨
        (¬ d.session.forest.Admits (RegularCopy.copyable · = true) c.parent x ∧
          ∃ err e, replace x (m + 1) c = .error err e)) := by
  obtain ⟨d, hback, hd, -⟩ := removeBack_run hc hi
  have hsound := hd.sound hc hi
  have hset := set_of_sound hsound hd.last x
  rw [hd.parent] at hset
  refine ⟨d, hd, hset.imp (And.imp_right ?_) (And.imp_right ?_)⟩
  · rintro ⟨y, e, hrun, he⟩
    have hlt := hc.last_lt hi
    have hedited := hd.collapsed hc (by omega) he
    exact ⟨y, _, replace_of_set_ok hi hback hrun (hsound.overwritten he) (he.last.trans hd.last),
      ⟨hedited.parent, hedited.forest⟩, rfl, he.last.trans hd.last⟩
  · rintro ⟨err, e, hrun, -⟩
    refine ⟨err, e, ?_⟩
    rw [replace_of_removeBack hi hback, bind_of_error _ hrun]

end CursorM

namespace Cursor
variable {C : Type} [ShallowCopy C]

/-- What calls of `replace` that fail leave behind. A wrong count changes nothing. With a right one the
children that were to be collapsed into one are reduced to that one, and this is not taken back; so
nothing has changed just if there was only one. -/
structure FailsShort (c : Cursor C) : Prop where
  zero : ∀ x, CursorM.replace x 0 c = .error (.cursorState .replaceNone) c
  unmoved : c.last = none → ∀ x n,
    CursorM.replace x (n + 1) c = .error (.cursorState .replaceUnmoved) c
  short : ∀ l, c.last = some l → ∀ x n, l + 1 < n →
    CursorM.replace x n c = .error (.cursorState .replaceShort) c
  within : ∀ i m, c.last = some (i + m) → ∀ x, c.session.forest.Clean x →
    ∀ err e, CursorM.replace x (m + 1) c = .error err e →
      c.Shortened i m e ∧ (c.Untouched e ↔ m = 0)

/-- With a right count, `replace` fails just if the list that is left does not admit the new node. -/
structure Replaces (copyable : C → Prop) (c : Cursor C) : Prop extends c.FailsShort where
  clean : ∀ x, c.session.forest.Clean x
  admits : ∀ i m, c.last = some (i + m) → ∀ x, ∃ d, c.Shortened i m d ∧
    ((d.session.forest.Admits copyable c.parent x ∧
        ∃ y e, CursorM.replace x (m + 1) c = .ok y e ∧ c.Collapsed i m y e) ∨
      (¬ d.session.forest.Admits copyable c.parent x ∧
        ∃ err e, CursorM.replace x (m + 1) c = .error err e))

theorem Sound.failsShort {c : Cursor C} (hc : c.Sound) : c.FailsShort where
  zero x := CursorM.replace_zero x c
  unmoved := CursorM.replace_of_none
  short _ hl x _ hn := CursorM.replace_of_lt hl hn x
  within i m hi x hx err e hrun := by
    have he := CursorM.shortened_of_replace_error hc hi hx hrun
    exact ⟨he, he.untouched_iff hc hi⟩

theorem Sound.replaces [RegularCopy C] {c : Cursor C} (hc : c.Sound) :
    c.Replaces (RegularCopy.copyable · = true) where
  toFailsShort := hc.failsShort
  clean := EditM.clean_of_regular c.session.forest
  admits _ _ hi x := CursorM.replace_of_sound hc hi x

end Cursor

/-- A call of `replace` that fails has left the cursor, the nodes and their links as they were if the
count was wrong or was one. If more than one child was to be replaced, those after the first of them are
roots now, and the cursor is right before the first of them. This holds of every sound cursor as long as
the copy hook leaves nothing behind for the new node. Where all copies are regular, a cursor over the
children of any node is sound after whatever calls. -/
theorem replace_leaves_behind {C : Type} [ShallowCopy C] :
    (∀ c : Cursor C, c.Sound → c.FailsShort) ∧
      ∀ [RegularCopy C] (s : Session C), s.forest.WellFormed → ∀ p, s.forest.contains p = true →
        ∃ c, Cursor.start s p = .ok c ∧ c.session = s ∧ ∀ moves,
          (c.after moves).parent = p ∧ (c.after moves).Replaces (RegularCopy.copyable · = true) := by
  refine ⟨fun c hc => hc.failsShort, fun s hF p hp => ?_⟩
  obtain ⟨c, hstart, hs, -, -, -, hmoves⟩ := Cursor.exists_sound hF hp
  exact ⟨c, hstart, hs, fun moves => (hmoves moves).imp_right Cursor.Sound.replaces⟩

theorem replace_leaves_behind_row :
    Session.row.forest.WellFormed ∧
    ∃ c, Cursor.start Session.row ⟨0, 0⟩ = .ok c ∧
      (c.after [.moveBy 3]).Replaces (fun l : Label => decide (l.kind ≠ .badCopy) = true) ∧
      (c.after [.moveBy 3, .replace ⟨4, 0⟩ 2]).children = [⟨1, 0⟩, ⟨4, 0⟩] := by
  have hF : Session.row.forest.WellFormed :=
    Session.wellFormed_after (Forest.wellFormed_empty {}) _
  obtain ⟨c, hstart, -, hmoves⟩ := replace_leaves_behind.2 Session.row hF ⟨0, 0⟩ rfl
  refine ⟨hF, c, hstart, (hmoves _).2, ?_⟩
  cases hstart
  rfl

/-- The last two children of the row are to be replaced by the row itself. That fails, and the last
child is gone from the row; the cursor, which was behind it, is right before the second child. -/
theorem last_child_lost_row :
    Session.row.forest.WellFormed ∧
    ∃ c d, Cursor.start Session.row ⟨0, 0⟩ = .ok c ∧
      (c.after [.moveBy 3]).children = [⟨1, 0⟩, ⟨2, 0⟩, ⟨3, 0⟩] ∧
      (c.after [.moveBy 3]).position = 3 ∧ (c.after [.moveBy 3]).last = some 2 ∧
      CursorM.replace ⟨0, 0⟩ 2 (c.after [.moveBy 3]) = .error (.cycleDetected "Block: row") d ∧
      d.children = [⟨1, 0⟩, ⟨2, 0⟩] ∧ d.session.forest.above? ⟨3, 0⟩ = none ∧
      d.position = 1 ∧ d.last = some 1 :=
  ⟨Session.wellFormed_after (Forest.wellFormed_empty {}) _, _, _, rfl, rfl, rfl, rfl, rfl, rfl, rfl,
    rfl, rfl⟩

end Grove
