import Grove.Proofs.Cursor.Movement
import Grove.Proofs.Edit.Relist
import Grove.Proofs.Edit.Sibling
import Grove.Proofs.Integrity

/-!
# Cursors over a list

A cursor is a place in the list of children of its parent. What is passed last stays next to that
place until an edit takes it away, so between two calls it is the child right before the cursor or the
one right after it. From this follows what every call does, also after calls that have failed.
-/

namespace Grove
set_option autoImplicit false

namespace Cursor
variable {C : Type} {c d e : Cursor C} {h x y : Handle} {i t : Nat} {l : List Handle}

/-- What holds of a cursor between two calls. -/
structure Sound (c : Cursor C) : Prop where
  wellFormed : c.session.forest.WellFormed
  live : c.session.forest.contains c.parent = true
  position_le : c.position ≤ c.children.length
  last_beside : ∀ i, c.last = some i →
    i + 1 = c.position ∨ i = c.position ∧ i < c.children.length

theorem start_of_contains {s : Session C} {p : Handle} (hp : s.forest.contains p = true) :
    start s p = .ok { session := s, parent := p } := by
  obtain ⟨n, hn⟩ := Forest.contains_iff.mp hp
  simp only [start, Forest.node_of_get? hn]
  rfl

theorem sound_start {s : Session C} {p : Handle} (hF : s.forest.WellFormed)
    (hp : s.forest.contains p = true) : ({ session := s, parent := p } : Cursor C).Sound :=
  ⟨hF, hp, Nat.zero_le _, fun _ hi => nomatch hi⟩

theorem Sound.last_lt (hc : c.Sound) (hi : c.last = some i) : i < c.children.length := by
  have hle := hc.position_le
  rcases hc.last_beside i hi with h | h <;> omega

theorem Sound.goTo (hc : c.Sound) (ht : t ≤ c.children.length) : (c.goTo t).2.Sound := by
  refine ⟨?_, ?_, ?_, fun i hi => ?_⟩
  · rw [session_goTo]
    exact hc.wellFormed
  · rw [session_goTo, parent_goTo]
    exact hc.live
  · rwa [position_goTo, children_goTo]
  · rw [position_goTo, children_goTo]
    rcases Nat.lt_trichotomy c.position t with hlt | rfl | hgt
    · rw [goTo_of_lt hlt] at hi
      cases hi
      omega
    · rw [goTo_position] at hi
      exact hc.last_beside i hi
    · have hle := hc.position_le
      rw [goTo_of_gt hgt] at hi
      cases hi
      omega

/-! ## Edits -/

/-- `d` is `c` after an edit that has turned the children into `l`. -/
structure Edited (c d : Cursor C) (l : List Handle) : Prop where
  parent : d.parent = c.parent
  forest : c.session.forest.Relisted d.session.forest c.parent l

theorem Edited.children (hd : c.Edited d l) : d.children = l := by
  rw [Cursor.children, hd.parent, hd.forest.children]

/-- The child `h` at position `i` was removed, and the cursor is between the same of the others. -/
structure Removed (c : Cursor C) (i : Nat) (h : Handle) (d : Cursor C) : Prop where
  child : c.children[i]? = some h
  edited : c.Edited d (c.children.eraseIdx i)
  position : d.position = if i < c.position then c.position - 1 else c.position
  before : d.children.take d.position = (c.children.take c.position).erase h
  after : d.children.drop d.position = (c.children.drop c.position).erase h
  last : d.last = none
  contains_eq : ∀ k, d.session.forest.contains k = c.session.forest.contains k

/-- The child at position `i` has given way to what stands for `x`, and nothing has moved. -/
structure Overwritten (c : Cursor C) (i : Nat) (x y : Handle) (d : Cursor C) : Prop where
  standsFor : c.session.forest.StandsFor d.session.forest y x
  edited : c.Edited d (c.children.set i y)
  position : d.position = c.position
  last : d.last = c.last

/-- What stands for `x` is right before the cursor, and no child counts as passed. -/
structure Added (c : Cursor C) (x y : Handle) (d : Cursor C) : Prop where
  standsFor : c.session.forest.StandsFor d.session.forest y x
  edited : c.Edited d (c.children.insertIdx c.position y)
  position : d.position = c.position + 1
  last : d.last = none

/-- An edit that has failed has left the nodes and the cursor as they were. -/
structure Untouched (c d : Cursor C) : Prop where
  nodes : d.session.forest.SameNodes c.session.forest
  parent : d.parent = c.parent
  position : d.position = c.position
  last : d.last = c.last

theorem Sound.edited (hc : c.Sound) (hd : c.Edited d l) (hle : d.position ≤ l.length)
    (hlast : ∀ i, d.last = some i → i + 1 = d.position ∨ i = d.position ∧ i < l.length) :
    d.Sound where
  wellFormed := hd.forest.wellFormed
  live := by
    rw [hd.parent]
    exact hd.forest.contains hc.live
  position_le := by rwa [hd.children]
  last_beside := by rwa [hd.children]

theorem Sound.removed (hc : c.Sound) (hd : c.Removed i h d) (hi : c.last = some i) : d.Sound := by
  refine hc.edited hd.edited ?_ fun j hj => ?_
  · have hlt := hc.last_lt hi
    have hle := hc.position_le
    rw [hd.position, List.length_eraseIdx_of_lt hlt]
    rcases hc.last_beside i hi with h | h <;> split <;> omega
  · rw [hd.last] at hj
    exact nomatch hj

theorem Sound.overwritten (hc : c.Sound) (hd : c.Overwritten i x y d) : d.Sound := by
  refine hc.edited hd.edited ?_ ?_
  · rw [hd.position, List.length_set]
    exact hc.position_le
  · rw [hd.position, hd.last, List.length_set]
    exact hc.last_beside

theorem Sound.added (hc : c.Sound) (hd : c.Added x y d) : d.Sound := by
  refine hc.edited hd.edited ?_ fun j hj => ?_
  · rw [hd.position, List.length_insertIdx_of_le_length hc.position_le]
    exact Nat.succ_le_succ hc.position_le
  · rw [hd.last] at hj
    exact nomatch hj

theorem Sound.untouched (hc : c.Sound) (hd : c.Untouched d) : d.Sound := by
  have hchildren : d.children = c.children := by
    rw [Cursor.children, hd.parent, hd.nodes.below_eq, Cursor.children]
  refine ⟨hd.nodes.symm.wellFormed hc.wellFormed, ?_, ?_, ?_⟩
  · rw [hd.nodes.contains_eq, hd.parent]
    exact hc.live
  · rw [hd.position, hchildren]
    exact hc.position_le
  · rw [hd.position, hd.last, hchildren]
    exact hc.last_beside

/-- Without one element the others of a list are where they were, seen from a place beside it. -/
theorem take_drop_eraseIdx (hl : l.Nodup) (hi : l[i]? = some h) (ht : i + 1 = t ∨ i = t) :
    (l.eraseIdx i).take (if i < t then t - 1 else t) = (l.take t).erase h ∧
      (l.eraseIdx i).drop (if i < t then t - 1 else t) = (l.drop t).erase h := by
  obtain ⟨hlt, rfl⟩ := List.getElem?_eq_some_iff.mp hi
  have hplace : (if i < t then t - 1 else t) = i := by split <;> omega
  have hlen : (l.take i).length = i := by rw [List.length_take]; omega
  have hsplit : l = l.take i ++ l[i] :: l.drop (i + 1) := by
    rw [← List.drop_eq_getElem_cons hlt, List.take_append_drop]
  obtain ⟨-, hright, hleft⟩ := List.nodup_append.mp (hsplit ▸ hl)
  have hnotLeft : l[i] ∉ l.take i := fun hm => hleft _ hm _ List.mem_cons_self rfl
  have hnotRight : l[i] ∉ l.drop (i + 1) := (List.nodup_cons.mp hright).1
  rw [hplace, List.eraseIdx_eq_take_drop_succ, List.take_left' hlen, List.drop_left' hlen]
  -- the element is the last one before the place, or the first one after it
  rcases ht with rfl | rfl
  · rw [List.take_succ_eq_append_getElem hlt, List.erase_append_right _ hnotLeft,
      List.erase_of_not_mem hnotRight]
    simp
  · rw [List.erase_of_not_mem hnotLeft, List.drop_eq_getElem_cons hlt, List.erase_cons_head]
    exact ⟨rfl, rfl⟩

end Cursor

namespace CursorM
variable {C α : Type} {c d : Cursor C} {s : Session C} {h x y : Handle} {i : Nat}

theorem get_run (c : Cursor C) : (get : CursorM C (Cursor C)) c = .ok c c := rfl

theorem requireLast_of_some (fault : CursorFault) (hi : c.last = some i) :
    requireLast fault c = .ok i c := by
  simp only [requireLast, bind_of_ok _ (get_run c), hi]
  rfl

theorem requireLast_of_none (fault : CursorFault) (hc : c.last = none) :
    requireLast fault c = .error (.cursorState fault) c := by
  simp only [requireLast, bind_of_ok _ (get_run c), hc]
  rfl

variable [ShallowCopy C]

theorem remove_of_none (hc : c.last = none) :
    remove c = .error (.cursorState .removeUnmoved) c := by
  rw [remove, bind_of_error _ (requireLast_of_none _ hc)]

theorem set_of_none (hc : c.last = none) (x : Handle) :
    set x c = .error (.cursorState .setUnmoved) c := by
  rw [set, bind_of_error _ (requireLast_of_none _ hc)]

theorem remove_of_ok (hi : c.last = some i)
    (hrun : EditM.removeChild c.parent i c.session = .ok h s) :
    remove c = .ok h
      { c with
        session := s
        position := if i < c.position then c.position - 1 else c.position
        last := none } := by
  simp only [remove, bind_of_ok _ (requireLast_of_some _ hi), bind_of_ok _ (get_run c),
    bind_of_ok _ (edit_of_ok hrun)]
  rfl

theorem set_eq_edit (hi : c.last = some i) (x : Handle) :
    set x c = edit (do
      discard (EditM.setChild c.parent i x)
      EditM.query fun F => F.child c.parent i) c := by
  simp only [set, bind_of_ok _ (requireLast_of_some _ hi), bind_of_ok _ (get_run c)]
  cases hrun : EditM.setChild c.parent i x c.session with
  | ok h s =>
    rw [bind_of_ok _ (discard_of_ok (edit_of_ok hrun)), edit, edit, bind_of_ok _ (discard_of_ok hrun)]
  | error err s =>
    rw [bind_of_error _ (discard_of_error (edit_of_error hrun)), edit,
      bind_of_error _ (discard_of_error hrun)]

theorem set_of_ok (hi : c.last = some i)
    (hrun : EditM.setChild c.parent i x c.session = .ok h s)
    (hy : (s.forest.below c.parent)[i]? = some y) :
    set x c = .ok y { c with session := s } := by
  rw [set_eq_edit hi]
  refine edit_of_ok ?_
  rw [bind_of_ok _ (discard_of_ok hrun)]
  exact EditM.query_of_ok (Forest.child_of_getElem? hy)

theorem remove_of_sound (hc : c.Sound) (hi : c.last = some i) :
    ∃ h d, remove c = .ok h d ∧ c.Removed i h d := by
  have hlt := hc.last_lt hi
  have hchild : c.children[i]? = some c.children[i] := List.getElem?_eq_getElem hlt
  have hrelisted := Forest.relisted_cut hc.wellFormed hchild
  have hbeside := (hc.last_beside i hi).imp_right And.left
  obtain ⟨hbefore, hafter⟩ :=
    Cursor.take_drop_eraseIdx (hc.wellFormed.nodup_below c.parent) hchild hbeside
  have hrun := remove_of_ok hi (EditM.removeChild_of_getElem? hc.wellFormed hchild)
  refine ⟨_, _, hrun, hchild, ⟨rfl, hrelisted⟩, rfl, ?_, ?_, rfl,
    Forest.contains_cut c.session.forest c.children[i]⟩
  · exact (congrArg (List.take _) hrelisted.children).trans hbefore
  · exact (congrArg (List.drop _) hrelisted.children).trans hafter

variable [RegularCopy C]

theorem set_of_sound (hc : c.Sound) (hi : c.last = some i) (x : Handle) :
    (c.session.forest.Admits (RegularCopy.copyable · = true) c.parent x ∧
        ∃ y d, set x c = .ok y d ∧ c.Overwritten i x y d) ∨
      (¬ c.session.forest.Admits (RegularCopy.copyable · = true) c.parent x ∧
        ∃ err d, set x c = .error err d ∧ c.Untouched d) := by
  rcases EditM.setChild_outcome hc.wellFormed c.parent i x with
    ⟨hx, _, y, t, hrun, -, hy, hrelisted⟩ | ⟨hx, err, t, hrun, hsame⟩
  · have hat : (t.forest.below c.parent)[i]? = some y :=
      (congrArg (·[i]?) hrelisted.children).trans (List.getElem?_set_self (hc.last_lt hi))
    exact Or.inl ⟨hx, y, { c with session := t }, set_of_ok hi hrun hat, hy, ⟨rfl, hrelisted⟩, rfl,
      rfl⟩
  · refine Or.inr ⟨hx (hc.last_lt hi), err, { c with session := t }, ?_, hsame, rfl, rfl, rfl⟩
    rw [set_eq_edit hi]
    exact edit_of_error (bind_of_error _ (discard_of_error hrun))

theorem add_of_sound (hc : c.Sound) (x : Handle) :
    (c.session.forest.Admits (RegularCopy.copyable · = true) c.parent x ∧
        ∃ y d, add x c = .ok y d ∧ c.Added x y d) ∨
      (¬ c.session.forest.Admits (RegularCopy.copyable · = true) c.parent x ∧
        ∃ err d, add x c = .error err d ∧ c.Untouched d) := by
  rcases EditM.insertChild_outcome hc.wellFormed c.parent c.position x with
    ⟨hx, y, t, hrun, hy, hrelisted⟩ | ⟨hx, err, t, hrun, hsame⟩
  · refine Or.inl ⟨hx, y, { c with session := t, position := c.position + 1, last := none }, ?_, hy,
      ⟨rfl, hrelisted⟩, rfl, rfl⟩
    simp only [add, bind_of_ok _ (get_run c), bind_of_ok _ (edit_of_ok hrun)]
    rfl
  · refine Or.inr ⟨hx hc.live hc.position_le, err, { c with session := t }, ?_, hsame, rfl, rfl, rfl⟩
    simp only [add, bind_of_ok _ (get_run c), bind_of_error _ (edit_of_error hrun)]

end CursorM

/-! ## Runs of calls -/

namespace Cursor
variable {C : Type} {c d : Cursor C} {t : Nat}

/-- The law that a cursor stays sound and keeps its parent. -/
def KeepsSound (c d : Cursor C) : Prop := c.Sound → d.Sound ∧ d.parent = c.parent

instance isPreorder_keepsSound : IsPreorder (Cursor C) KeepsSound where
  refl _ hc := ⟨hc, rfl⟩
  trans _ _ _ hcd hde hc := by
    obtain ⟨hd, hp⟩ := hcd hc
    exact ⟨(hde hd).1, (hde hd).2.trans hp⟩

theorem Sound.keeps_goTo (hc : c.Sound) (ht : t ≤ c.children.length) :
    (c.goTo t).2.Sound ∧ (c.goTo t).2.parent = c.parent :=
  ⟨hc.goTo ht, parent_goTo t c⟩

variable [ShallowCopy C]

theorem remove_keepsSound : Follows KeepsSound (CursorM.remove (C := C)) := by
  intro c hc
  cases hi : c.last with
  | none =>
    rw [final_of_error (CursorM.remove_of_none hi)]
    exact ⟨hc, rfl⟩
  | some i =>
    obtain ⟨h, d, hrun, hd⟩ := CursorM.remove_of_sound hc hi
    rw [final_of_ok hrun]
    exact ⟨hc.removed hd hi, hd.edited.parent⟩

variable [RegularCopy C]

theorem set_keepsSound (x : Handle) : Follows KeepsSound (CursorM.set (C := C) x) := by
  intro c hc
  cases hi : c.last with
  | none =>
    rw [final_of_error (CursorM.set_of_none hi x)]
    exact ⟨hc, rfl⟩
  | some i =>
    rcases CursorM.set_of_sound hc hi x with ⟨-, y, d, hrun, hd⟩ | ⟨-, err, d, hrun, hd⟩
    · rw [final_of_ok hrun]
      exact ⟨hc.overwritten hd, hd.edited.parent⟩
    · rw [final_of_error hrun]
      exact ⟨hc.untouched hd, hd.parent⟩

theorem add_keepsSound (x : Handle) : Follows KeepsSound (CursorM.add (C := C) x) := by
  intro c hc
  rcases CursorM.add_of_sound hc x with ⟨-, y, d, hrun, hd⟩ | ⟨-, err, d, hrun, hd⟩
  · rw [final_of_ok hrun]
    exact ⟨hc.added hd, hd.edited.parent⟩
  · rw [final_of_error hrun]
    exact ⟨hc.untouched hd, hd.parent⟩

theorem cursorRegime_keepsSound (c₀ : Cursor C) :
    CursorRegime (KeepsSound c₀) (fun _ => True) (fun _ => True) where
  roams := by
    refine ⟨fun c hc => trans_of KeepsSound hc fun hsound => ?_,
      fun c hc => trans_of KeepsSound hc fun hsound => ?_⟩
    · rw [next_eq_goTo hsound.position_le]
      exact hsound.keeps_goTo (Nat.min_le_right _ _)
    · have hle := hsound.position_le
      rw [previous_eq_goTo hle]
      exact hsound.keeps_goTo (by omega)
  tolerates _ := trivial
  remove := remove_keepsSound.obeys c₀
  set _ := (set_keepsSound _).obeys c₀
  add _ := (add_keepsSound _).obeys c₀

theorem move_keepsSound (m : Move C) : Follows KeepsSound m.run :=
  .of_obeys fun c => (cursorRegime_keepsSound c).move m fun _ _ => trivial

/-- The cursor after a sequence of calls, whether or not they have failed. -/
def after (c : Cursor C) (moves : List (Move C)) : Cursor C :=
  moves.foldl (fun c m => final m.run c) c

theorem keepsSound_after (c : Cursor C) (moves : List (Move C)) : KeepsSound c (c.after moves) := by
  induction moves generalizing c with
  | nil => exact refl_of KeepsSound c
  | cons m moves ih => exact trans_of KeepsSound (move_keepsSound m c) (ih _)

/-- The cursor answers every call as a place in the list of children does. Nodes of which a copy has to
be made are copied if and only if their contents are `copyable`. -/
structure IsListCursor (copyable : C → Prop) (c : Cursor C) : Prop where
  position_le : c.position ≤ c.children.length
  /-- the child passed last is right before the cursor or right after it, if there is one -/
  last : c.last = none ∨ (0 < c.position ∧ c.last = some (c.position - 1)) ∨
    (c.position < c.children.length ∧ c.last = some c.position)
  next : c.next = c.goTo (min (c.position + 1) c.children.length)
  previous : c.previous = c.goTo (c.position - 1)
  back : ∀ n, c.back n = c.goTo (c.position - n)
  moveBy_zero : c.moveBy 0 = (c.lastReturned?, c)
  moveBy : ∀ a : Int, a ≠ 0 →
    c.moveBy a = c.goTo (min (c.position + a).toNat c.children.length)
  nextMatching : ∀ P, c.nextMatching P =
    match (c.children.drop c.position).findIdx? (P c.session.forest) with
    | some j => c.goTo (c.position + j + 1)
    | none => (none, (c.goTo c.children.length).2)
  nextOfKind : ∀ k, c.nextOfKind k =
    c.nextMatching fun F h => decide ((F.contentOf? h).map Content.kind = some k)
  nextNotOfKind : ∀ k, c.nextNotOfKind k =
    c.nextMatching fun F h => decide ((F.contentOf? h).map Content.kind ≠ some k)
  rest : c.rest = (c.children.drop c.position, (c.goTo c.children.length).2)
  remove : ∀ i, c.last = some i → ∃ h d, CursorM.remove c = .ok h d ∧ c.Removed i h d
  remove_unmoved : c.last = none → CursorM.remove c = .error (.cursorState .removeUnmoved) c
  set : ∀ i x, c.last = some i →
    (c.session.forest.Admits copyable c.parent x ∧
        ∃ y d, CursorM.set x c = .ok y d ∧ c.Overwritten i x y d) ∨
      (¬ c.session.forest.Admits copyable c.parent x ∧
        ∃ err d, CursorM.set x c = .error err d ∧ c.Untouched d)
  set_unmoved : c.last = none → ∀ x, CursorM.set x c = .error (.cursorState .setUnmoved) c
  add : ∀ x,
    (c.session.forest.Admits copyable c.parent x ∧
        ∃ y d, CursorM.add x c = .ok y d ∧ c.Added x y d) ∨
      (¬ c.session.forest.Admits copyable c.parent x ∧
        ∃ err d, CursorM.add x c = .error err d ∧ c.Untouched d)

theorem Sound.isListCursor (hc : c.Sound) : c.IsListCursor (RegularCopy.copyable · = true) where
  position_le := hc.position_le
  last := by
    cases hi : c.last with
    | none => exact Or.inl rfl
    | some i =>
      rcases hc.last_beside i hi with h | ⟨rfl, hlt⟩
      · refine Or.inr (Or.inl ⟨by omega, congrArg some ?_⟩)
        omega
      · exact Or.inr (Or.inr ⟨hlt, rfl⟩)
  next := next_eq_goTo hc.position_le
  previous := previous_eq_goTo hc.position_le
  back := back_eq_goTo hc.position_le
  moveBy_zero := if_pos rfl
  moveBy _ ha := moveBy_eq_goTo hc.position_le ha
  nextMatching P := nextMatching_eq P hc.wellFormed hc.position_le
  nextOfKind k := by simp only [Cursor.nextOfKind, Forest.isKind_eq]
  nextNotOfKind k := by simp only [Cursor.nextNotOfKind, Forest.isKind_eq, decide_not]
  rest := rest_eq hc.position_le
  remove _ hi := CursorM.remove_of_sound hc hi
  remove_unmoved := CursorM.remove_of_none
  set _ x hi := CursorM.set_of_sound hc hi x
  set_unmoved := CursorM.set_of_none
  add := CursorM.add_of_sound hc

theorem exists_sound {s : Session C} {p : Handle} (hF : s.forest.WellFormed)
    (hp : s.forest.contains p = true) :
    ∃ c, start s p = .ok c ∧ c.session = s ∧ c.parent = p ∧ c.position = 0 ∧ c.last = none ∧
      ∀ moves, (c.after moves).parent = p ∧ (c.after moves).Sound := by
  refine ⟨_, start_of_contains hp, rfl, rfl, rfl, rfl, fun moves => ?_⟩
  exact (keepsSound_after _ moves (sound_start hF hp)).symm

theorem exists_start {copyable : C → Prop} {s : Session C} {p : Handle}
    (hcopyable : ∀ content, RegularCopy.copyable content = true ↔ copyable content)
    (hF : s.forest.WellFormed) (hp : s.forest.contains p = true) :
    ∃ c, start s p = .ok c ∧ c.session = s ∧ c.parent = p ∧ c.position = 0 ∧ c.last = none ∧
      ∀ moves, (c.after moves).parent = p ∧ (c.after moves).IsListCursor copyable := by
  obtain rfl : (RegularCopy.copyable · = true) = copyable :=
    funext fun content => propext (hcopyable content)
  obtain ⟨c, hstart, hs, hparent, hposition, hlast, hmoves⟩ := exists_sound hF hp
  exact ⟨c, hstart, hs, hparent, hposition, hlast, fun moves =>
    (hmoves moves).imp_right Sound.isListCursor⟩

end Cursor

/-- A cursor over the children of a node is there for every node, and after whatever calls it is a list
cursor: with labels, bad copies among them, as with plain contents. -/
theorem isListCursor_of_moves :
    (∀ (s : Session Label), s.forest.WellFormed → ∀ p, s.forest.contains p = true →
      ∃ c, Cursor.start s p = .ok c ∧ c.session = s ∧ c.parent = p ∧ c.position = 0 ∧
        c.last = none ∧ ∀ moves, (c.after moves).parent = p ∧
          (c.after moves).IsListCursor fun l : Label => l.kind ≠ .badCopy) ∧
    ∀ (s : Session Plain), s.forest.WellFormed → ∀ p, s.forest.contains p = true →
      ∃ c, Cursor.start s p = .ok c ∧ c.session = s ∧ c.parent = p ∧ c.position = 0 ∧
        c.last = none ∧ ∀ moves, (c.after moves).parent = p ∧
          (c.after moves).IsListCursor fun _ : Plain => True :=
  ⟨fun _ hF _ hp => Cursor.exists_start (fun _ => decide_eq_true_iff) hF hp,
    fun _ hF _ hp => Cursor.exists_start (fun _ => iff_of_true rfl trivial) hF hp⟩

def Session.row : Session Label := (Session.fresh Label {}).after
  [.create ⟨.block, "row"⟩, .create ⟨.leaf, "a"⟩, .create ⟨.leaf, "b"⟩, .create ⟨.leaf, "c"⟩,
    .create ⟨.special, "x"⟩, .addChildren ⟨0, 0⟩ [⟨1, 0⟩, ⟨2, 0⟩, ⟨3, 0⟩]]

/-- Of the row the second child is removed and `x` added in its place; the removal that comes then
fails. -/
theorem isListCursor_row :
    Session.row.forest.WellFormed ∧
    ∃ c, Cursor.start Session.row ⟨0, 0⟩ = .ok c ∧
      (c.after [.moveBy 2, .remove, .add ⟨4, 0⟩, .remove]).children = [⟨1, 0⟩, ⟨4, 0⟩, ⟨3, 0⟩] ∧
      (c.after [.moveBy 2, .remove, .add ⟨4, 0⟩, .remove]).IsListCursor
        fun l : Label => l.kind ≠ .badCopy := by
  have hF : Session.row.forest.WellFormed :=
    Session.wellFormed_after (Forest.wellFormed_empty {}) _
  obtain ⟨c, hstart, -, -, -, -, hmoves⟩ := isListCursor_of_moves.1 _ hF ⟨0, 0⟩ rfl
  refine ⟨hF, c, hstart, ?_, (hmoves _).2⟩
  cases hstart
  rfl

end Grove
