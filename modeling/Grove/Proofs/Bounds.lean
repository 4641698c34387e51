import Grove.Proofs.Cursor.Calls
import Grove.Proofs.Edit.Guard
import Grove.Proofs.HalfLinks

/-!
# Positions stay in bounds

Whatever a history of edits and half links has made of a forest, no edit and no call of a cursor
changes a list at a position that it does not have, and no sum, difference or slice of positions leaves
its bounds. A cursor may be left behind its list when a failed copy takes nodes out, so what holds of
its places in every session is only that the slots of the store outnumber them.
-/

namespace Grove
set_option autoImplicit false

/-! ## Cursors -/

/-- The places of a cursor are within the slots of the store, if not among the children. -/
structure Cursor.Placed {C : Type} (c : Cursor C) : Prop where
  branching : c.session.forest.Branching
  position_le : c.position ≤ c.session.forest.nodes.capacity
  last_lt : ∀ i, c.last = some i → i < c.session.forest.nodes.capacity

namespace Cursor
variable {C : Type} {c d : Cursor C}

theorem Placed.start {s : Session C} {p : Handle} (hF : s.forest.Branching) :
    ({ session := s, parent := p } : Cursor C).Placed :=
  ⟨hF, Nat.zero_le _, fun _ hi => nomatch hi⟩

theorem Placed.edit {s : Session C} (hc : c.Placed) (hs : s.forest.Branching)
    (hcap : c.session.forest.nodes.capacity ≤ s.forest.nodes.capacity) :
    ({ c with session := s } : Cursor C).Placed :=
  ⟨hs, Nat.le_trans hc.position_le hcap, fun i hi => Nat.lt_of_lt_of_le (hc.last_lt i hi) hcap⟩

theorem roams_placed : Roams (Placed (C := C)) where
  next c hc := by
    unfold next
    split
    · rename_i child hchild
      obtain ⟨hlt, -⟩ := List.getElem?_eq_some_iff.mp hchild
      have hroom : c.position < c.session.forest.nodes.capacity :=
        Nat.lt_trans hlt (hc.branching.length_below_lt c.parent)
      exact ⟨hc.branching, hroom, fun i hi => Option.some.inj hi ▸ hroom⟩
    · exact hc
  previous c hc := by
    unfold previous previousIndex?
    have hle := hc.position_le
    split
    · exact hc
    · rename_i i hi
      split at hi
      · exact nomatch hi
      · rename_i hpos
        cases hi
        split
        · refine ⟨hc.branching, ?_, fun i hi => ?_⟩
          · exact Nat.le_trans (Nat.sub_le _ _) hle
          · cases hi
            exact Nat.lt_of_lt_of_le (Nat.sub_lt (Nat.pos_of_ne_zero hpos) Nat.one_pos) hle
        · exact hc

end Cursor

namespace CursorM
variable {C α : Type} {c d : Cursor C} {x : EditM C α}

theorem edit_eq_ok {a : α} (h : edit x c = .ok a d) :
    ∃ s, x c.session = .ok a s ∧ d = { c with session := s } := by
  cases hx : x c.session with
  | ok b s =>
    rw [edit_of_ok hx] at h
    cases h
    exact ⟨s, rfl, rfl⟩
  | error e s =>
    rw [edit_of_error hx] at h
    exact nomatch h

theorem requireLast_eq_ok {fault : CursorFault} {i : Nat} (h : requireLast fault c = .ok i d) :
    c.last = some i ∧ d = c := by
  cases hlast : c.last with
  | none =>
    rw [requireLast_of_none fault hlast] at h
    exact nomatch h
  | some j =>
    rw [requireLast_of_some fault hlast] at h
    cases h
    exact ⟨rfl, rfl⟩

theorem obeys_edit_placed {E : Error → Prop} {Q : α → Prop}
    (hx : Obeys (fun s : Session C => s.forest.Branching) E Q x) (hslots : Follows LeadsTo x) :
    Obeys Cursor.Placed E Q (edit x) := by
  intro c hc
  cases h : x c.session with
  | ok a s =>
    obtain ⟨hs, ha⟩ := hx.of_ok hc.branching h
    exact .ok (edit_of_ok h) (hc.edit hs (hslots.of_ok h).capacity_le) ha
  | error e s =>
    obtain ⟨hs, he⟩ := hx.of_error hc.branching h
    exact .error (edit_of_error h) (hc.edit hs (hslots.of_error h).capacity_le) he

end CursorM

section
variable {C : Type} [ShallowCopy C]

theorem EditM.le_of_insertChild {s t : Session C} {p x y : Handle} {i : Nat}
    (hrun : insertChild p i x s = .ok y t) : i ≤ (s.forest.below p).length := by
  by_contra hi
  cases hp : s.forest.contains p with
  | false =>
    rw [insertChild_of_not_contains hp] at hrun
    cases hrun
  | true =>
    rw [insertChild_of_lt hp (Nat.not_le.mp hi)] at hrun
    cases hrun

variable [BuiltCopy C] [TidyCopy C] [InsideCopy C]

theorem cursorRegime_placed :
    CursorRegime (Cursor.Placed (C := C)) (· ≠ .positionOutsideList) Anything where
  roams := Cursor.roams_placed
  tolerates _ := nofun
  remove := by
    have hI := (EditM.makerRegime_inside (C := C)).toLinkRegime
    refine .bind (CursorM.obeys_requireLast nofun) fun i _ => .bind .get fun c _ => ?_
    refine .bind (CursorM.obeys_edit_placed (hI.removeChild i trivial)
      (EditM.partLaw_leadsTo.removeChild c.parent i)) fun _ _ => ?_
    refine .bind (.modify fun d hd =>
      ⟨hd.branching, ?_, fun _ hi => absurd hi.symm (Option.some_ne_none _)⟩) fun _ _ => .pure trivial
    have hle := hd.position_le
    dsimp only
    split <;> omega
  set {x} _ := by
    have hI := (EditM.makerRegime_inside (C := C)).toLinkRegime
    refine .bind (CursorM.obeys_requireLast nofun) fun i _ => .bind .get fun c _ => ?_
    refine .bind (CursorM.obeys_edit_placed (hI.setChild (x := x) i trivial trivial)
      (EditM.editLaw_leadsTo.setChild c.parent i x)).discard fun _ _ => ?_
    exact CursorM.obeys_edit_placed (hI.ask fun F => F.quiet_child c.parent i) (.query _)
  add {x} _ := by
    intro c hc
    have hI := (EditM.makerRegime_inside (C := C)).toLinkRegime
    have hinsert := hI.insertChild (p := c.parent) (x := x) c.position trivial trivial
    have hslots := EditM.editLaw_leadsTo.insertChild (C := C) c.parent c.position x
    cases h : EditM.insertChild c.parent c.position x c.session with
    | ok y s =>
      have hs := (hinsert.of_ok hc.branching h).1
      have hcap := (hslots.of_ok h).capacity_le
      have hle := EditM.le_of_insertChild h
      have hroom := hc.branching.length_below_lt c.parent
      have hrun : CursorM.add x c =
          .ok y { c with session := s, position := c.position + 1, last := none } := by
        simp only [CursorM.add, bind_of_ok _ (CursorM.get_run c),
          bind_of_ok _ (CursorM.edit_of_ok h)]
        rfl
      refine .ok hrun ⟨hs, ?_, fun _ hi => absurd hi.symm (Option.some_ne_none _)⟩ trivial
      show c.position + 1 ≤ s.forest.nodes.capacity
      omega
    | error e s =>
      obtain ⟨hs, he⟩ := hinsert.of_error hc.branching h
      have hrun : CursorM.add x c = .error e { c with session := s } := by
        simp only [CursorM.add, bind_of_ok _ (CursorM.get_run c),
          bind_of_error _ (CursorM.edit_of_error h)]
      exact .error hrun (hc.edit hs (hslots.of_error h).capacity_le) he

end

namespace Guarded
variable {C : Type} {c : Cursor C} {i n : Nat}

theorem edit_plus_of_le (h : i + n ≤ c.session.forest.nodes.capacity) :
    CursorM.edit (plus i n) c = .ok (i + n) c := CursorM.edit_of_ok (plus_of_le h)

theorem edit_minus_of_le (h : n ≤ i) : CursorM.edit (minus i n) c = .ok (i - n) c :=
  CursorM.edit_of_ok (minus_of_le h)

theorem next_eq (hc : c.Placed) : next c = (modifyGet Cursor.next : CursorM C _) c := by
  have hrun : (modifyGet Cursor.next : CursorM C _) c = .ok c.next.1 c.next.2 := rfl
  rw [hrun, next, bind_of_ok _ (CursorM.get_run c), Cursor.next]
  cases hchild : c.children[c.position]? with
  | none => rfl
  | some child =>
    obtain ⟨hlt, -⟩ := List.getElem?_eq_some_iff.mp hchild
    have hroom : c.position + 1 ≤ c.session.forest.nodes.capacity :=
      Nat.lt_trans hlt (hc.branching.length_below_lt c.parent)
    simp only [bind_of_ok _ (edit_plus_of_le hroom)]
    rfl

theorem previous_eq (c : Cursor C) : previous c = (modifyGet Cursor.previous : CursorM C _) c := by
  have hrun : (modifyGet Cursor.previous : CursorM C _) c = .ok c.previous.1 c.previous.2 := rfl
  rw [hrun, previous, bind_of_ok _ (CursorM.get_run c), Cursor.previous, Cursor.previousIndex?]
  by_cases h0 : c.position = 0
  · simp only [if_pos h0]
    rfl
  · simp only [if_neg h0, bind_of_ok _ (edit_minus_of_le (Nat.pos_of_ne_zero h0))]
    cases c.children[c.position - 1]? with
    | none => rfl
    | some child => rfl

/-- The magnitude of a signed word is the unsigned word of its steps, that of the least word too. -/
theorem toNat_abs (amount : BitVec 64) : amount.abs.toNat = amount.toInt.natAbs := by
  have hlt := amount.isLt
  rw [BitVec.abs, BitVec.toInt_eq_msb_cond]
  cases hmsb : amount.msb with
  | false => simp
  | true =>
    have hhalf := BitVec.msb_eq_true_iff_two_mul_ge.mp hmsb
    rw [if_pos rfl, if_pos rfl, show amount.neg = -amount from rfl, BitVec.toNat_neg]
    omega

theorem moveBy_eq (amount : BitVec 64) (c : Cursor C) : moveBy amount c = c.moveBy amount.toInt := by
  have hzero : amount.toInt = 0 ↔ amount = 0 := by
    rw [← BitVec.toInt_inj]
    rfl
  simp only [moveBy, Cursor.moveBy, hzero, toNat_abs]

variable [ShallowCopy C]

theorem remove_eq (c : Cursor C) : remove c = CursorM.remove c := by
  refine bind_congr_of_ok fun index d _ => ?_
  rw [bind_of_ok _ (CursorM.get_run d), bind_of_ok _ (CursorM.get_run d)]
  refine bind_congr_of_ok fun removed e he => ?_
  obtain ⟨s, -, rfl⟩ := CursorM.edit_eq_ok he
  -- the right side decides about the place when it is written, the left side before that
  have hwrite : ∀ i, (if index < d.position then d.position - 1 else d.position) = i →
      (modify (fun c => { c with position := i, last := none }) >>= fun _ => pure removed :
        CursorM C Handle) { d with session := s } =
      (modify (fun c => { c with
        position := if index < c.position then c.position - 1 else c.position, last := none }) >>=
          fun _ => pure removed : CursorM C Handle) { d with session := s } := by
    rintro i rfl
    rfl
  by_cases hlt : index < d.position
  · have hpos : 1 ≤ d.position := Nat.lt_of_le_of_lt (Nat.zero_le index) hlt
    rw [if_pos hlt, bind_of_ok _ (edit_minus_of_le hpos)]
    exact hwrite _ (if_pos hlt)
  · rw [if_neg hlt]
    exact hwrite _ (if_neg hlt)

variable [BuiltCopy C]

theorem add_eq (hc : c.Placed) (x : Handle) : add x c = CursorM.add x c := by
  rw [add, CursorM.add, bind_of_ok _ (CursorM.get_run c), bind_of_ok _ (CursorM.get_run c)]
  refine bind_congr_of_ok fun inserted d hd => ?_
  obtain ⟨s, hrun, rfl⟩ := CursorM.edit_eq_ok hd
  have hcap := ((EditM.editLaw_leadsTo.insertChild c.parent c.position x).of_ok hrun).capacity_le
  have hle := EditM.le_of_insertChild hrun
  have hroom := hc.branching.length_below_lt c.parent
  have hplus : CursorM.edit (plus c.position 1) { c with session := s } =
      .ok (c.position + 1) { c with session := s } := edit_plus_of_le (by dsimp only; omega)
  rw [bind_of_ok _ hplus]
  rfl

variable [TidyCopy C] [InsideCopy C]

theorem removeBack_eq (hc : c.Placed) (n : Nat) : removeBack n c = CursorM.removeBack n c := by
  have hJ := cursorRegime_placed (C := C)
  induction n generalizing c with
  | zero => rfl
  | succ n ih =>
    rw [removeBack, CursorM.removeBack, bind_congr_left _ (discard_congr (remove_eq c))]
    refine bind_congr_of_ok fun _ d hd => ?_
    have hplaced := (hJ.remove.discard.of_ok hc hd).1
    rw [bind_congr_left _ (previous_eq d)]
    refine bind_congr_of_ok fun child? e he => ?_
    have hafter := (hJ.previous.of_ok hplaced he).1
    cases child? with
    | none => rfl
    | some child => exact ih hafter

theorem replace_eq (hc : c.Placed) (x : Handle) (count : Nat) :
    replace x count c = CursorM.replace x count c := by
  have hJ := cursorRegime_placed (C := C)
  unfold replace CursorM.replace
  by_cases h0 : count = 0
  · simp only [if_pos h0]
    rfl
  simp only [if_neg h0]
  refine bind_congr_of_ok fun last d hd => ?_
  obtain ⟨hlast, rfl⟩ := CursorM.requireLast_eq_ok hd
  rw [bind_of_ok _ (edit_plus_of_le (hc.last_lt last hlast))]
  by_cases hshort : last + 1 < count
  · simp only [if_pos hshort]
    rfl
  simp only [if_neg hshort]
  rw [bind_of_ok _ (edit_minus_of_le (Nat.pos_of_ne_zero h0)),
    bind_congr_left _ (removeBack_eq hc (count - 1))]
  refine bind_congr_of_ok fun _ e _ => bind_congr_of_ok fun inserted f _ => ?_
  rw [bind_of_ok _ (CursorM.get_run f), bind_of_ok _ (CursorM.get_run f)]
  split
  · exact bind_congr_left _ (discard_congr (previous_eq f))
  · rfl

end Guarded

/-! ## Walks -/

namespace Session
variable {C : Type} [Content C] {s : Session C} {h : Handle}

/-- What stands below a node are no more nodes than there are. -/
theorem exists_descends_le_size (hF : s.forest.Branching) (hh : s.forest.contains h = true) :
    ∃ ds, s.Descends h ds ∧ (h :: ds).length ≤ s.forest.size := by
  obtain ⟨b, hb, htops, hnd, -⟩ := hF.exists_bears_below hh
  refine ⟨b.handles, descends_of_bears (.node hh hb htops) hnd, ?_⟩
  refine Forest.length_le_size hnd fun k hk => ?_
  rcases List.mem_cons.mp hk with rfl | hk
  · exact hh
  · exact hb.contains hk

theorem height_le_size (hF : s.forest.Branching) {n : Nat} (hn : s.forest.height h = .ok n) :
    n ≤ s.forest.size := by
  cases hh : s.forest.contains h with
  | false =>
    obtain ⟨k, hk⟩ := Nat.exists_eq_succ_of_ne_zero (Nat.ne_of_gt s.forest.nodes.slots_pos)
    have hcap : s.forest.nodes.capacity = k + 1 := hk
    rw [Forest.height, hcap, Forest.heightFrom, Forest.children,
      Forest.node_of_not_contains hh] at hn
    cases hn
  | true =>
    obtain ⟨ds, hds, hsize⟩ := exists_descends_le_size hF hh
    obtain ⟨k, hk, hheight, -⟩ := hds.height
    rw [hheight] at hn
    cases hn
    exact Nat.le_trans hk hsize

theorem length_matching_le_size (hF : s.forest.Branching) {P : Predicate C} {prune : Bool}
    {hs : List Handle} (hhs : s.forest.matchingDescendants h P prune = .ok hs) :
    hs.length ≤ s.forest.size := by
  cases hh : s.forest.contains h with
  | false =>
    rw [Forest.matchingDescendants, Forest.children, Forest.node_of_not_contains hh] at hhs
    cases hhs
  | true =>
    obtain ⟨ds, hds, hsize⟩ := exists_descends_le_size hF hh
    obtain ⟨found, hfound, hsub, -⟩ := hds.matching P prune
    rw [hfound] at hhs
    cases hhs
    have hle := hsub.length_le
    rw [List.length_cons] at hsize
    omega

end Session

/-! ## In bounds -/

section
variable {C : Type} [ShallowCopy C]

/-- No call of the cursor changes a list at a position that it does not have, and no guard strikes. -/
structure Cursor.StaysInBounds (c : Cursor C) : Prop where
  inside : ∀ (m : Move C) d, m.run c ≠ .error .positionOutsideList d
  guarded : ∀ m : Move C, m.guarded c = m.run c
  moveBy : ∀ amount : BitVec 64, Guarded.moveBy amount c = c.moveBy amount.toInt

/-- No edit of the session changes a list at a position that it does not have, and no guard strikes,
whatever the arguments. -/
structure Session.StaysInBounds (s : Session C) : Prop where
  /-- a rule at work may make up any failure but this one -/
  inside : ∀ e : Edit C, e.FailsOnly (· ≠ .positionOutsideList) → EditM.Inside e.run s
  guarded : ∀ e : Edit C, e.guarded s = e.run s
  pointing : ∀ p x, EditM.Inside (EditM.setAsParentOf p x) s
  /-- the only edit whose failure is swallowed, in whatever session a failed copy has left -/
  release : ∀ (t : Session C) h, EditM.Inside (do EditM.detach h; discard (EditM.dispose h)) t
  leftSiblings : ∀ h, EditM.Inside (EditM.leftSiblings h) s ∧
    Guarded.leftSiblings h s = EditM.leftSiblings h s
  rightSiblings : ∀ h, EditM.Inside (EditM.rightSiblings h) s ∧
    Guarded.rightSiblings h s = EditM.rightSiblings h s
  cursors : ∀ p c moves, Cursor.start s p = .ok c → (c.after moves).StaysInBounds
  /-- levels are counted up to the height -/
  height : ∀ h n, s.forest.height h = .ok n → n ≤ s.forest.size
  /-- a rank counts the positions in such a walk from 1 -/
  matching : ∀ h P prune hs, s.forest.matchingDescendants h P prune = .ok hs →
    hs.length ≤ s.forest.size

theorem EditM.inside_siblings {s : Session C} (h : Handle)
    (select : List Handle → Nat → List Handle) : Inside (siblings h select) s := by
  have hquiet : Quiet (s.forest.siblings? h select) := by
    refine .bind (s.forest.quiet_parent h) fun parent? => ?_
    cases parent? with
    | none => exact .pure _
    | some p =>
      exact .bind (s.forest.quiet_positionIn p h) fun _ =>
        .bind (s.forest.quiet_children p) fun _ => .pure _
  refine .bind (.query hquiet) fun hs? t _ => ?_
  cases hs? with
  | none => exact .bind (.describe h) fun _ u _ => .bind (.of_ok (notify_run _ u)) fun _ _ _ => .pure _
  | some hs => exact .pure _

variable [BuiltCopy C]

theorem Edit.guarded_eq {s : Session C} (hF : s.forest.Branching) (e : Edit C) :
    e.guarded s = e.run s := by
  cases e with
  | addChildRightOf p x y => exact discard_congr (Guarded.addChildRightOf_eq hF p x y)
  | removeChildrenRange p start stop =>
    exact discard_congr (Guarded.removeChildrenRange_eq hF p start stop)
  | removeChildrenOfKind p k => exact discard_congr (Guarded.removeChildrenOfKind_eq hF p k)
  | setChildAndRemove p x start stop =>
    exact discard_congr (Guarded.setChildAndRemove_eq hF p x start stop)
  | insertBeside side base x move =>
    exact discard_congr (Guarded.insertBeside_eq hF side base x move)
  | _ => rfl

variable [TidyCopy C] [InsideCopy C]

theorem Cursor.Placed.staysInBounds {c : Cursor C} (hc : c.Placed) : c.StaysInBounds where
  inside m d hd := by
    have hmove := cursorRegime_placed.move m fun _ _ => trivial
    exact (hmove.of_error hc hd).2 rfl
  guarded m := by
    cases m with
    | next => exact discard_congr (Guarded.next_eq hc)
    | previous => exact discard_congr (Guarded.previous_eq c)
    | remove => exact discard_congr (Guarded.remove_eq c)
    | add x => exact discard_congr (Guarded.add_eq hc x)
    | replace x count => exact discard_congr (Guarded.replace_eq hc x count)
    | _ => rfl
  moveBy amount := Guarded.moveBy_eq amount c

/-- All that bounds rely on is that the children lists are those of trees. -/
theorem Session.staysInBounds_of_branching {s : Session C} (hF : s.forest.Branching) :
    s.StaysInBounds where
  inside e he t ht := by
    have hI := EditM.makerRegime_inside (C := C)
    have hrun := hI.run hF (fun _ _ => trivial) he
      (fun h f _ => EditM.obeys_of_inside (EditM.setContent_keepsBranching h f) fun _ _ =>
        EditM.inside_updateNode h _)
      (fun h _ => EditM.obeys_of_inside (EditM.editLaw_keepsBranching.dispose h) fun _ _ =>
        EditM.inside_dispose h)
    exact (hrun.of_error _ t ht).2 rfl
  guarded := Edit.guarded_eq hF
  pointing p x := EditM.inside_setAsParentOf p x
  release t h := .bind (EditM.inside_detach h) fun _ _ _ => (EditM.inside_dispose h).discard
  leftSiblings h := ⟨EditM.inside_siblings h _, Guarded.leftSiblings_eq h⟩
  rightSiblings h := ⟨EditM.inside_siblings h _, Guarded.rightSiblings_eq hF h⟩
  cursors p c moves hc := by
    have hstart : c.Placed := Cursor.eq_of_start hc ▸ .start hF
    have hafter : (c.after moves).Placed :=
      cursorRegime_placed.moves hstart moves fun _ _ _ _ => trivial
    exact hafter.staysInBounds
  height _ _ := Session.height_le_size hF
  matching _ _ _ _ := Session.length_matching_le_size hF

theorem Session.staysInBounds_afterSteps (settings : Settings) (steps : List (Step C)) :
    ((Session.fresh C settings).afterSteps steps).StaysInBounds :=
  staysInBounds_of_branching <|
    branching_afterSteps (Forest.wellFormed_empty settings).branching steps

end

/-- No history of edits and half links makes an edit or a cursor leave the bounds of a list, or a
position those of a machine word that counts the slots of the store, whatever a copy hook does: make a
new node, hang it below another, fail, or hand back its source. -/
theorem positions_stay_in_bounds :
    (∀ settings steps, ((Session.fresh Label settings).afterSteps steps).StaysInBounds) ∧
      (∀ settings steps, ((Session.fresh Plain settings).afterSteps steps).StaysInBounds) ∧
      ∀ settings steps, ((Session.fresh Probe settings).afterSteps steps).StaysInBounds :=
  ⟨Session.staysInBounds_afterSteps, Session.staysInBounds_afterSteps,
    Session.staysInBounds_afterSteps⟩

/-- A node with one child, whose copy hook hands back the child itself. -/
def Session.echo : Session Probe := (Session.fresh Probe {}).after
  [.create ⟨.alpha, "a"⟩, .create ⟨.same, "b"⟩, .addChild ⟨0, 0⟩ ⟨1, 0⟩]

/-- The copy is refused and taken out, which leaves the cursor behind the end of an empty list. -/
example : ∃ c, Cursor.start Session.echo ⟨0, 0⟩ = .ok c ∧
    (c.after [.next, .add ⟨1, 0⟩]).children = [] ∧
      (c.after [.next, .add ⟨1, 0⟩]).position = 1 := ⟨_, rfl, rfl, rfl⟩

end Grove
