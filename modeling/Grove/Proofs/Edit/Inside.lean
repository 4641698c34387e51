import Grove.Proofs.Edit.CopyWalk
import Grove.Proofs.Edit.Held

/-!
# Positions inside lists

An edit checks a position against the list of children and changes the list only later. In between
stands at most the copy of an owned node. A copy that succeeds changes no old node, so the position is
still there; a copy that fails may have taken old nodes out, but then the edit ends before the change.
-/

namespace Grove
set_option autoImplicit false

/-- From this session the program does not fail for a position that a list does not have. -/
def EditM.Inside {C α : Type} (x : EditM C α) (s : Session C) : Prop :=
  ∀ t, x s ≠ .error .positionOutsideList t

namespace EditM.Inside
variable {C α β : Type} {s : Session C} {x y : EditM C α}

theorem of_ok {a : α} {t : Session C} (h : x s = .ok a t) : Inside x s := by
  intro u hu
  rw [h] at hu
  exact nomatch hu

theorem of_error {e : Error} {t : Session C} (h : x s = .error e t)
    (he : e ≠ .positionOutsideList) : Inside x s := by
  intro u hu
  rw [h] at hu
  exact he (EStateM.Result.error.inj hu).1

theorem congr {t : Session C} (h : x s = y t) (hy : Inside y t) : Inside x s := fun u hu =>
  hy u (h ▸ hu)

theorem pure (a : α) : Inside (pure a) s := of_ok rfl

theorem throw {e : Error} (he : e ≠ .positionOutsideList) : Inside (throw e : EditM C α) s :=
  of_error rfl he

theorem bind {f : α → EditM C β} (hx : Inside x s) (hf : ∀ a t, x s = .ok a t → Inside (f a) t) :
    Inside (x >>= f) s := by
  cases h : x s with
  | ok a t => exact congr (bind_of_ok f h) (hf a t h)
  | error e t =>
    refine of_error (bind_of_error f h) fun he => ?_
    exact hx t (he ▸ h)

theorem discard (hx : Inside x s) : Inside (discard x) s := by
  cases h : x s with
  | ok a t => exact of_ok (discard_of_ok h)
  | error e t =>
    refine of_error (discard_of_error h) fun he => ?_
    exact hx t (he ▸ h)

theorem query {q : Forest C → Except Error α} (hq : Quiet (q s.forest)) :
    Inside (EditM.query q) s := by
  cases h : q s.forest with
  | ok a => exact of_ok (query_of_ok h)
  | error e => exact of_error (query_of_error h) fun he => hq (he ▸ h)

theorem describe [Content C] (h : Handle) : Inside (EditM.describe h) s := of_ok (describe_run h s)

theorem forM {f : α → EditM C PUnit} (hf : ∀ a t, Inside (f a) t) (l : List α) :
    Inside (l.forM f) s := by
  induction l generalizing s with
  | nil => exact pure _
  | cons a l ih => exact bind (hf a s) fun _ _ _ => ih

/-- What comes after a failure is not asked for anything. -/
theorem fail {e : Error} {f : PUnit → EditM C α} (he : e ≠ .positionOutsideList) :
    Inside ((MonadExcept.throw e : EditM C PUnit) >>= f) s :=
  bind (throw he) fun _ _ h => nomatch h

/-- A check that may fail before an edit; the edit may rely on it. -/
theorem checked {p : Prop} [Decidable p] {fault : Forest C → Error}
    (hfault : ∀ F, fault F ≠ .positionOutsideList) (hx : ¬p → Inside x s) :
    Inside (if p then EditM.look fault >>= fun e => (MonadExcept.throw e : EditM C PUnit) >>=
      fun _ => x else x) s := by
  by_cases hp : p
  · rw [if_pos hp]
    refine bind (of_ok (look_run fault s)) fun e t he => fail ?_
    cases he
    exact hfault s.forest
  · rw [if_neg hp]
    exact hx hp

end EditM.Inside

/-- Contents whose copy hook changes no list at a position outside it. -/
class InsideCopy (C : Type) [ShallowCopy C] : Prop where
  inside : ∀ (h : Handle) (s : Session C), EditM.Inside (EditM.copyShallow h) s

namespace EditM
variable {C α : Type} {s t : Session C} {c h p x y : Handle} {i : Nat}

/-! ## Links

None of these checks a position before another edit, so they stay inside the lists of every session,
whatever its links are like. -/

theorem inside_updateNode (h : Handle) (f : Node C → Node C) : Inside (updateNode h f) s :=
  .bind (Inside.query (s.forest.quiet_node h)).discard fun _ _ _ => .of_ok rfl

theorem inside_editChildren {f : List Handle → Option (α × List Handle)}
    (hf : s.forest.contains h = true → f (s.forest.below h) ≠ none) :
    Inside (editChildren h f) s := by
  refine .bind (.query (s.forest.quiet_children h)) fun cs t hcs => ?_
  obtain ⟨hq, rfl⟩ := query_eq_ok.mp hcs
  obtain ⟨hh, rfl⟩ := Forest.children_eq_ok hq
  obtain ⟨⟨a, l⟩, hal⟩ := Option.ne_none_iff_exists'.mp (hf hh)
  rw [hal]
  exact .bind (inside_updateNode h _) fun _ _ _ => .pure _

section
variable [Content C]

theorem inside_removeParent (h : Handle) : Inside (removeParent h) s := by
  refine .bind (.query (s.forest.quiet_parent h)) fun parent? _ _ => ?_
  cases parent? with
  | none => exact .bind (.describe _) fun _ _ _ => .throw nofun
  | some p => exact .bind (inside_updateNode h _) fun _ _ _ => .pure _

theorem inside_setAsParentOf (p x : Handle) : Inside (setAsParentOf p x) s := by
  refine .bind (Inside.query (s.forest.quiet_node p)).discard fun _ t _ => ?_
  refine .bind (.query (t.forest.quiet_parent x)) fun parent? u _ => ?_
  cases parent? with
  | none =>
    exact .bind (.query (u.forest.quiet_ensureAcyclic p x)) fun _ _ _ => inside_updateNode x _
  | some q => exact .bind (.describe _) fun _ _ _ => .bind (.describe _) fun _ _ _ => .fail nofun

/-- Pointing at a parent changes no list. -/
theorem below_of_setAsParentOf (hrun : setAsParentOf p x s = .ok () t) (k : Handle) :
    t.forest.below k = s.forest.below k := by
  rcases setAsParentOf_cases p x s with ⟨-, -, -, -, hok⟩ | ⟨e, herror⟩
  · rw [hok] at hrun
    cases hrun
    exact Forest.below_setParent ..
  · rw [herror] at hrun
    cases hrun

theorem inside_attach (hi : s.forest.contains p = true → i ≤ (s.forest.below p).length) :
    Inside (attach p i x) s := by
  refine .bind (inside_setAsParentOf p x) fun _ t ht => inside_editChildren fun hp => ?_
  rcases setAsParentOf_cases p x s with ⟨hps, -, -, -, -⟩ | ⟨e, herror⟩
  · rw [below_of_setAsParentOf ht, Position.insert?, if_pos (hi hps)]
    exact Option.some_ne_none _
  · rw [herror] at ht
    cases ht

theorem inside_attachLast (p x : Handle) : Inside (attachLast p x) s := by
  refine .bind (.query (s.forest.quiet_numChildren p)) fun i t hi => ?_
  obtain ⟨hq, rfl⟩ := query_eq_ok.mp hi
  exact inside_attach fun _ => Nat.le_of_eq (Forest.numChildren_eq_ok hq).2

theorem inside_removeChild (p : Handle) (i : Nat) : Inside (removeChild p i) s := by
  refine .bind (.query (s.forest.quiet_numChildren p)) fun len t hlen => ?_
  obtain ⟨hq, rfl⟩ := query_eq_ok.mp hlen
  obtain ⟨-, rfl⟩ := Forest.numChildren_eq_ok hq
  dsimp only
  split
  · exact .bind (.describe _) fun _ _ _ => .fail nofun
  · refine .checked (fun _ => nofun) fun hi => .bind (inside_editChildren fun _ => ?_)
      fun c _ _ => .bind (inside_removeParent c).discard fun _ _ _ => .pure _
    rw [Position.erase?, List.getElem?_eq_getElem (Nat.not_le.mp hi)]
    exact Option.some_ne_none _

theorem inside_detach (h : Handle) : Inside (detach h) s := by
  refine .bind (.query (s.forest.quiet_parent h)) fun parent? t _ => ?_
  cases parent? with
  | none => exact .pure _
  | some p =>
    refine .bind (.query (t.forest.quiet_indexOfChild p h)) fun index? _ _ => ?_
    cases index? with
    | some i => exact (inside_removeChild p i).discard
    | none =>
      exact .bind (.describe _) fun _ _ _ => .bind (.describe _) fun _ _ _ =>
        .bind (.of_ok (notify_run _ _)) fun _ _ _ => (inside_removeParent h).discard

theorem inside_dispose (h : Handle) : Inside (dispose h) s := by
  refine .bind (.query (s.forest.quiet_parent h)) fun parent? t _ => ?_
  cases parent? with
  | some p =>
    exact .bind (.describe _) fun _ _ _ => .bind (.describe _) fun _ _ _ => .fail nofun
  | none =>
    have hquiet : Quiet (t.forest.descendantsAndSelf h) :=
      .bind (t.forest.quiet_node h).discard fun _ => .pure _
    exact .bind (.query hquiet) fun _ _ _ => .bind (.of_ok rfl) fun _ _ _ => .pure _

end

theorem quiet_affectedBySwap (F : Forest C) (a b : Handle) : Quiet (F.affectedBySwap a b) :=
  .bind (F.quiet_node a) fun _ => .bind (F.quiet_node b) fun _ => .pure _

theorem inside_swapPositions (a b : Handle) : Inside (swapPositions a b) s := by
  refine .bind (.query (quiet_affectedBySwap s.forest a b)) fun hs t _ => ?_
  refine .bind (.query (.mapM (fun h => ?_) hs)) fun links u _ => .forM (fun _ _ => ?_) links
  · exact .bind (t.forest.quiet_node h) fun _ => .pure _
  · exact inside_updateNode _ _

/-! ## Copies -/

variable [ShallowCopy C]

theorem Inside.onFailure {x : EditM C α} (hx : Inside x s) (c : Handle) :
    Inside (onFailure x (release c)) s := by
  intro t ht
  obtain ⟨u, hu⟩ := onFailure_release_eq_error ht
  exact hx u hu

section
variable [InsideCopy C]

theorem inside_copyBare (h : Handle) : Inside (copyBare h) s := by
  refine .bind (InsideCopy.inside h s) fun c t _ => ?_
  refine .bind (.query (t.forest.quiet_node c)) fun n u _ => ?_
  dsimp only
  split
  · refine .bind (.describe _) fun _ v _ => ?_
    obtain ⟨w, hw⟩ := release_run c v
    exact .bind (.of_ok hw) fun _ _ _ => .fail nofun
  · exact .pure _

theorem inside_copyPending (n : Nat) (pending : List (Handle × Handle)) :
    Inside (copyPending n pending) s := by
  induction n generalizing s pending with
  | zero =>
    cases pending with
    | nil => exact .pure _
    | cons ab pending => exact .throw nofun
  | succ n ih =>
    cases pending with
    | nil => exact .pure _
    | cons ab pending =>
      refine .bind (inside_copyBare _) fun c t _ => .bind ?_ fun _ u _ => ?_
      · exact .onFailure (inside_attachLast _ c) c
      · exact .bind (.query (u.forest.quiet_children _)) fun _ _ _ => ih _

theorem inside_copy (h : Handle) : Inside (copy h) s := by
  refine .bind (inside_copyBare h) fun c t _ => .bind (.onFailure ?_ c) fun _ _ _ => .pure _
  refine .bind (.query (t.forest.quiet_children h)) fun _ _ _ => ?_
  exact .bind (.of_ok (look_run _ _)) fun _ _ _ => inside_copyPending _ _

theorem inside_sanitize (h : Handle) : Inside (sanitize h) s := by
  refine .bind (.query (s.forest.quiet_parent h)) fun parent? _ _ => ?_
  cases parent? with
  | none => exact .pure _
  | some p =>
    refine .bind (.of_ok (look_run _ _)) fun policy _ _ => ?_
    cases policy with
    | copy => exact inside_copy h
    | reject =>
      exact .bind (.describe _) fun _ _ _ => .bind (.describe _) fun _ _ _ => .throw nofun

end

/-! ## Insertions -/

section
variable [BuiltCopy C] [TidyCopy C]

/-- Half links or not, a copy that succeeds changes no old node. -/
theorem copy_extends_of_branching (hF : s.forest.Branching) (hh : s.forest.contains h = true)
    (hrun : copy h s = .ok c t) : s.forest.Extends t.forest := by
  obtain ⟨b, hb, htops, hnd, hmem⟩ := hF.exists_bears_below hh
  have howned := Forest.owned_of_below hnd hmem
  obtain ⟨halong, -⟩ := copy_eq_copyAlong hF hb htops (List.nodup_cons.mp hnd).2 howned hh
  rw [halong] at hrun
  obtain ⟨root, u, hcopy, hrest⟩ := bind_eq_ok.mp hrun
  obtain ⟨_, v, hbelow, hreturn⟩ := bind_eq_ok.mp hrest
  cases hreturn
  rw [onFailure_eq_ok] at hbelow
  obtain ⟨hshallow, hlive, -, hleaf⟩ := copyBare_eq_ok hcopy
  obtain ⟨hext, hor⟩ := TidyCopy.extends_of_ok hF hshallow
  rcases hor with rfl | hnew
  · -- a source that is handed back has no children, so there is nothing more to copy
    rw [hext.below_eq hh, ← htops] at hleaf
    cases b with
    | bare =>
      cases hbelow
      exact hext
    | tree top b r => cases hleaf
  · have hu := (hookLaw_keepsBranching.linkLaw.copyBare h).of_ok hcopy hF
    have hstart : Copying s.forest u c := ⟨hu, hext, hnew, hlive⟩
    exact (hstart.stand howned hbelow).1.old

theorem sanitize_extends_of_branching (hF : s.forest.Branching) (hrun : sanitize x s = .ok y t) :
    s.forest.Extends t.forest := by
  cases hx : s.forest.contains x with
  | false =>
    rw [sanitize_of_not_contains hx] at hrun
    cases hrun
  | true =>
    cases hp : s.forest.above? x with
    | none =>
      rw [sanitize_of_root hx hp] at hrun
      cases hrun
      exact .refl _
    | some p =>
      cases hset : s.forest.settings.sanitize with
      | reject =>
        rw [sanitize_of_reject hp hset] at hrun
        cases hrun
      | copy =>
        rw [sanitize_of_copy hp hset] at hrun
        exact copy_extends_of_branching hF hx hrun

variable [InsideCopy C]

theorem inside_insertChild (hF : s.forest.Branching) (p : Handle) (i : Nat) (x : Handle) :
    Inside (insertChild p i x) s := by
  refine .bind (.query (s.forest.quiet_numChildren p)) fun len t hlen => ?_
  obtain ⟨hq, rfl⟩ := query_eq_ok.mp hlen
  obtain ⟨hp, rfl⟩ := Forest.numChildren_eq_ok hq
  refine .checked (fun _ => nofun) fun hi => .bind (inside_sanitize x) fun y t hy => ?_
  refine .bind (inside_attach fun _ => ?_) fun _ _ _ => .pure _
  rw [(sanitize_extends_of_branching hF hy).below_eq hp]
  exact Nat.not_lt.mp hi

theorem inside_setChild (hF : s.forest.Branching) (p : Handle) (i : Nat) (x : Handle) :
    Inside (setChild p i x) s := by
  refine .bind (.query (s.forest.quiet_numChildren p)) fun len t hlen => ?_
  obtain ⟨hq, rfl⟩ := query_eq_ok.mp hlen
  obtain ⟨hp, rfl⟩ := Forest.numChildren_eq_ok hq
  dsimp only
  split
  · exact .bind (.describe _) fun _ _ _ => .fail nofun
  · refine .checked (fun _ => nofun) fun hi => .bind (inside_sanitize x) fun y t hy => ?_
    refine .bind (inside_setAsParentOf p y) fun _ u hu => .bind (inside_editChildren fun _ => ?_)
      fun c _ _ => .bind (inside_removeParent c).discard fun _ _ _ => .pure _
    rw [below_of_setAsParentOf hu, (sanitize_extends_of_branching hF hy).below_eq hp,
      Position.replace?, List.getElem?_eq_getElem (Nat.not_le.mp hi)]
    exact Option.some_ne_none _

/-! ## All edits -/

omit [InsideCopy C] [BuiltCopy C] [TidyCopy C] [ShallowCopy C] in
theorem obeys_of_inside {x : EditM C α} (hx : Follows KeepsBranching x)
    (hinside : ∀ s : Session C, s.forest.Branching → Inside x s) :
    Obeys (fun s => s.forest.Branching) (· ≠ .positionOutsideList) Anything x := fun s hF =>
  ⟨fun _ _ h => ⟨hx.of_ok h hF, trivial⟩, fun _ t h => ⟨hx.of_error h hF, fun he =>
    hinside s hF t (he ▸ h)⟩⟩

/-- In a branching forest every edit stays inside the lists. -/
theorem makerRegime_inside : MakerRegime (fun s : Session C => s.forest.Branching)
    (· ≠ .positionOutsideList) Anything := by
  have hlaw := editLaw_keepsBranching (C := C)
  have hcopy := fun h => obeys_of_inside (hlaw.copyShallow h) fun s _ => InsideCopy.inside h s
  have hdispose := fun h => obeys_of_inside (hlaw.dispose h) fun s _ => inside_dispose h
  have hlinks : LinkRegime (fun s : Session C => s.forest.Branching)
      (· ≠ .positionOutsideList) Anything :=
    { tolerates := fun _ he => he
      above := fun _ _ _ => trivial
      below := fun _ _ _ => trivial
      notify := fun n => obeys_of_inside (hlaw.notify n) fun s _ => .of_ok (notify_run n s)
      removeChild := fun {p} i _ =>
        obeys_of_inside (hlaw.removeChild p i) fun s _ => inside_removeChild p i
      detach := fun {h} _ => obeys_of_inside (hlaw.detach h) fun s _ => inside_detach h
      insertChild := fun {p x} i _ _ =>
        obeys_of_inside (hlaw.insertChild p i x) fun s hF => inside_insertChild hF p i x
      setChild := fun {p x} i _ _ =>
        obeys_of_inside (hlaw.setChild p i x) fun s hF => inside_setChild hF p i x }
  exact
    { hlinks with
      sanitize := fun {h} _ => obeys_of_inside (hlaw.sanitize h) fun s _ => inside_sanitize h
      swapPositions := fun {a b} _ _ =>
        obeys_of_inside (hlaw.swapPositions a b) fun s _ => inside_swapPositions a b
      swapSubtrees := fun {a b} _ ha hb =>
        hlinks.swapSubtrees ha hb (hcopy a) fun {h} _ => hdispose h
      create := fun content =>
        obeys_of_inside (hlaw.create content) fun s _ => .of_ok (create_run content s)
      copyShallow := hcopy
      copy := fun h => obeys_of_inside (hlaw.copy h) fun s _ => inside_copy h }

end
end EditM
end Grove
