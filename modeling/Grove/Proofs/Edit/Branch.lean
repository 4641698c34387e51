import Grove.Proofs.Edit.Swap
import Grove.Proofs.Forest.Branching

/-!
# Edits of branching forests

Every edit keeps a branching forest branching, half links or not. Pointing at a parent touches no
list; an edit that writes a list has asked the way up first, or puts in a node without children; and
where an edit stops between the two ends of a link, the end that is written is a half link again.
-/

namespace Grove
set_option autoImplicit false

namespace Forest
variable {C : Type} {F G : Forest C} {a b c h k p x : Handle} {i : Nat}

theorem above?_setParent_of_ne {q : Option Handle} (hk : k ≠ h) :
    (F.setParent h q).above? k = F.above? k := by
  simp only [above?, setParent, get?_update, if_neg hk]

namespace Branching

theorem plant (hF : F.Branching) (content : C) : (F.plant content).2.Branching :=
  hF.congr (above?_plant F content) (below_plant F content)

/-- Only the parent that a node points at may list it. -/
theorem not_mem_below (hF : F.Branching) (hp : F.above? x = some p) (hx : x ∉ F.below p)
    (k : Handle) : x ∉ F.below k := by
  intro hk
  obtain rfl : p = k := Option.some.inj (hp.symm.trans (hF.points hk))
  exact hx hk

theorem setParent (hF : F.Branching) (hfree : ∀ p, x ∉ F.below p) (q : Option Handle) :
    (F.setParent x q).Branching := by
  apply hF.of_sublist
  · intro k
    rw [below_setParent]
  · intro c p hc
    rw [below_setParent] at hc
    apply above?_setParent_of_ne
    rintro rfl
    exact hfree p hc

theorem not_covers_of_passed [Content C] (hpass : F.ensureAcyclic p x = .ok ()) :
    ¬ F.settled.Covers x p := by
  intro hc
  obtain ⟨hne, hup⟩ := not_covers_of_ensureAcyclic hpass
  have habove := (covers_iff_eq_or_above.mp hc).resolve_left hne
  obtain ⟨d, hd, -⟩ := Relation.TransGen.head'_iff.mp habove
  exact hup (List.ne_nil_of_mem (lists_of_settled hd)) (covers_of_settled hc)

theorem link (hF : F.Branching) (hp : F.contains p = true) (hx : F.contains x = true)
    (hroot : F.above? x = none) (hnot : ¬ F.settled.Covers x p) (hi : i ≤ (F.below p).length) :
    (F.link p i x).Branching := by
  have hp' : F.settled.contains p = true := by rwa [contains_settled]
  have hx' : F.settled.contains x = true := by rwa [contains_settled]
  have hroot' : F.settled.above? x = none := by
    rw [above?_settled, confirmed?, hroot]
    rfl
  have hi' : i ≤ (F.settled.below p).length := by rwa [below_settled]
  apply of_wellFormed (hF.wellFormed_settled.link hp' hx' hroot' hnot hi')
  · intro k
    rw [below_link hp, below_link hp', below_settled, below_settled]
  · intro d q hd
    rw [above?_link hx'] at hd
    rw [above?_link hx]
    by_cases hdx : d = x
    · rwa [if_pos hdx] at hd ⊢
    · rw [if_neg hdx] at hd ⊢
      exact over_of_settled hd

theorem unlink (hF : F.Branching) (hi : (F.below p)[i]? = some c) : (F.unlink p i c).Branching := by
  have hmem := List.mem_of_getElem? hi
  have hp := contains_of_mem_below hmem
  have hc := hF.contains hmem
  apply of_wellFormed (hF.wellFormed_settled.unlink (p := p) (i := i) (c := c) (by
    rwa [below_settled]))
  · intro k
    rw [below_unlink hp, below_unlink (by rwa [contains_settled]), below_settled, below_settled]
  · intro d q hd
    rw [above?_unlink (by rwa [contains_settled])] at hd
    rw [above?_unlink hc]
    by_cases hdc : d = c
    · rwa [if_pos hdc] at hd ⊢
    · rw [if_neg hdc] at hd ⊢
      exact over_of_settled hd

theorem substitute (hF : F.Branching) (hi : (F.below p)[i]? = some c)
    (hx : F.contains x = true) (hroot : F.above? x = none) (hnot : ¬ F.settled.Covers x p) :
    (F.substitute p i x c).Branching := by
  have hmem := List.mem_of_getElem? hi
  have hp := contains_of_mem_below hmem
  have hc := hF.contains hmem
  have hc' : F.settled.contains c = true := by rwa [contains_settled]
  have hx' : F.settled.contains x = true := by rwa [contains_settled]
  have hroot' : F.settled.above? x = none := by
    rw [above?_settled, confirmed?, hroot]
    rfl
  apply of_wellFormed (hF.wellFormed_settled.substitute (p := p) (i := i) (c := c)
    (by rwa [below_settled]) hx' hroot' hnot)
  · intro k
    rw [below_substitute hp, below_substitute (by rwa [contains_settled]), below_settled,
      below_settled]
  · intro d q hd
    rw [above?_substitute hx' hc'] at hd
    rw [above?_substitute hx hc]
    by_cases hdc : d = c
    · rwa [if_pos hdc] at hd ⊢
    · rw [if_neg hdc] at hd ⊢
      by_cases hdx : d = x
      · rwa [if_pos hdx] at hd ⊢
      · rw [if_neg hdx] at hd ⊢
        exact over_of_settled hd

theorem uproot (hF : F.Branching) {ds : List Handle} (hroot : F.above? x = none)
    (hds : ∀ k, k ∈ ds ↔ F.settled.Covers x k) : (F.uproot ds).Branching := by
  have hroot' : F.settled.above? x = none := by
    rw [above?_settled, confirmed?, hroot]
    rfl
  apply of_wellFormed (hF.wellFormed_settled.uproot hroot' hds)
  · intro k
    rw [below_uproot, below_uproot, below_settled]
  · intro d q hd
    rw [above?_uproot] at hd ⊢
    by_cases hds : d ∈ ds
    · rwa [if_pos hds] at hd ⊢
    · rw [if_neg hds] at hd ⊢
      exact over_of_settled hd

/-- Renaming two nodes in all lists that name them, and in the parent links of all that they list,
renames all lists. -/
theorem writeExchanged (hF : F.Branching) {hs : List Handle}
    (hmem : ∀ h, h ∈ hs ↔ (h = a ∨ h = b) ∨ (F.above? a = some h ∨ h ∈ F.below a) ∨
      F.above? b = some h ∨ h ∈ F.below b)
    (hlive : ∀ h ∈ hs, F.contains (Handle.exchange a b h) = true) :
    (hs.foldl (F.writeRenamed (Handle.exchange a b)) F).Branching := by
  have hr := Handle.exchange_exchange a b
  have hlive' : ∀ h ∈ hs, F.settled.contains (Handle.exchange a b h) = true := by
    intro h hh
    rw [contains_settled]
    exact hlive h hh
  have hE := hF.wellFormed_settled
  have hrenamed := renamed_foldl_writeRenamed (F := F.settled) hr hlive' fun h hh => by
    simp only [hmem, not_or] at hh
    obtain ⟨⟨hna, hnb⟩, ⟨hpa, hca⟩, hpb, hcb⟩ := hh
    refine ⟨Handle.exchange_of_ne hna hnb, EditM.map_exchange_links hE hna hnb ⟨?_, ?_⟩ ⟨?_, ?_⟩⟩
    · exact fun he => hpa (over_of_settled he)
    · rwa [below_settled]
    · exact fun he => hpb (over_of_settled he)
    · rwa [below_settled]
  apply of_wellFormed (hE.rename hr hrenamed.above?_eq hrenamed.below_eq)
  · intro k
    rw [below_foldl_writeRenamed hr hlive, below_foldl_writeRenamed hr hlive', below_settled,
      below_settled]
  · intro c p hc
    rw [above?_foldl_writeRenamed hr hlive'] at hc
    rw [above?_foldl_writeRenamed hr hlive]
    by_cases hwrite : Handle.exchange a b c ∈ hs
    · rw [if_pos hwrite] at hc ⊢
      obtain ⟨q, hq, hqp⟩ := Option.map_eq_some_iff.mp hc
      rw [over_of_settled hq, Option.map_some, hqp]
    · rw [if_neg hwrite] at hc ⊢
      exact over_of_settled hc

end Branching
end Forest

/-- The law that a branching forest stays branching. -/
def KeepsBranching {C : Type} (s t : Session C) : Prop :=
  s.forest.Branching → t.forest.Branching

/-- A law that the edits of links follow, from which a copy hook may be put together. -/
structure HookLaw {C : Type} [Content C] (R : Session C → Session C → Prop) : Prop
    extends IsPreorder (Session C) R where
  notify : ∀ n, Follows R (EditM.notify n)
  create : ∀ content, Follows R (EditM.create content)
  setContent : ∀ h f, Follows R (EditM.setContent h f)
  setAsParentOf : ∀ p x, Follows R (EditM.setAsParentOf p x)
  attach : ∀ p i x, Follows R (EditM.attach p i x)
  removeChild : ∀ p i, Follows R (EditM.removeChild p i)
  detach : ∀ h, Follows R (EditM.detach h)
  dispose : ∀ h, Follows R (EditM.dispose h)

/-- Contents whose copy hook is put together from the edits of links: it follows every law that they
follow. -/
class BuiltCopy (C : Type) [ShallowCopy C] : Prop where
  follows : ∀ {R : Session C → Session C → Prop}, HookLaw R →
    ∀ h, Follows R (EditM.copyShallow h)

namespace HookLaw
variable {C : Type} {R : Session C → Session C → Prop}

theorem attachLast [Content C] (hR : HookLaw R) (p x : Handle) :
    Follows R (EditM.attachLast p x) := by
  have := hR.toIsPreorder
  exact .bind (.query _) fun i => hR.attach p i x

theorem linkLaw [ShallowCopy C] [BuiltCopy C] (hR : HookLaw R) : LinkLaw R where
  toIsPreorder := hR.toIsPreorder
  notify := hR.notify
  create := hR.create
  setContent := hR.setContent
  attachLast := hR.attachLast
  removeChild := hR.removeChild
  detach := hR.detach
  dispose := hR.dispose
  copyShallow := BuiltCopy.follows hR

end HookLaw

namespace LinkLaw
variable {C : Type} [ShallowCopy C] {R : Session C → Session C → Prop} (hR : LinkLaw R)
include hR

theorem insertChild (hattach : ∀ p i x, Follows R (EditM.attach (C := C) p i x)) (p : Handle)
    (i : Nat) (x : Handle) : Follows R (EditM.insertChild (C := C) p i x) := by
  have := hR.toIsPreorder
  exact .bind (.query _) fun _ => .checked _ <|
    .bind (hR.sanitize x) fun y => .bind (hattach p i y) fun _ => .pure _

theorem setChild (hset : ∀ p i y, Follows R (do
      EditM.setAsParentOf (C := C) p y
      let previous ← EditM.editChildren p fun cs => Position.replace? cs i y
      discard (EditM.removeParent previous)
      return previous)) (p : Handle) (i : Nat) (x : Handle) :
    Follows R (EditM.setChild (C := C) p i x) := by
  have := hR.toIsPreorder
  have hrun : Follows R (do
      let y ← EditM.sanitize (C := C) x
      EditM.setAsParentOf p y
      let previous ← EditM.editChildren p fun cs => Position.replace? cs i y
      discard (EditM.removeParent previous)
      return previous) := .bind (hR.sanitize x) fun y => hset p i y
  refine .bind (.query _) fun len => ?_
  dsimp only
  split
  · exact .bind (.describe _) fun _ => .bind (.throw _) fun _ => .checked _ hrun
  · exact .checked _ hrun

end LinkLaw

namespace EditM
variable {C : Type} {s : Session C} {a b c h p x : Handle} {i : Nat}

instance isPreorder_keepsBranching : IsPreorder (Session C) KeepsBranching where
  refl _ hF := hF
  trans _ _ _ hst htu hF := htu (hst hF)

theorem setContent_keepsBranching (h : Handle) (f : C → C) :
    Follows KeepsBranching (setContent h f) := fun s hF =>
  hF.congr (fun k => (links_setContent h f s k).1) fun k => (links_setContent h f s k).2

section
variable [Content C]

theorem setAsParentOf_keepsBranching (p x : Handle) :
    Follows KeepsBranching (setAsParentOf (C := C) p x) := by
  intro s hF
  rcases setAsParentOf_cases p x s with ⟨-, -, hroot, -, hrun⟩ | ⟨e, hrun⟩
  · rw [final_of_ok hrun]
    exact hF.setParent (hF.not_listed_of_root hroot) _
  · rwa [final_of_error hrun]

/-- At a position that the list does not have, only the end of the link at the child is written. -/
theorem attach_of_lt (hi : (s.forest.below p).length < i) (hp : s.forest.contains p = true)
    (hx : s.forest.contains x = true) (hroot : s.forest.above? x = none)
    (hpass : s.forest.ensureAcyclic p x = .ok ()) :
    attach p i x s = .error .positionOutsideList
      (s.withForest (s.forest.setParent x (some p))) := by
  have hkids := query_children (h := p) (s := s.withForest (s.forest.setParent x (some p)))
    (by simpa using hp)
  simp only [attach, bind_of_ok _ (setAsParentOf_of_passed hp hx hroot hpass), editChildren,
    bind_of_ok _ hkids, Session.forest_withForest, Forest.below_setParent, Position.insert?,
    if_neg (Nat.not_le.mpr hi)]
  rfl

theorem attach_keepsBranching (p : Handle) (i : Nat) (x : Handle) :
    Follows KeepsBranching (attach (C := C) p i x) := by
  intro s hF
  rcases setAsParentOf_cases p x s with ⟨hp, hx, hroot, hpass, -⟩ | ⟨e, hrun⟩
  · by_cases hi : i ≤ (s.forest.below p).length
    · rw [final_of_ok (attach_of_passed hp hx hroot hpass hi)]
      exact hF.link hp hx hroot (Forest.Branching.not_covers_of_passed hpass) hi
    · rw [final_of_error (attach_of_lt (Nat.not_le.mp hi) hp hx hroot hpass)]
      exact hF.setParent (hF.not_listed_of_root hroot) _
  · have hattach : attach p i x s = .error e s := by simp only [attach, bind_of_error _ hrun]
    rwa [final_of_error hattach]

theorem removeChild_keepsBranching (p : Handle) (i : Nat) :
    Follows KeepsBranching (removeChild (C := C) p i) := by
  intro s hF
  cases hi : (s.forest.below p)[i]? with
  | none =>
    obtain ⟨e, hrun⟩ := removeChild_of_getElem?_eq_none hi
    rwa [final_of_error hrun]
  | some c =>
    have hpoints := hF.points (List.mem_of_getElem? hi)
    rw [final_of_ok (removeChild_of_points hi hpoints)]
    exact hF.unlink hi

theorem detach_of_above?_eq_none (hh : s.forest.contains h = true)
    (hroot : s.forest.above? h = none) : detach h s = .ok () s := by
  have hq := query_parent hh
  rw [hroot] at hq
  simp only [detach, bind_of_ok _ hq]
  rfl

/-- A parent that is gone cannot be asked for its children. -/
theorem detach_of_dead (hp : s.forest.above? h = some p) (hdead : s.forest.contains p = false) :
    detach h s = .error (.invalidHandle p) s := by
  have hq := query_parent (Forest.contains_of_above? hp)
  rw [hp] at hq
  have hindex : query (fun F => F.indexOfChild p h) s = .error (.invalidHandle p) s := by
    apply query_of_error
    rw [Forest.indexOfChild, Forest.children, Forest.node_of_not_contains hdead]
    rfl
  simp only [detach, bind_of_ok _ hq, bind_of_error _ hindex]

/-- A half link is cleared, with a notice; of a whole link both ends are. -/
theorem detach_cases (hp : s.forest.above? h = some p) (hpin : s.forest.contains p = true) :
    (∃ i, (s.forest.below p)[i]? = some h ∧ detach h s = discard (removeChild p i) s) ∨
      (h ∉ s.forest.below p ∧ detach h s = .ok ()
        { forest := s.forest.setParent h none
          notices := s.notices ++
            [.parentCleared (s.forest.describe h) (s.forest.describe p)] }) := by
  have hq := query_parent (Forest.contains_of_above? hp)
  rw [hp] at hq
  have hindex : query (fun F => F.indexOfChild p h) s =
      .ok ((s.forest.below p).findIdx? (· == h)) s := by
    apply query_of_ok
    simp only [Forest.indexOfChild, Forest.children_of_contains hpin]
    rfl
  cases hi : (s.forest.below p).findIdx? (· == h) with
  | some i =>
    obtain ⟨hlt, heq, -⟩ := List.findIdx?_eq_some_iff_getElem.mp hi
    rw [hi] at hindex
    refine Or.inl ⟨i, ?_, ?_⟩
    · rw [List.getElem?_eq_getElem hlt, beq_iff_eq.mp heq]
    · simp only [detach, bind_of_ok _ hq, bind_of_ok _ hindex]
  | none =>
    have hnot : h ∉ s.forest.below p := by
      intro hm
      rw [List.findIdx?_eq_none_iff] at hi
      simpa using hi h hm
    rw [hi] at hindex
    have hnotify := notify_run (.parentCleared (s.forest.describe h) (s.forest.describe p)) s
    refine Or.inr ⟨hnot, ?_⟩
    simp only [detach, bind_of_ok _ hq, bind_of_ok _ hindex, bind_of_ok _ (describe_run _ _),
      bind_of_ok _ hnotify]
    exact discard_of_ok (removeParent_of_above? hp)

theorem detach_keepsBranching (h : Handle) : Follows KeepsBranching (detach (C := C) h) := by
  intro s hF
  cases hh : s.forest.contains h with
  | false => rwa [final_of_error (detach_of_not_contains hh)]
  | true =>
    cases hp : s.forest.above? h with
    | none => rwa [final_of_ok (detach_of_above?_eq_none hh hp)]
    | some p =>
      cases hpin : s.forest.contains p with
      | false => rwa [final_of_error (detach_of_dead hp hpin)]
      | true =>
        rcases detach_cases hp hpin with ⟨i, -, hrun⟩ | ⟨hnot, hrun⟩
        · rw [final_congr hrun]
          exact (removeChild_keepsBranching p i).discard s hF
        · rw [final_of_ok hrun]
          exact hF.setParent (hF.not_mem_below hp hnot) none

theorem dispose_of_branching (hF : s.forest.Branching) (hh : s.forest.contains h = true)
    (hroot : s.forest.above? h = none) :
    ∃ ds, s.forest.descendantsAndSelf h = .ok ds ∧ (∀ k, k ∈ ds ↔ s.forest.settled.Covers h k) ∧
      dispose h s = .ok ds.length (s.withForest (s.forest.uproot ds)) := by
  obtain ⟨b, hb, htops, hnd, hmem⟩ := hF.exists_bears_below hh
  have hst : s.forest.Bears (.tree h b .bare) := ⟨hh, htops.symm, hb, trivial⟩
  have hhandles : (Stand.tree h b .bare).handles = h :: b.handles := by simp [Stand.handles]
  have hds := hst.descendantsAndSelf_eq rfl (hhandles ▸ hnd)
  rw [hhandles] at hds
  exact ⟨_, hds, hmem, dispose_of_walk hroot hds⟩

theorem dispose_keepsBranching (h : Handle) : Follows KeepsBranching (dispose (C := C) h) := by
  intro s hF
  cases hh : s.forest.contains h with
  | false => rwa [final_of_error (dispose_of_not_contains hh)]
  | true =>
    cases hp : s.forest.above? h with
    | some p => rwa [final_of_error (dispose_of_owned hp)]
    | none =>
      obtain ⟨ds, -, hds, hrun⟩ := dispose_of_branching hF hh hp
      rw [final_of_ok hrun]
      exact hF.uproot hp hds

theorem hookLaw_keepsBranching : HookLaw (C := C) KeepsBranching where
  notify _ _ hF := hF
  create content _ hF := hF.plant content
  setContent := setContent_keepsBranching
  setAsParentOf := setAsParentOf_keepsBranching
  attach := attach_keepsBranching
  removeChild := removeChild_keepsBranching
  detach := detach_keepsBranching
  dispose := dispose_keepsBranching

end

/-! ## Insertions and exchanges -/

theorem substitute_keepsBranching [ShallowCopy C] (p : Handle) (i : Nat) (y : Handle) :
    Follows KeepsBranching (do
      setAsParentOf (C := C) p y
      let previous ← editChildren p fun cs => Position.replace? cs i y
      discard (removeParent previous)
      return previous) := by
  intro s hF
  rcases setAsParentOf_cases p y s with ⟨hp, hy, hroot, hpass, hpoint⟩ | ⟨e, hpoint⟩
  · cases hi : (s.forest.below p)[i]? with
    | some c =>
      have hc := hF.points (List.mem_of_getElem? hi)
      rw [final_of_ok (substitute_of_passed hi hc hy hroot hpass)]
      exact hF.substitute hi hy hroot (Forest.Branching.not_covers_of_passed hpass)
    | none =>
      have hkids := query_children (h := p) (s := s.withForest (s.forest.setParent y (some p)))
        (by simpa using hp)
      have hedit : editChildren p (fun cs => Position.replace? cs i y)
          (s.withForest (s.forest.setParent y (some p))) =
            .error .positionOutsideList (s.withForest (s.forest.setParent y (some p))) := by
        simp only [editChildren, bind_of_ok _ hkids, Session.forest_withForest,
          Forest.below_setParent, Position.replace?, hi]
        rfl
      rw [final_of_error ((bind_of_ok _ hpoint).trans (bind_of_error _ hedit))]
      exact hF.setParent (hF.not_listed_of_root hroot) _
  · rwa [final_of_error (bind_of_error _ hpoint)]

theorem mapM_error {α β ε : Type} {f : α → Except ε β} {l : List α}
    (hf : ∃ a ∈ l, ∃ e, f a = .error e) : ∃ e, l.mapM f = .error e := by
  induction l with
  | nil => exact absurd hf (by simp)
  | cons a l ih =>
    rw [List.mapM_cons]
    cases ha : f a with
    | error e => exact ⟨e, rfl⟩
    | ok b =>
      obtain ⟨e, he⟩ := ih (by
        obtain ⟨c, hc, e, he⟩ := hf
        rcases List.mem_cons.mp hc with rfl | hc
        · rw [ha] at he
          exact nomatch he
        · exact ⟨c, hc, e, he⟩)
      exact ⟨e, by rw [he]; rfl⟩

/-- The exchange reads the links of all affected nodes before it writes one; of a parent that is no
longer there it can read none. -/
theorem swapPositions_of_dead [ShallowCopy C] {hs : List Handle}
    (haffected : s.forest.affectedBySwap a b = .ok hs)
    (hdead : ∃ h ∈ hs, s.forest.contains h = false) : ∃ e, swapPositions a b s = .error e s := by
  obtain ⟨h, hh, hdead⟩ := hdead
  obtain ⟨e, he⟩ := mapM_error (f := s.forest.renamedLinks (Handle.exchange a b)) (l := hs)
    ⟨h, hh, .invalidHandle h, by
      simp only [Forest.renamedLinks, Forest.node_of_not_contains hdead]
      rfl⟩
  have hlinks := query_of_error (s := s)
    (q := fun F => hs.mapM (F.renamedLinks (Handle.exchange a b))) he
  have hquery : query (fun F => F.affectedBySwap a b) s = .ok hs s := query_of_ok haffected
  exact ⟨e, by simp only [swapPositions, bind_of_ok _ hquery, bind_of_error _ hlinks]⟩

theorem swapPositions_keepsBranching [ShallowCopy C] (a b : Handle) :
    Follows KeepsBranching (swapPositions (C := C) a b) := by
  intro s hF
  by_cases hab : s.forest.contains a = true ∧ s.forest.contains b = true
  · obtain ⟨hs, haffected, hmem⟩ := affectedBySwap_of_contains hab.1 hab.2
    by_cases hlive : ∀ h ∈ hs, s.forest.contains h = true
    · obtain ⟨hrenamed, hrun⟩ := swapPositions_of_affected haffected
        ((hmem a).mpr (Or.inl (Or.inl rfl))) ((hmem b).mpr (Or.inl (Or.inr rfl))) hlive
      rw [final_of_ok hrun]
      exact hF.writeExchanged hmem hrenamed
    · obtain ⟨e, hrun⟩ := swapPositions_of_dead haffected (by simpa using hlive)
      rwa [final_of_error hrun]
  · obtain ⟨e, hrun⟩ := swapPositions_of_not_contains (s := s) (a := a) (b := b)
      (by simpa [imp_iff_not_or] using hab)
    rwa [final_of_error hrun]

variable [ShallowCopy C] [BuiltCopy C]

theorem editLaw_keepsBranching : EditLaw (C := C) KeepsBranching where
  toLinkLaw := hookLaw_keepsBranching.linkLaw
  insertChild := hookLaw_keepsBranching.linkLaw.insertChild attach_keepsBranching
  setChild := hookLaw_keepsBranching.linkLaw.setChild substitute_keepsBranching
  swapPositions := swapPositions_keepsBranching

end EditM
end Grove
