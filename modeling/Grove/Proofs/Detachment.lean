import Grove.Proofs.Edit.Remove
import Grove.Proofs.HalfLinks

/-!
# Detachment

After a history of edits and half links a node may point at a parent that does not list it. A
detachment clears both ends of a whole link and the one end of a half link, so in either case the node
becomes a root, and only a parent that listed it changes too.

A parent that does not list a node may be disposed of without it. The node goes on pointing at a handle
that names no node any longer, and its detachment fails, since that parent cannot be asked for its
children. Nor can the node be disposed of, since it still has a parent.
-/

namespace Grove
set_option autoImplicit false

namespace Forest
variable {C : Type} {F G : Forest C} {c k p x : Handle} {i : Nat} {before after : List Handle}

theorem filter_not_mem_of_unlisted (hfree : x ∉ F.below k) :
    ((F.below k).filter fun c => c ∉ [x]) = F.below k := by
  refine List.filter_eq_self.mpr fun c hc => decide_eq_true fun hm => ?_
  exact hfree (List.mem_singleton.mp hm ▸ hc)

theorem shed_of_root (hroot : F.above? x = none) (hfree : ∀ p, x ∉ F.below p) :
    F.Shed F [x] where
  above?_eq k := by
    by_cases hk : k = x
    · simp [hk, hroot]
    · simp [hk]
  below_eq k := (filter_not_mem_of_unlisted (hfree k)).symm
  contentOf?_eq _ := rfl
  settings := rfl

theorem shed_setParent (hx : F.contains x = true) (hfree : ∀ p, x ∉ F.below p) :
    F.Shed (F.setParent x none) [x] where
  above?_eq k := by
    rw [above?_setParent hx]
    simp
  below_eq k := by rw [below_setParent, filter_not_mem_of_unlisted (hfree k)]
  contentOf?_eq := contentOf?_setParent F x none
  settings := rfl

namespace Branching

theorem shed_unlink (hF : F.Branching) (hi : (F.below p)[i]? = some c) :
    F.Shed (F.unlink p i c) [c] where
  above?_eq k := by
    rw [above?_unlink (hF.contains (List.mem_of_getElem? hi))]
    simp
  below_eq k := by
    have hmem := List.mem_of_getElem? hi
    rw [← erase_eq_filter_not_mem (hF.nodup k), below_unlink (contains_of_mem_below hmem)]
    by_cases hk : k = p
    · rw [if_pos hk, hk, eraseIdx_eq_erase (hF.nodup p) hi]
    · -- `c` points at `p`, so no other list names it
      have hnot : c ∉ F.below k := fun hc =>
        hk (Option.some.inj ((hF.points hc).symm.trans (hF.points hmem)))
      rw [if_neg hk, List.erase_of_not_mem hnot]
  contentOf?_eq k := by simp
  settings := by simp

theorem not_mem_below_self (hF : F.Branching) (h : Handle) : h ∉ F.below h := fun hh =>
  hF.acyclic h (.single hh)

end Branching

theorem filter_not_mem_of_split (hnd : (before ++ x :: after).Nodup) :
    ((before ++ x :: after).filter fun c => c ∉ [x]) = before ++ after := by
  rw [← erase_eq_filter_not_mem hnd, List.erase_append_right _ ?_, List.erase_cons_head]
  intro hx
  exact (List.nodup_append.mp hnd).2.2 x hx x List.mem_cons_self rfl

end Forest

namespace Session
variable {C : Type} {s t : Session C} {p x : Handle}

structure Detached [Content C] (s t : Session C) (x : Handle) : Prop where
  /-- the node is a root, with its content and its children -/
  root : t.forest.get? x = (s.forest.get? x).map fun n => { n with parent := none }
  unlisted : ∀ p, x ∉ t.forest.below p
  /-- the former parent has lost that one entry -/
  released : ∀ p n before after, s.forest.get? p = some n → n.children = before ++ x :: after →
    t.forest.get? p = some { n with children := before ++ after }
  others : ∀ k, k ≠ x → x ∉ s.forest.below k → t.forest.get? k = s.forest.get? k
  settings : t.forest.settings = s.forest.settings
  /-- only a parent link that the parent does not confirm is noticed -/
  noticed : ∀ p, s.forest.above? x = some p → x ∉ s.forest.below p →
    t.notices = s.notices ++ [.parentCleared (s.forest.describe x) (s.forest.describe p)]
  unnoticed : (∀ p, s.forest.above? x = some p → x ∈ s.forest.below p) → t.notices = s.notices

theorem detached_of_shed [Content C] (hF : s.forest.Branching)
    (hG : s.forest.Shed t.forest [x])
    (hnoticed : ∀ p, s.forest.above? x = some p → x ∉ s.forest.below p →
      t.notices = s.notices ++ [.parentCleared (s.forest.describe x) (s.forest.describe p)])
    (hunnoticed : (∀ p, s.forest.above? x = some p → x ∈ s.forest.below p) →
      t.notices = s.notices) : s.Detached t x where
  root := by
    cases hn : s.forest.get? x with
    | none =>
      have hdead := Forest.not_contains_iff.mpr hn
      exact Forest.not_contains_iff.mp ((hG.contains_eq x).trans hdead)
    | some n =>
      refine Forest.get?_eq_some_iff.mpr ⟨?_, ?_, ?_⟩
      · rw [hG.contentOf?_eq, Forest.contentOf?_of_get? hn]
      · rw [hG.above?_eq, if_pos (List.mem_singleton_self x)]
      · rw [hG.below_eq, Forest.filter_not_mem_of_unlisted (hF.not_mem_below_self x),
          Forest.below_of_get? hn]
  unlisted p := by
    rw [hG.below_eq, List.mem_filter]
    simp
  released p n before after hn hsplit := by
    have hbelow := Forest.below_of_get? hn
    rw [hsplit] at hbelow
    have hnd := hF.nodup p
    have hpx : p ≠ x := by
      rintro rfl
      exact hF.not_mem_below_self p (by rw [hbelow]; simp)
    rw [hbelow] at hnd
    refine Forest.get?_eq_some_iff.mpr ⟨?_, ?_, ?_⟩
    · rw [hG.contentOf?_eq, Forest.contentOf?_of_get? hn]
    · rw [hG.above?_eq, if_neg (by simpa using hpx), Forest.above?_of_get? hn]
    · rw [hG.below_eq, hbelow, Forest.filter_not_mem_of_split hnd]
  others k hk hfree := by
    refine Forest.get?_eq_get?_iff.mpr ⟨hG.contentOf?_eq k, ?_, ?_⟩
    · rw [hG.above?_eq, if_neg (by simpa using hk)]
    · rw [hG.below_eq, Forest.filter_not_mem_of_unlisted hfree]
  settings := hG.settings
  noticed := hnoticed
  unnoticed := hunnoticed

structure Detaches [Content C] (s : Session C) (x : Handle) : Prop where
  /-- a root, or a node whose parent is there: a second detachment then changes nothing -/
  detach : (∀ p, s.forest.above? x = some p → s.forest.contains p = true) →
    ∃ t, EditM.detach x s = .ok () t ∧ s.Detached t x ∧ EditM.detach x t = .ok () t
  /-- a node whose parent is gone can neither be detached nor disposed of -/
  stuck : ∀ p, s.forest.above? x = some p → s.forest.contains p = false →
    EditM.detach x s = .error (.invalidHandle p) s ∧
      EditM.dispose x s = .error (.alreadyOwned (s.forest.describe x) (s.forest.describe p)) s

theorem Detached.again [Content C] (ht : s.Detached t x) (hx : s.forest.contains x = true) :
    EditM.detach x t = .ok () t := by
  obtain ⟨n, hn⟩ := Forest.contains_iff.mp hx
  have hroot := ht.root
  rw [hn] at hroot
  refine EditM.detach_of_above?_eq_none (Forest.contains_iff.mpr ⟨_, hroot⟩) ?_
  rw [Forest.above?_of_get? hroot]

theorem exists_detached [Content C] (hF : s.forest.Branching) (hx : s.forest.contains x = true)
    (hup : ∀ p, s.forest.above? x = some p → s.forest.contains p = true) :
    ∃ t, EditM.detach x s = .ok () t ∧ s.Detached t x := by
  cases hp : s.forest.above? x with
  | none =>
    have hG := Forest.shed_of_root hp (hF.not_listed_of_root hp)
    refine ⟨s, EditM.detach_of_above?_eq_none hx hp, detached_of_shed hF hG ?_ fun _ => rfl⟩
    intro p hq
    exact nomatch hp.symm.trans hq
  | some p =>
    rcases EditM.detach_cases hp (hup p hp) with ⟨i, hi, hrun⟩ | ⟨hnot, hrun⟩
    · have hlisted := List.mem_of_getElem? hi
      have hremove := discard_of_ok (EditM.removeChild_of_points hi (hF.points hlisted))
      refine ⟨_, hrun.trans hremove, detached_of_shed hF (hF.shed_unlink hi) ?_ fun _ => rfl⟩
      intro q hq hfree
      obtain rfl : p = q := Option.some.inj (hp.symm.trans hq)
      exact absurd hlisted hfree
    · have hG := Forest.shed_setParent hx (hF.not_mem_below hp hnot)
      refine ⟨_, hrun, detached_of_shed hF hG ?_ ?_⟩
      · intro q hq _
        obtain rfl : p = q := Option.some.inj (hp.symm.trans hq)
        rfl
      · intro hall
        exact absurd (hall p hp) hnot

theorem detaches [Content C] (hF : s.forest.Branching) (hx : s.forest.contains x = true) :
    s.Detaches x where
  detach hup := by
    obtain ⟨t, hrun, ht⟩ := exists_detached hF hx hup
    exact ⟨t, hrun, ht, ht.again hx⟩
  stuck _ hp hdead := ⟨EditM.detach_of_dead hp hdead, EditM.dispose_of_owned hp⟩

end Session

/-- After whatever history of edits and half links, a node is detached unless its parent is gone: it
becomes a root that nobody lists, a parent that listed it loses that entry, and no other node changes. -/
theorem detaches_after_history (C : Type) [ShallowCopy C] [BuiltCopy C] (settings : Settings)
    (steps : List (Step C)) (x : Handle)
    (hx : ((Session.fresh C settings).afterSteps steps).forest.contains x = true) :
    ((Session.fresh C settings).afterSteps steps).Detaches x :=
  Session.detaches (Session.branching_afterSteps (Forest.wellFormed_empty settings).branching steps) hx

def Session.hanger : Session Label := (Session.fresh Label {}).afterSteps
  [.edit (.create ⟨.block, "a"⟩), .edit (.create ⟨.leaf, "b"⟩), .edit (.create ⟨.leaf, "c"⟩),
    .edit (.addChild ⟨0, 0⟩ ⟨1, 0⟩), .setAsParentOf ⟨0, 0⟩ ⟨2, 0⟩]

theorem detaches_hanger :
    Session.hanger.forest.contains ⟨2, 0⟩ = true ∧ Session.hanger.Detaches ⟨2, 0⟩ ∧
      ∃ t, EditM.detach ⟨2, 0⟩ Session.hanger = .ok () t ∧ Session.hanger.Detached t ⟨2, 0⟩ ∧
        t.forest.below ⟨0, 0⟩ = [⟨1, 0⟩] ∧ t.notices = [.parentCleared "Leaf: c" "Block: a"] := by
  have hdetaches : Session.hanger.Detaches ⟨2, 0⟩ := detaches_after_history Label {} _ ⟨2, 0⟩ rfl
  obtain ⟨t, hrun, ht, -⟩ := hdetaches.detach fun p hp => by
    obtain rfl : (⟨0, 0⟩ : Handle) = p := Option.some.inj hp
    rfl
  refine ⟨rfl, hdetaches, t, hrun, ht, ?_, ?_⟩
  · cases hrun
    rfl
  · exact ht.noticed ⟨0, 0⟩ rfl (by decide)

def Session.orphaned : Session Label := (Session.fresh Label {}).afterSteps
  [.edit (.create ⟨.block, "a"⟩), .edit (.create ⟨.leaf, "b"⟩), .setAsParentOf ⟨0, 0⟩ ⟨1, 0⟩,
    .edit (.dispose ⟨0, 0⟩)]

theorem not_detached_orphaned :
    ¬ (∀ (steps : List (Step Label)) (x : Handle),
        ((Session.fresh Label {}).afterSteps steps).forest.contains x = true →
        ∃ t, EditM.detach x ((Session.fresh Label {}).afterSteps steps) = .ok () t) ∧
      Session.orphaned.forest.contains ⟨1, 0⟩ = true ∧
      EditM.detach ⟨1, 0⟩ Session.orphaned = .error (.invalidHandle ⟨0, 0⟩) Session.orphaned := by
  have hrun : EditM.detach ⟨1, 0⟩ Session.orphaned =
      .error (.invalidHandle ⟨0, 0⟩) Session.orphaned := rfl
  refine ⟨fun hall => ?_, rfl, hrun⟩
  obtain ⟨t, ht⟩ := hall [.edit (.create ⟨.block, "a"⟩), .edit (.create ⟨.leaf, "b"⟩),
    .setAsParentOf ⟨0, 0⟩ ⟨1, 0⟩, .edit (.dispose ⟨0, 0⟩)] ⟨1, 0⟩ rfl
  exact nomatch hrun.symm.trans ht

end Grove
