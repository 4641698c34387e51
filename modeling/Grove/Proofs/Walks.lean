import Grove.Proofs.Forest.PreOrder
import Grove.Proofs.HalfLinks

/-!
# Walks and recursion

The walks down keep a pending list. In a well-formed forest they give what recursion over the children
gives: a node, and then the walks of its children one after the other, or first these walks and then the
node. So both meet the same nodes, and they meet the childless ones of them in the same order.
-/

namespace Grove
set_option autoImplicit false

namespace Forest
variable {C : Type} {F : Forest C} {h x y : Handle} {b st : Stand}

/-- The walks from `h`: `ds` has nodes before their children, `ps` has them after their children. -/
structure Walked (F : Forest C) (h : Handle) (ds ps : List Handle) : Prop where
  descendantsAndSelf : F.descendantsAndSelf h = .ok ds
  descendants : F.descendants h = .ok ds.tail
  postOrder : F.postOrder h = .ok ps
  recursion : ∃ cs dss pss, F.children h = .ok cs ∧
    cs.mapM F.descendantsAndSelf = .ok dss ∧ ds = h :: dss.flatten ∧
    cs.mapM F.postOrder = .ok pss ∧ ps = pss.flatten ++ [h]
  perm : ps.Perm ds ∧ ds.Nodup
  after : ∀ x ∈ ps, ∀ y, F.Above x y → [y, x].Sublist ps
  leaves : F.leaves h = .ok (ds.filter F.childless)
  leavesLast : ps.filter F.childless = ds.filter F.childless
  /-- further steps that a walk is allowed change nothing -/
  ends : ∀ n, F.preOrderFrom (ds.length + n) [h] = ds ∧
    F.postOrderFrom (2 * ds.length + n) [(h, false)] = ps

theorem filter_childless_postHandles (hst : F.Bears st) :
    st.postHandles.filter F.childless = st.handles.filter F.childless := by
  induction st with
  | bare => rfl
  | tree h b r ihb ihr =>
    obtain ⟨-, hbelow, hb, hr⟩ := hst
    rw [Stand.postHandles, Stand.handles, List.filter_append, List.filter_cons, List.filter_cons,
      List.filter_append, ihb hb, ihr hr]
    cases b with
    | bare => split <;> rfl
    | tree c b' r' =>
      -- `h` has a child, so it is left out on both sides
      have hc : F.childless h = false := by rw [childless, hbelow]; rfl
      rw [hc]
      rfl

namespace WellFormed

theorem pairwise_postHandles (hF : F.WellFormed) (hst : F.Bears st) (hnd : st.handles.Nodup) :
    st.postHandles.Pairwise fun x y => ¬ F.Above x y := by
  induction st with
  | bare => exact .nil
  | tree h b r ihb ihr =>
    obtain ⟨hh, hbelow, hb, hr⟩ := id hst
    obtain ⟨hnot, hnd⟩ := List.nodup_cons.mp hnd
    obtain ⟨hndb, hndr, hdisj⟩ := List.nodup_append.mp hnd
    have hdown : ∀ {k}, k ∈ b.handles ↔ F.Above h k := hF.mem_below_iff hst
    have hinb : b.postHandles ⊆ b.handles := b.postHandles_perm.subset
    have hinr : r.postHandles ⊆ r.handles := r.postHandles_perm.subset
    apply List.pairwise_append.mpr
    refine ⟨ihb hb hndb, List.pairwise_cons.mpr ⟨?_, ihr hr hndr⟩, ?_⟩
    · intro y hy hhy
      exact hdisj y (hdown.mpr hhy) y (hinr hy) rfl
    · intro x hx y hy hxy
      rcases List.mem_cons.mp hy with rfl | hy
      · exact hF.acyclic x (hxy.trans (hdown.mp (hinb hx)))
      · have hyb := hF.mem_handles_of_covers hb (hinb hx) hxy.to_reflTransGen
        exact hdisj y hyb y (hinr hy) rfl

theorem walked_of_bears (hF : F.WellFormed) (hst : F.Bears (.tree h b .bare)) :
    F.Walked h (h :: b.handles) (b.postHandles ++ [h]) := by
  obtain ⟨hh, hbelow, hb, -⟩ := id hst
  have hhandles := Stand.handles_single h b
  have hpost : (Stand.tree h b .bare).postHandles = b.postHandles ++ [h] := rfl
  have hnd := hF.nodup_single hst
  have hndb := (List.nodup_cons.mp hnd).2
  have hperm : (b.postHandles ++ [h]).Perm (h :: b.handles) :=
    (List.perm_append_singleton h _).trans (b.postHandles_perm.cons h)
  constructor
  case descendantsAndSelf =>
    rw [← hhandles]
    exact hst.descendantsAndSelf_eq rfl (hhandles ▸ hnd)
  case descendants => exact hst.descendants_eq hndb
  case postOrder => exact hst.postOrder_eq rfl (hhandles ▸ hnd)
  case recursion =>
    obtain ⟨dss, hdss, hd⟩ := hb.mapM_descendantsAndSelf hndb
    obtain ⟨pss, hpss, hp⟩ := hb.mapM_postOrder hndb
    have hkids : F.children h = .ok b.tops := by rw [children_of_contains hh, hbelow]
    exact ⟨b.tops, dss, pss, hkids, hdss, by rw [hd], hpss, by rw [hp]⟩
  case perm => exact ⟨hperm, hnd⟩
  case after =>
    intro x hx y hxy
    have hmem : y ∈ b.postHandles ++ [h] := by
      have hy := hF.mem_handles_of_covers hst (hhandles ▸ hperm.subset hx) hxy.to_reflTransGen
      exact hperm.symm.subset (hhandles ▸ hy)
    have hpairs := hF.pairwise_postHandles hst (hhandles ▸ hnd)
    rw [hpost] at hpairs
    refine (sublist_pair_or hmem hx (hF.ne_of_above hxy).symm).resolve_right ?_
    intro hsub
    exact List.pairwise_iff_forall_sublist.mp hpairs hsub hxy
  case leaves => exact leaves_of_bears hst hnd
  case leavesLast =>
    rw [← hpost, ← hhandles]
    exact filter_childless_postHandles hst
  case ends =>
    intro n
    have hwalk := preOrderFrom_of_bears hst n
    rw [hhandles] at hwalk
    exact ⟨hwalk, postOrderFrom_of_bears hst n⟩

end WellFormed
end Forest

theorem walked_from {C : Type} {F : Forest C} (hF : F.WellFormed) {h : Handle}
    (hh : F.contains h = true) : ∃ ds ps, F.Walked h ds ps := by
  obtain ⟨b, hb, htops⟩ := hF.exists_bears hh
  exact ⟨_, _, hF.walked_of_bears (.node hh hb htops)⟩

def Session.arbour : Session Label := (Session.fresh Label {}).after
  [.create ⟨.block, "a"⟩, .create ⟨.block, "b"⟩, .create ⟨.leaf, "c"⟩, .create ⟨.leaf, "d"⟩,
    .create ⟨.leaf, "e"⟩, .addChildren ⟨1, 0⟩ [⟨2, 0⟩, ⟨3, 0⟩], .addChildren ⟨0, 0⟩ [⟨1, 0⟩, ⟨4, 0⟩]]

theorem walked_arbour :
    Session.arbour.forest.WellFormed ∧ Session.arbour.forest.contains ⟨0, 0⟩ = true ∧
      Session.arbour.forest.Walked ⟨0, 0⟩ [⟨0, 0⟩, ⟨1, 0⟩, ⟨2, 0⟩, ⟨3, 0⟩, ⟨4, 0⟩]
        [⟨2, 0⟩, ⟨3, 0⟩, ⟨1, 0⟩, ⟨4, 0⟩, ⟨0, 0⟩] := by
  have hF : Session.arbour.forest.WellFormed :=
    Session.wellFormed_after (Forest.wellFormed_empty {}) _
  have hh : Session.arbour.forest.contains ⟨0, 0⟩ = true := rfl
  obtain ⟨ds, ps, hwalked⟩ := walked_from hF hh
  obtain rfl := Except.ok.inj (hwalked.descendantsAndSelf.symm.trans rfl)
  obtain rfl := Except.ok.inj (hwalked.postOrder.symm.trans rfl)
  exact ⟨hF, hh, hwalked⟩

end Grove
