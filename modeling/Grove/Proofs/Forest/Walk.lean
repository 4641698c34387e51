import Grove.Proofs.Forest.Stand

/-!
# Walks

The walks of a well-formed forest in terms of stands: the walk that meets nodes before their children
meets the handles of a stand in their order, and the walk that meets them after their children meets
them in the other order of the same stand.
-/

namespace Grove
set_option autoImplicit false

namespace Stand

/-- All handles, nodes after what stands below them. -/
def postHandles : Stand → List Handle
  | bare => []
  | tree h b r => b.postHandles ++ h :: r.postHandles

/-- The trees of two stands side by side. -/
def append : Stand → Stand → Stand
  | bare, r => r
  | tree h b r, r' => tree h b (r.append r')

@[simp] theorem tops_append (b r : Stand) : (b.append r).tops = b.tops ++ r.tops := by
  induction b with
  | bare => rfl
  | tree h b r' _ ih => simp only [append, tops, ih, List.cons_append]

@[simp] theorem handles_append (b r : Stand) :
    (b.append r).handles = b.handles ++ r.handles := by
  induction b with
  | bare => rfl
  | tree h b r' _ ih => simp only [append, handles, ih, List.cons_append, List.append_assoc]

theorem handles_single (h : Handle) (b : Stand) : (tree h b bare).handles = h :: b.handles := by
  rw [handles, handles, List.append_nil]

end Stand

namespace Forest
variable {C : Type} {F : Forest C} {a h k : Handle} {b r st : Stand}

theorem Bears.append (hb : F.Bears b) (hr : F.Bears r) : F.Bears (b.append r) := by
  induction b with
  | bare => exact hr
  | tree h b r' _ ih =>
    obtain ⟨hh, hbelow, hb, hr'⟩ := hb
    exact ⟨hh, hbelow, hb, ih hr'⟩

@[simp] theorem postOrderFrom_nil (F : Forest C) (n : Nat) : F.postOrderFrom n [] = [] := by
  cases n <;> rfl

/-- Each node of a stand takes two steps of the walk: one puts its children before it, one meets
it. -/
theorem postOrderFrom_bears (hst : F.Bears st) (n : Nat) (pending : List (Handle × Bool)) :
    F.postOrderFrom (2 * st.handles.length + n) (st.tops.map (·, false) ++ pending) =
      st.postHandles ++ F.postOrderFrom n pending := by
  induction st generalizing n pending with
  | bare => simp [Stand.handles, Stand.tops, Stand.postHandles]
  | tree top b r ihb ihr =>
    obtain ⟨htop, hbelow, hb, hr⟩ := hst
    obtain ⟨node, hnode⟩ := contains_iff.mp htop
    have hchildren : node.children = b.tops := by rw [← hbelow, below_of_get? hnode]
    have hlen : 2 * (Stand.tree top b r).handles.length + n =
        (2 * b.handles.length + ((2 * r.handles.length + n) + 1)) + 1 := by
      simp only [Stand.handles, List.length_cons, List.length_append]
      omega
    rw [hlen, Stand.tops, List.map_cons, List.cons_append, postOrderFrom, hnode]
    simp only [hchildren]
    rw [ihb hb, postOrderFrom, ihr hr]
    simp [Stand.postHandles]

theorem Bears.postOrder_eq (hst : F.Bears st) (htops : st.tops = [h]) (hnd : st.handles.Nodup) :
    F.postOrder h = .ok st.postHandles := by
  have hh := hst.contains (Stand.mem_handles_of_mem_tops (htops ▸ List.mem_singleton_self h))
  obtain ⟨n, hn⟩ := contains_iff.mp hh
  have hwalk := postOrderFrom_bears hst (2 * F.nodes.capacity - 2 * st.handles.length) []
  rw [Nat.add_sub_cancel' (Nat.mul_le_mul_left 2 (hst.length_le_capacity hnd)), htops,
    List.append_nil, postOrderFrom_nil, List.append_nil] at hwalk
  simp only [postOrder, node_of_get? hn]
  exact congrArg Except.ok hwalk

/-- The walks from the tops of a stand, one after the other, for a walk that follows an order of the
stand tree by tree. -/
theorem Bears.mapM_walk {walk : Handle → Except Error (List Handle)} (hst : F.Bears st)
    (hnd : st.handles.Nodup) (order : Stand → List Handle) (hbare : order .bare = [])
    (hbeside : ∀ t b r, order (.tree t b r) = order (.tree t b .bare) ++ order r)
    (hwalk : ∀ t b, F.Bears (.tree t b .bare) → (Stand.tree t b .bare).handles.Nodup →
      walk t = .ok (order (.tree t b .bare))) :
    ∃ ls, st.tops.mapM walk = .ok ls ∧ ls.flatten = order st := by
  induction st with
  | bare => exact ⟨[], rfl, hbare.symm⟩
  | tree top b r _ ihr =>
    obtain ⟨htop, hbelow, hb, hr⟩ := hst
    have hsplit : (Stand.tree top b r).handles = (Stand.tree top b .bare).handles ++ r.handles := by
      simp [Stand.handles]
    rw [hsplit] at hnd
    obtain ⟨hndb, hndr, -⟩ := List.nodup_append.mp hnd
    obtain ⟨ls, hls, hflat⟩ := ihr hr hndr
    refine ⟨order (.tree top b .bare) :: ls, ?_, ?_⟩
    · rw [Stand.tops, List.mapM_cons, hwalk top b ⟨htop, hbelow, hb, trivial⟩ hndb, hls]
      rfl
    · rw [List.flatten_cons, hflat, ← hbeside]

theorem Bears.mapM_descendantsAndSelf (hst : F.Bears st) (hnd : st.handles.Nodup) :
    ∃ dss, st.tops.mapM F.descendantsAndSelf = .ok dss ∧ dss.flatten = st.handles := by
  apply hst.mapM_walk hnd Stand.handles rfl
  · intro t b r
    simp [Stand.handles]
  · intro t b hb hnd
    exact hb.descendantsAndSelf_eq rfl hnd

theorem Bears.mapM_postOrder (hst : F.Bears st) (hnd : st.handles.Nodup) :
    ∃ pss, st.tops.mapM F.postOrder = .ok pss ∧ pss.flatten = st.postHandles := by
  apply hst.mapM_walk hnd Stand.postHandles rfl
  · intro t b r
    simp [Stand.postHandles]
  · intro t b hb hnd
    exact hb.postOrder_eq rfl hnd

namespace WellFormed

/-- What is strictly below the top of the first tree of a stand stands below it there. -/
theorem mem_below_iff (hF : F.WellFormed) (hst : F.Bears (.tree h b r)) :
    k ∈ b.handles ↔ F.Above h k := by
  obtain ⟨-, hbelow, hb, -⟩ := hst
  rw [hF.mem_handles_iff hb, Above, Relation.TransGen.head'_iff]
  simp only [Over, hF.above?_eq_some_iff, hbelow, Covers]

theorem nodup_single (hF : F.WellFormed) (hst : F.Bears (.tree h b .bare)) :
    (h :: b.handles).Nodup := by
  have hnd := hF.nodup_handles hst (q := F.above? h) (by simp [Stand.tops]) (List.nodup_singleton h)
  rwa [Stand.handles_single] at hnd

theorem mem_handles_of_covers (hF : F.WellFormed) (hst : F.Bears st) (ha : a ∈ st.handles)
    (hk : F.Covers a k) : k ∈ st.handles := by
  obtain ⟨t, ht, hta⟩ := (hF.mem_handles_iff hst).mp ha
  exact (hF.mem_handles_iff hst).mpr ⟨t, ht, Relation.ReflTransGen.trans hta hk⟩

end WellFormed
end Forest
end Grove
