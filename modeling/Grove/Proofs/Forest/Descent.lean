import Grove.Forest.Rendering
import Grove.Proofs.Forest.Level

/-!
# Descents

What the walks down find when they are let loose on a stand. Each walk follows the stand, so it needs
no more steps than the stand has handles, and further steps that it is allowed change nothing.
-/

namespace Grove
set_option autoImplicit false

namespace Stand

theorem postHandles_perm (st : Stand) : st.postHandles.Perm st.handles := by
  induction st with
  | bare => exact .nil
  | tree h b r ihb ihr =>
    have hmove : (b.postHandles ++ h :: r.postHandles).Perm
        (h :: (b.postHandles ++ r.postHandles)) := List.perm_middle
    exact hmove.trans ((ihb.append ihr).cons h)

theorem tops_sublist (st : Stand) : st.tops.Sublist st.handles := by
  induction st with
  | bare => exact .slnil
  | tree h b r _ ihr => exact (ihr.trans (List.sublist_append_right _ _)).cons_cons h

theorem levels_le_length (st : Stand) : st.levels ≤ st.handles.length := by
  induction st with
  | bare => exact Nat.le_refl 0
  | tree h b r ihb ihr =>
    simp only [levels, handles, List.length_cons, List.length_append]
    omega

theorem eq_bare_of_length {st : Stand} (hst : st.handles.length = 0) : st = bare := by
  cases st with
  | bare => rfl
  | tree h b r => exact absurd hst (by simp [handles])

end Stand

namespace TextTree

mutual

/-- The texts of a tree, those of nodes before those of their children. -/
def texts : TextTree → List String
  | node text children => text :: textsOf children

def textsOf : List TextTree → List String
  | [] => []
  | t :: rest => t.texts ++ textsOf rest

end

namespace Finished
variable {h : Handle} {tree : TextTree} {built : Finished}

theorem take_cons (hbuilt : ∀ e ∈ built, e.1 ≠ h) :
    take ((h, tree) :: built) h = (some tree, built) := by
  have hleft : built.filter (fun e => e.1 != h) = built := by
    apply List.filter_eq_self.mpr
    intro e he
    simpa using hbuilt e he
  rw [take, List.lookup_cons_self, List.filter_cons_of_neg (by simp), hleft]

/-- Trees are taken out as they lie, if no other trees lie under their handles. -/
theorem takeAll_zip {hs : List Handle} {trees : List TextTree} (hlen : hs.length = trees.length)
    (hnd : hs.Nodup) (hbuilt : ∀ e ∈ built, e.1 ∉ hs) :
    takeAll (hs.zip trees ++ built) hs = (trees, built) := by
  induction hs generalizing trees with
  | nil =>
    obtain rfl := List.eq_nil_of_length_eq_zero hlen.symm
    rfl
  | cons h hs ih =>
    obtain ⟨tree, trees, rfl⟩ := List.exists_cons_of_length_eq_add_one hlen.symm
    obtain ⟨hnot, hnd⟩ := List.nodup_cons.mp hnd
    have hothers : ∀ e ∈ hs.zip trees ++ built, e.1 ≠ h := by
      intro e he
      rcases List.mem_append.mp he with he | he
      · exact ne_of_mem_of_not_mem (List.of_mem_zip he).1 hnot
      · exact fun heq => hbuilt e he (heq ▸ List.mem_cons_self)
    have hrest := ih (Nat.succ.inj hlen) hnd fun e he hmem =>
      hbuilt e he (List.mem_cons_of_mem h hmem)
    rw [List.zip_cons_cons, List.cons_append, takeAll, take_cons hothers]
    simp only [hrest, Option.toList_some, List.singleton_append]

end Finished
end TextTree

theorem filterAuxM_ok {α ε : Type} {f : α → Except ε Bool} {g : α → Bool} {l : List α}
    (hf : ∀ a ∈ l, f a = .ok (g a)) (kept : List α) :
    l.filterAuxM f kept = .ok ((l.filter g).reverse ++ kept) := by
  induction l generalizing kept with
  | nil => rfl
  | cons a l ih =>
    have htail := ih fun b hb => hf b (List.mem_cons_of_mem a hb)
    rw [List.filterAuxM, hf a List.mem_cons_self, List.filter_cons]
    cases hg : g a with
    | false => exact htail kept
    | true =>
      rw [if_pos rfl, List.reverse_cons, List.append_assoc]
      exact htail (a :: kept)

theorem filterM_ok {α ε : Type} {f : α → Except ε Bool} {g : α → Bool} {l : List α}
    (hf : ∀ a ∈ l, f a = .ok (g a)) : l.filterM f = .ok (l.filter g) := by
  rw [List.filterM, filterAuxM_ok hf]
  simp [bind, Except.bind, pure, Except.pure]

namespace Forest
variable {C : Type} {F : Forest C} {h : Handle} {b r st : Stand} {m n : Nat}

/-! ## Matches -/

/-- The handles of a stand that pass a test, with `prune` none of them below another one. -/
def found (F : Forest C) (P : Predicate C) (prune : Bool) : Stand → List Handle
  | .bare => []
  | .tree h b r =>
    (if P F h then h :: (if prune then [] else F.found P prune b) else F.found P prune b) ++
      F.found P prune r

theorem found_append (P : Predicate C) (prune : Bool) (b r : Stand) :
    F.found P prune (b.append r) = F.found P prune b ++ F.found P prune r := by
  induction b with
  | bare => rfl
  | tree h b r' _ ih => rw [Stand.append, found, found, ih, List.append_assoc]

theorem found_sublist (P : Predicate C) (prune : Bool) (st : Stand) :
    (F.found P prune st).Sublist st.handles := by
  induction st with
  | bare => exact .slnil
  | tree h b r ihb ihr =>
    have hfirst : (if P F h then h :: (if prune then [] else F.found P prune b)
        else F.found P prune b).Sublist (h :: b.handles) := by
      split
      · apply List.Sublist.cons_cons
        split
        · exact List.nil_sublist _
        · exact ihb
      · exact ihb.cons h
    exact hfirst.append ihr

/-- A test that leaves out what is below a node that passes only shortens the walk. -/
theorem matchesFrom_bears (P : Predicate C) (prune : Bool) (hst : F.Bears st)
    (hn : st.handles.length ≤ n) : F.matchesFrom P prune n st.tops = F.found P prune st := by
  induction n generalizing st with
  | zero =>
    rw [Stand.eq_bare_of_length (Nat.le_zero.mp hn)]
    rfl
  | succ n ih =>
    cases st with
    | bare => rfl
    | tree h b r =>
      obtain ⟨hh, hbelow, hb, hr⟩ := hst
      obtain ⟨node, hnode⟩ := contains_iff.mp hh
      have hchildren : node.children = b.tops := by rw [← hbelow, below_of_get? hnode]
      simp only [Stand.handles, List.length_cons, List.length_append] at hn
      have hbeside := ih hr (by omega)
      have hboth := ih (hb.append hr) (by rw [Stand.handles_append, List.length_append]; omega)
      rw [Stand.tops_append, found_append] at hboth
      simp only [Stand.tops, matchesFrom, hnode, hchildren, found]
      split
      · cases prune with
        | true => simp [hbeside]
        | false => simp [hboth]
      · exact hboth

/-! ## Leaves -/

def childless (F : Forest C) (h : Handle) : Bool := (F.below h).isEmpty

theorem leaves_of_bears (hst : F.Bears (.tree h b .bare)) (hnd : (h :: b.handles).Nodup) :
    F.leaves h = .ok ((h :: b.handles).filter F.childless) := by
  have hhandles := Stand.handles_single h b
  have hself := hst.descendantsAndSelf_eq rfl (hhandles ▸ hnd)
  have hleaf : ∀ d ∈ h :: b.handles, (do return !(← F.hasChildren d) : Except Error Bool) =
      .ok (F.childless d) := by
    intro d hd
    rw [hasChildren_of_contains (hst.contains (hhandles ▸ hd)), childless]
    exact congrArg Except.ok (Bool.not_not _)
  rw [hhandles] at hself
  simp only [leaves, hself]
  exact filterM_ok hleaf

/-! ## Single-child chains -/

variable [Content C]

theorem kind_of_contains (hh : F.contains h = true) : ∃ k, F.kind h = .ok k := by
  obtain ⟨node, hnode⟩ := contains_iff.mp hh
  exact ⟨Content.kind node.content, by simp only [kind, node_of_get? hnode]; rfl⟩

theorem normalizeFrom_succ (bypass : List (Kind C)) (hh : F.contains h = true) :
    ∃ k, ∀ n, F.normalizeFrom bypass (n + 1) h =
      if bypass.contains k then
        match F.below h with
        | [c] => F.normalizeFrom bypass n c
        | cs => .error (.invariantViolation (.bypassedChildren (F.describe h) cs.length))
      else .ok h := by
  obtain ⟨k, hk⟩ := kind_of_contains hh
  refine ⟨k, fun n => ?_⟩
  rw [normalizeFrom, hk]
  simp only [bind, Except.bind, children_of_contains hh]
  cases bypass.contains k <;> rfl

/-- A descent through bypassed nodes takes at most as many steps as there are levels. -/
theorem normalizeFrom_bears (bypass : List (Kind C)) (hst : F.Bears (.tree h b .bare))
    (hn : b.levels < n) (hm : b.levels < m) :
    F.normalizeFrom bypass n h ≠ .error .endlessWalk ∧
      F.normalizeFrom bypass m h = F.normalizeFrom bypass n h := by
  induction b generalizing h m n with
  | bare =>
    obtain ⟨hh, hbelow, -, -⟩ := hst
    obtain ⟨n, rfl⟩ := Nat.exists_eq_succ_of_ne_zero (Nat.ne_zero_of_lt hn)
    obtain ⟨m, rfl⟩ := Nat.exists_eq_succ_of_ne_zero (Nat.ne_zero_of_lt hm)
    obtain ⟨k, hstep⟩ := normalizeFrom_succ bypass hh
    rw [hstep, hstep, hbelow]
    simp only [Stand.tops, and_true]
    split <;> simp
  | tree c b' r ihb _ =>
    obtain ⟨hh, hbelow, ⟨hc, hcbelow, hb', -⟩, -⟩ := hst
    obtain ⟨n, rfl⟩ := Nat.exists_eq_succ_of_ne_zero (Nat.ne_zero_of_lt hn)
    obtain ⟨m, rfl⟩ := Nat.exists_eq_succ_of_ne_zero (Nat.ne_zero_of_lt hm)
    obtain ⟨k, hstep⟩ := normalizeFrom_succ bypass hh
    rw [Stand.levels] at hn hm
    have hdown := ihb (h := c) (n := n) (m := m) ⟨hc, hcbelow, hb', trivial⟩ (by omega) (by omega)
    rw [hstep, hstep, hbelow]
    cases r with
    | bare =>
      simp only [Stand.tops]
      split
      · exact hdown
      · simp
    | tree d b'' r' =>
      simp only [Stand.tops, and_true]
      split <;> simp

/-! ## Text trees -/

def drawn (F : Forest C) : Stand → List TextTree
  | .bare => []
  | .tree h b r => .node (F.describe h) (F.drawn b) :: F.drawn r

theorem length_drawn (st : Stand) : (F.drawn st).length = st.tops.length := by
  induction st with
  | bare => rfl
  | tree h b r _ ihr => rw [drawn, Stand.tops, List.length_cons, List.length_cons, ihr]

theorem textsOf_drawn (st : Stand) :
    TextTree.textsOf (F.drawn st) = st.handles.map F.describe := by
  induction st with
  | bare => rfl
  | tree h b r ihb ihr =>
    rw [drawn, TextTree.textsOf, TextTree.texts, ihb, ihr, Stand.handles, List.map_cons,
      List.map_append, List.cons_append]

/-- The tree of a node by recursion over its children, down to a number of levels. -/
def textTreeFrom (F : Forest C) : Nat → Handle → Except Error TextTree
  | 0, _ => throw .endlessWalk
  | n + 1, h => do
    let node ← F.node h
    return .node (Content.line node.content) (← node.children.mapM (F.textTreeFrom n))

theorem textTreeFrom_bears (hst : F.Bears st) (hn : st.levels ≤ n) :
    st.tops.mapM (F.textTreeFrom n) = .ok (F.drawn st) := by
  induction st generalizing n with
  | bare => rfl
  | tree h b r ihb ihr =>
    obtain ⟨hh, hbelow, hb, hr⟩ := hst
    obtain ⟨node, hnode⟩ := contains_iff.mp hh
    have hchildren : node.children = b.tops := by rw [← hbelow, below_of_get? hnode]
    rw [Stand.levels] at hn
    obtain ⟨n, rfl⟩ := Nat.exists_eq_succ_of_ne_zero (n := n) (by omega)
    have hfirst : F.textTreeFrom (n + 1) h = .ok (.node (F.describe h) (F.drawn b)) := by
      have hdown : node.children.mapM (F.textTreeFrom n) = .ok (F.drawn b) := by
        rw [hchildren, ihb hb (by omega)]
      simp only [textTreeFrom, node_of_get? hnode, describe, hnode, bind, Except.bind, hdown]
      rfl
    rw [Stand.tops, List.mapM_cons, hfirst, ihr hr (by omega)]
    rfl

theorem textTreeFrom_of_bears (hst : F.Bears (.tree h b .bare)) (hn : (h :: b.handles).length ≤ n) :
    F.textTreeFrom n h = .ok (.node (F.describe h) (F.drawn b)) := by
  have hlevels : (Stand.tree h b .bare).levels ≤ n := by
    have hle := b.levels_le_length
    rw [List.length_cons] at hn
    simp only [Stand.levels]
    omega
  have hall := textTreeFrom_bears hst hlevels
  rw [Stand.tops, Stand.tops, List.mapM_cons] at hall
  cases hfirst : F.textTreeFrom n h with
  | error e =>
    rw [hfirst] at hall
    cases hall
  | ok tree =>
    rw [hfirst] at hall
    exact congrArg Except.ok (List.cons.inj (Except.ok.inj hall)).1

theorem line_of_contains (hh : F.contains h = true) : F.line h = .ok (F.describe h) := by
  obtain ⟨node, hnode⟩ := contains_iff.mp hh
  simp only [line, node_of_get? hnode, describe, hnode]
  rfl

/-- A node is finished once the trees of its children are: they are used up for it. -/
theorem finish_of_below {built : TextTree.Finished} (hh : F.contains h = true)
    (hbelow : F.below h = b.tops) (hnd : b.tops.Nodup) (hbuilt : ∀ e ∈ built, e.1 ∉ b.tops) :
    F.finish (b.tops.zip (F.drawn b) ++ built) h =
      .ok ((h, .node (F.describe h) (F.drawn b)) :: built) := by
  have hlen : b.tops.length = (F.drawn b).length := (length_drawn b).symm
  have htake := TextTree.Finished.takeAll_zip hlen hnd hbuilt
  simp only [finish, line_of_contains hh, children_of_contains hh, hbelow, bind, Except.bind, htake]
  rfl

/-- The reversed walk over a stand finishes the trees of the stand, in their order, and leaves those
that have been finished before. -/
theorem foldlM_finish {built : TextTree.Finished} (hst : F.Bears st) (hnd : st.handles.Nodup)
    (hbuilt : ∀ e ∈ built, e.1 ∉ st.handles) :
    st.handles.reverse.foldlM F.finish built = .ok (st.tops.zip (F.drawn st) ++ built) := by
  induction st generalizing built with
  | bare => rfl
  | tree h b r ihb ihr =>
    obtain ⟨hh, hbelow, hb, hr⟩ := hst
    obtain ⟨-, hnd⟩ := List.nodup_cons.mp hnd
    obtain ⟨hndb, hndr, hdisj⟩ := List.nodup_append.mp hnd
    have hbeside : ∀ e ∈ r.tops.zip (F.drawn r) ++ built, e.1 ∉ b.handles := by
      intro e he hmem
      rcases List.mem_append.mp he with he | he
      · exact hdisj e.1 hmem e.1 (Stand.mem_handles_of_mem_tops (List.of_mem_zip he).1) rfl
      · exact hbuilt e he (List.mem_cons_of_mem h (List.mem_append_left _ hmem))
    -- the trees beside come first, then those below, then the one of `h`
    have hfirst := ihr hr hndr fun e he hmem =>
      hbuilt e he (List.mem_cons_of_mem h (List.mem_append_right _ hmem))
    have hthen := ihb hb hndb hbeside
    have hlast := finish_of_below hh hbelow (b.tops_sublist.nodup hndb) fun e he hmem =>
      hbeside e he (Stand.mem_handles_of_mem_tops hmem)
    rw [Stand.handles, List.reverse_cons, List.reverse_append, List.foldlM_append,
      List.foldlM_append, hfirst]
    simp only [bind, Except.bind, hthen, List.foldlM_cons, hlast]
    rfl

theorem textTree_of_bears (hst : F.Bears (.tree h b .bare)) (hnd : (h :: b.handles).Nodup) :
    F.textTree h = .ok (.node (F.describe h) (F.drawn b)) := by
  rw [← Stand.handles_single] at hnd
  have hall : (Stand.tree h b .bare).handles.reverse.foldlM F.finish [] =
      .ok [(h, .node (F.describe h) (F.drawn b))] := foldlM_finish hst hnd fun _ he => nomatch he
  have htake : TextTree.Finished.take [(h, .node (F.describe h) (F.drawn b))] h =
      (some (.node (F.describe h) (F.drawn b)), []) :=
    TextTree.Finished.take_cons fun _ he => nomatch he
  simp only [textTree, hst.descendantsAndSelf_eq rfl hnd, bind, Except.bind, hall, htake]
  rfl

end Forest
end Grove
