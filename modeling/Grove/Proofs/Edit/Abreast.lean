import Grove.Proofs.Edit.Follow
import Grove.Proofs.Edit.Relist
import Grove.Proofs.Edit.Remove
import Grove.Proofs.Store.Layout

/-!
# Copies abreast

Removing children writes links only, so afterwards the store issues the handles that it would have
issued before. A copy of a subtree that keeps clear of the removed children therefore takes the same
steps before the removal and after it: step by step the same node is made, and the removed children
remain the only difference between the two forests.
-/

namespace Grove
set_option autoImplicit false

namespace EditM
variable {C α : Type}

/-! ## Edits that write links only -/

/-- The law that the store issues the handles that it would have issued. -/
def KeepsLayout (s t : Session C) : Prop := s.forest.nodes.SameLayout t.forest.nodes

instance isPreorder_keepsLayout : IsPreorder (Session C) KeepsLayout where
  refl s := .refl s.forest.nodes
  trans _ _ _ := .trans

theorem updateNode_keepsLayout (h : Handle) (f : Node C → Node C) :
    Follows KeepsLayout (updateNode h f) :=
  .bind (.discard (.query _)) fun _ s => .modify s.forest.nodes h f

theorem editChildren_keepsLayout (h : Handle) (f : List Handle → Option (α × List Handle)) :
    Follows KeepsLayout (editChildren (C := C) h f) := by
  refine .bind (.query _) fun cs => ?_
  cases f cs with
  | none => exact .throw _
  | some r => exact .bind (updateNode_keepsLayout h _) fun _ => .pure _

variable [Content C]

theorem removeParent_keepsLayout (h : Handle) :
    Follows KeepsLayout (removeParent (C := C) h) := by
  refine .bind (.query _) fun parent? => ?_
  cases parent? with
  | none => exact .bind (.describe h) fun _ => .throw _
  | some p => exact .bind (updateNode_keepsLayout h _) fun _ => .pure _

theorem removeChild_keepsLayout (p : Handle) (i : Nat) :
    Follows KeepsLayout (removeChild (C := C) p i) := by
  have hremove : Follows KeepsLayout (do
      let child ← editChildren (C := C) p fun cs => Position.erase? cs i
      discard (removeParent child)
      return child) :=
    .bind (editChildren_keepsLayout p _) fun child =>
      .bind (.discard (removeParent_keepsLayout child)) fun _ => .pure _
  have hchecked (len : Nat) : Follows KeepsLayout (do
      if i ≥ len then throw (← look (C := C) fun F => F.indexError p i)
      let child ← editChildren (C := C) p fun cs => Position.erase? cs i
      discard (removeParent child)
      return child) := by
    dsimp only
    split
    · exact .bind (.look _) fun _ => .bind (.throw _) fun _ => hremove
    · exact hremove
  refine .bind (.query _) fun len => ?_
  dsimp only
  split
  · exact .bind (.describe p) fun _ => .bind (.throw _) fun _ => hchecked len
  · exact hchecked len

theorem removeSlice_keepsLayout (p : Handle) (i n : Nat) :
    Follows KeepsLayout (removeSlice (C := C) p i n) := by
  induction n with
  | zero => exact .pure _
  | succ n ih => exact .bind (removeChild_keepsLayout p _) fun _ => .bind ih fun _ => .pure _

end EditM

namespace Forest
variable {C : Type} {E F G H : Forest C} {k t x : Handle} {cs : List Handle}

/-! ## What is done alike to a forest and to what it has shed -/

theorem Shed.plant (hG : F.Shed G cs) {content : C}
    (hc : (F.plant content).1 = (G.plant content).1) :
    (F.plant content).2.Shed (G.plant content).2 cs where
  above?_eq k := by rw [above?_plant, above?_plant, hG.above?_eq]
  below_eq k := by rw [below_plant, below_plant, hG.below_eq]
  contentOf?_eq k := by rw [contentOf?_plant, contentOf?_plant, hc, hG.contentOf?_eq]
  settings := hG.settings

theorem Shed.link_last (hG : F.Shed G cs) (ht : F.contains t = true) (hx : F.contains x = true)
    (hxcs : x ∉ cs) :
    (F.link t (F.below t).length x).Shed (G.link t (G.below t).length x) cs where
  above?_eq k := by
    rw [above?_link ((hG.contains_eq x).trans hx), above?_link hx, hG.above?_eq]
    by_cases hk : k = x
    · rw [if_pos hk, if_pos hk, hk, if_neg hxcs]
    · rw [if_neg hk, if_neg hk]
  below_eq k := by
    rw [below_link ((hG.contains_eq t).trans ht), below_link ht, List.insertIdx_length_self,
      List.insertIdx_length_self, hG.below_eq, hG.below_eq]
    by_cases hk : k = t
    · rw [if_pos hk, if_pos hk, List.filter_append]
      simp [hxcs]
    · rw [if_neg hk, if_neg hk]
  contentOf?_eq k := by rw [contentOf?_link, contentOf?_link, hG.contentOf?_eq]
  settings := hG.settings

theorem getElem?_filter {α : Type} {P : α → Bool} {l : List α} {i : Nat}
    (hl : ∀ b ∈ l.take (i + 1), P b = true) : (l.filter P)[i]? = l[i]? := by
  induction l generalizing i with
  | nil => rfl
  | cons b l ih =>
    rw [List.filter_cons_of_pos (hl b (by simp))]
    cases i with
    | zero => rfl
    | succ i => simpa using ih fun d hd => hl d (by simp [hd])

theorem filter_set {α : Type} {P : α → Bool} {l : List α} {i : Nat} {a : α}
    (hl : ∀ b ∈ l.take (i + 1), P b = true) (ha : P a = true) :
    (l.set i a).filter P = (l.filter P).set i a := by
  induction l generalizing i with
  | nil => rfl
  | cons b l ih =>
    have hb : P b = true := hl b (by simp)
    cases i with
    | zero => rw [List.set_cons_zero, List.filter_cons_of_pos ha, List.filter_cons_of_pos hb,
        List.set_cons_zero]
    | succ i =>
      rw [List.set_cons_succ, List.filter_cons_of_pos hb, List.filter_cons_of_pos hb,
        List.set_cons_succ, ih fun d hd => hl d (by simp [hd])]

/-- A child before those that are shed is exchanged alike before and after. -/
theorem Shed.substitute {p c y : Handle} {i : Nat} (hG : F.Shed G cs)
    (hi : (F.below p)[i]? = some c) (hc : F.contains c = true) (hy : F.contains y = true)
    (hbefore : ∀ k ∈ (F.below p).take (i + 1), k ∉ cs) (hycs : y ∉ cs) :
    (F.substitute p i y c).Shed (G.substitute p i y c) cs where
  above?_eq k := by
    rw [above?_substitute ((hG.contains_eq y).trans hy) ((hG.contains_eq c).trans hc),
      above?_substitute hy hc, hG.above?_eq]
    by_cases hk : k = y
    · simp [hk, hycs]
    · by_cases hkc : k = c <;> simp [hk, hkc]
  below_eq k := by
    have hp := contains_of_mem_below (List.mem_of_getElem? hi)
    rw [below_substitute ((hG.contains_eq p).trans hp), below_substitute hp, hG.below_eq,
      hG.below_eq]
    by_cases hk : k = p
    · rw [if_pos hk, if_pos hk]
      exact (filter_set (fun b hb => decide_eq_true (hbefore b hb)) (decide_eq_true hycs)).symm
    · rw [if_neg hk, if_neg hk]
  contentOf?_eq k := by rw [contentOf?_substitute, contentOf?_substitute, hG.contentOf?_eq]
  settings := hG.settings

/-- Old nodes that have not changed have not changed where the same nodes are shed either. -/
theorem Shed.extends (hG : F.Shed G cs) (hH : E.Shed H cs) (hFE : F.Extends E) : G.Extends H where
  get? k hk := by
    have hkF : F.contains k = true := (hG.contains_eq k).symm.trans hk
    rw [get?_eq_get?_iff, hH.contentOf?_eq, hH.above?_eq, hH.below_eq, hG.contentOf?_eq,
      hG.above?_eq, hG.below_eq, hFE.contentOf?_eq hkF, hFE.above?_eq hkF, hFE.below_eq hkF]
    exact ⟨rfl, rfl, rfl⟩
  settings := by rw [hH.settings, hG.settings, hFE.settings]

theorem layout_update (F : Forest C) (h : Handle) (f : Node C → Node C) :
    F.nodes.SameLayout (F.update h f).nodes := .modify F.nodes h f

theorem layout_link (F : Forest C) (p : Handle) (i : Nat) (x : Handle) :
    F.nodes.SameLayout (F.link p i x).nodes :=
  (F.layout_update x _).trans ((F.setParent x (some p)).layout_update p _)

/-- All nodes of the subtree are copyable, and none of them is among `cs`. -/
def CopiesClear [ShallowCopy C] [RegularCopy C] (F : Forest C) (cs : List Handle) (h : Handle) :
    Prop :=
  F.contains h = true ∧ ∀ k, F.Covers h k → k ∉ cs ∧
    ∀ n, F.get? k = some n → RegularCopy.copyable n.content = true

theorem CopiesClear.of_mem_below [ShallowCopy C] [RegularCopy C] {h : Handle}
    (hh : F.CopiesClear cs h) (hF : F.WellFormed) (hk : k ∈ F.below h) : F.CopiesClear cs k :=
  ⟨hF.contains_of_mem_below hk, fun l hl =>
    hh.2 l (Relation.ReflTransGen.head (hF.above?_eq_some_iff.mpr hk) hl)⟩

end Forest

namespace EditM
variable {C : Type} {F : Forest C} {s s' t : Session C} {h k target x y : Handle}
  {cs : List Handle}

/-- Two sessions in which the same has been copied from `F` so far: the second one lacks the children
`cs`. -/
structure Abreast (F : Forest C) (cs : List Handle) (s s' : Session C) : Prop where
  shed : s.forest.Shed s'.forest cs
  layout : s.forest.nodes.SameLayout s'.forest.nodes
  wellFormed : s.forest.WellFormed
  old : F.Extends s.forest
  live : ∀ k ∈ cs, F.contains k = true

namespace Abreast

theorem not_mem_of_fresh (hs : Abreast F cs s s') (hk : F.contains k = false) : k ∉ cs := fun hm =>
  Forest.ne_of_contains (hs.live k hm) hk rfl

/-- A new node gets the same handle in both. -/
theorem plant (hs : Abreast F cs s s') (content : C) :
    (s.forest.plant content).1 = (s'.forest.plant content).1 ∧
      Abreast F cs (s.withForest (s.forest.plant content).2)
        (s'.withForest (s'.forest.plant content).2) := by
  have hc : (s.forest.plant content).1 = (s'.forest.plant content).1 := 
    hs.layout.insert_fst { content := content } { content := content }
  exact ⟨hc, hs.shed.plant hc, hs.layout.insert { content := content } { content := content },
    hs.wellFormed.plant content,
    hs.old.trans (Forest.extends_plant s.forest content), hs.live⟩

/-- A new node is hung below another one. -/
theorem link (hs : Abreast F cs s s') (ht : s.forest.contains target = true)
    (hfresh : F.contains target = false) (content : C) :
    Abreast F cs
      (s.withForest ((s.forest.plant content).2.link target (s.forest.below target).length
        (s.forest.plant content).1))
      (s'.withForest ((s'.forest.plant content).2.link target (s'.forest.below target).length
        (s.forest.plant content).1)) := by
  obtain ⟨hc, hplant⟩ := hs.plant content
  have hsprout := hs.wellFormed.sprouted_plant content
  have hbud := hs.wellFormed.budded_link ht content
  have hshed := hplant.shed.link_last (t := target) (hsprout.old.contains ht) hsprout.contains
    (hs.not_mem_of_fresh (hs.old.not_contains hsprout.fresh))
  rw [Session.forest_withForest, Session.forest_withForest, Forest.below_plant,
    Forest.below_plant] at hshed
  refine ⟨hshed, ?_, hbud.wellFormed, ⟨fun k hk => ?_, ?_⟩, hs.live⟩
  · exact (Forest.layout_link _ _ _ _).symm.trans
      (hplant.layout.trans (Forest.layout_link _ _ _ _))
  · rw [Session.forest_withForest, hbud.old k (hs.old.contains hk)
      (Forest.ne_of_contains hk hfresh), hs.old.get? k hk]
  · exact hs.old.settings

variable [ShallowCopy C] [RegularCopy C]

/-- A node that is clear of the missing children has the same content and the same children in
both. -/
theorem source (hs : Abreast F cs s s') (hF : F.WellFormed) (hh : F.CopiesClear cs h) :
    ∃ n n', s.forest.get? h = some n ∧ s'.forest.get? h = some n' ∧ n'.content = n.content ∧
      RegularCopy.copyable n.content = true ∧ s.forest.below h = F.below h ∧
      s'.forest.below h = F.below h := by
  obtain ⟨n, hn⟩ := Forest.contains_iff.mp hh.1
  have hns : s.forest.get? h = some n := (hs.old.get? h hh.1).trans hn
  have hcontent := hs.shed.contentOf?_eq h
  rw [Forest.contentOf?_of_get? hns] at hcontent
  obtain ⟨n', hn', hcontent'⟩ := Option.map_eq_some_iff.mp hcontent
  have hbelow := hs.old.below_eq hh.1
  refine ⟨n, n', hns, hn', hcontent', (hh.2 h Forest.covers_refl).2 n hn, hbelow, ?_⟩
  rw [hs.shed.below_eq, hbelow]
  refine List.filter_eq_self.mpr fun k hk => decide_eq_true ?_
  exact (hh.2 k (.single (hF.above?_eq_some_iff.mpr hk))).1

/-- The same copy is made of the same node. -/
theorem copyBare (hs : Abreast F cs s s') (hF : F.WellFormed) (hh : F.CopiesClear cs h) :
    ∃ content, EditM.copyBare h s = .ok (s.forest.plant content).1
        (s.withForest (s.forest.plant content).2) ∧
      EditM.copyBare h s' = .ok (s.forest.plant content).1
        (s'.withForest (s'.forest.plant content).2) := by
  obtain ⟨n, n', hn, hn', hcontent, hcopyable, -⟩ := hs.source hF hh
  have hrun' := copyBare_of_copyable hn' (hcontent.symm ▸ hcopyable)
  rw [hcontent, ← (hs.plant n.content).1] at hrun'
  exact ⟨n.content, copyBare_of_copyable hn hcopyable, hrun'⟩

/-- Pending copies that come to an end come to the same end in both sessions. -/
theorem copyPending (hs : Abreast F cs s s') (hF : F.WellFormed) (m : Nat)
    (pending : List (Handle × Handle)) (hsources : ∀ ab ∈ pending, F.CopiesClear cs ab.1)
    (htargets : ∀ ab ∈ pending, F.contains ab.2 = false ∧ s.forest.contains ab.2 = true)
    (hrun : EditM.copyPending m pending s = .ok () t) :
    ∃ t', EditM.copyPending m pending s' = .ok () t' ∧ Abreast F cs t t' := by
  induction m generalizing pending s s' with
  | zero =>
    cases pending with
    | nil =>
      cases hrun
      exact ⟨s', rfl, hs⟩
    | cons ab pending => exact nomatch hrun
  | succ m ih =>
    cases pending with
    | nil =>
      cases hrun
      exact ⟨s', rfl, hs⟩
    | cons ab pending =>
      obtain ⟨source, target⟩ := ab
      have hsource : F.CopiesClear cs source := hsources _ List.mem_cons_self
      obtain ⟨hfresh, htarget⟩ : F.contains target = false ∧ s.forest.contains target = true :=
        htargets _ List.mem_cons_self
      obtain ⟨content, hcopy, hcopy'⟩ := hs.copyBare hF hsource
      have hc := (hs.plant content).1
      have hattach := attachLast_plant hs.wellFormed htarget content
      have hattach' := attachLast_plant (hs.shed.wellFormed hs.wellFormed)
        ((hs.shed.contains_eq target).trans htarget) content
      rw [← hc] at hattach'
      have hnext := hs.link htarget hfresh content
      have hbud := hs.wellFormed.budded_link htarget content
      have hleaf := hs.old.not_contains hbud.fresh
      have hlive := fun k => hbud.contains (k := k) htarget
      have hcin := hbud.contains_leaf
      generalize (s.forest.plant content).1 = c at *
      generalize (s.forest.plant content).2.link target (s.forest.below target).length c = G at *
      generalize (s'.forest.plant content).2.link target (s'.forest.below target).length c = G' at *
      obtain ⟨-, -, -, -, -, -, hbelow, hbelow'⟩ := hnext.source hF hsource
      have hkids := query_children (s := s.withForest G) (hnext.old.contains hsource.1)
      have hkids' := query_children (s := s'.withForest G') (h := source)
        ((hnext.shed.contains_eq source).trans (hnext.old.contains hsource.1))
      rw [hbelow] at hkids
      rw [hbelow'] at hkids'
      rw [copyPending_cons m pending hcopy hattach hkids] at hrun
      rw [copyPending_cons m pending hcopy' hattach' hkids']
      refine ih hnext _ (fun ab hab => ?_) (fun ab hab => ?_) hrun
      · rcases List.mem_append.mp hab with hab | hab
        · obtain ⟨k, hk, rfl⟩ := List.mem_map.mp hab
          exact hsource.of_mem_below hF hk
        · exact hsources ab (List.mem_cons_of_mem _ hab)
      · rcases List.mem_append.mp hab with hab | hab
        · obtain ⟨k, hk, rfl⟩ := List.mem_map.mp hab
          exact ⟨hleaf, hcin⟩
        · exact (htargets ab (List.mem_cons_of_mem _ hab)).imp_right (hlive _)

/-- A copy that is made is made alike in both sessions. -/
theorem copy (hs : Abreast s.forest cs s s') (hx : s.forest.CopiesClear cs x)
    (hrun : EditM.copy x s = .ok y t) :
    ∃ t', EditM.copy x s' = .ok y t' ∧ Abreast s.forest cs t t' := by
  obtain ⟨content, hcopy, hcopy'⟩ := hs.copyBare hs.wellFormed hx
  obtain ⟨hc, hplant⟩ := hs.plant content
  have hsprout := hs.wellFormed.sprouted_plant content
  generalize (s.forest.plant content).1 = c at *
  generalize (s.forest.plant content).2 = G at *
  generalize (s'.forest.plant content).2 = G' at *
  rw [EditM.copy, bind_of_ok _ hcopy] at hrun
  obtain ⟨_, u, hguarded, hpure⟩ := bind_eq_ok.mp hrun
  cases hpure
  have hbelow := onFailure_eq_ok.mp hguarded
  obtain ⟨-, -, -, -, -, -, hkids, hkids'⟩ := hplant.source hs.wellFormed hx
  have hin := hplant.old.contains hx.1
  rw [copyBelow_eq hin, hkids] at hbelow
  obtain ⟨t', hrun', ht'⟩ := hplant.copyPending hs.wellFormed _ _
    (fun ab hab => by
      obtain ⟨k, hk, rfl⟩ := List.mem_map.mp hab
      exact hx.of_mem_below hs.wellFormed hk)
    (fun ab hab => by
      obtain ⟨k, hk, rfl⟩ := List.mem_map.mp hab
      exact ⟨hsprout.fresh, hsprout.contains⟩) hbelow
  refine ⟨t', ?_, ht'⟩
  have hbelow' : copyBelow x y (s'.withForest G') = .ok () t' := by
    rw [copyBelow_eq ((hplant.shed.contains_eq x).trans hin), hkids', ← hplant.layout.capacity]
    exact hrun'
  rw [EditM.copy, bind_of_ok _ hcopy', bind_of_ok _ (onFailure_of_ok _ hbelow')]
  rfl

/-- What is inserted for a node that stays clear of the missing children is the same in both, if they
are children of `p` and the node can be inserted there. -/
theorem sanitize {p : Handle} (hs : Abreast s.forest cs s s') (hp : s.forest.contains p = true)
    (hcs : ∀ k ∈ cs, k ∈ s.forest.below p)
    (hx : s.forest.Admits (RegularCopy.copyable · = true) p x) (hnot : ¬ s.forest.Covers x p)
    (hxcs : x ∉ cs) :
    ∃ y t t', EditM.sanitize x s = .ok y t ∧ EditM.sanitize x s' = .ok y t' ∧
      Abreast s.forest cs t t' ∧ t.forest.contains y = true ∧ t.forest.above? y = none ∧
      ¬ t.forest.Covers y p ∧ y ∉ cs ∧
      ∀ E : Forest C, (∀ k, E.contentOf? k = t.forest.contentOf? k) →
        (∀ k, k ≠ p → E.below k = t.forest.below k) → s.forest.StandsFor E y x := by
  obtain ⟨hlive, ⟨hroot, -⟩ | ⟨howned, hset, hcopyable⟩⟩ := hx
  · have hlive' := (hs.shed.contains_eq x).trans hlive
    have hroot' : s'.forest.above? x = none := by rw [hs.shed.above?_eq, if_neg hxcs, hroot]
    refine ⟨x, s, s', sanitize_of_root hlive hroot, sanitize_of_root hlive' hroot', hs, hlive, hroot,
      hnot, hxcs, fun E hcontent _ => Or.inl ⟨hroot, rfl, fun k => ?_⟩⟩
    exact Forest.contains_eq_of_contentOf?_eq (hcontent k)
  · obtain ⟨q, hq⟩ := Option.ne_none_iff_exists'.mp howned
    have hq' : s'.forest.above? x = some q := by rw [hs.shed.above?_eq, if_neg hxcs, hq]
    -- a missing child below `x` would have its parent `p` there too
    have hclear : s.forest.CopiesClear cs x := by
      refine ⟨hlive, fun k hk => ⟨fun hm => ?_, fun n hn => hcopyable k n hk hn⟩⟩
      rcases Relation.ReflTransGen.cases_tail hk with rfl | ⟨q', hcovers, hover⟩
      · exact hxcs hm
      · have hkp := hs.wellFormed.above?_eq_some_iff.mpr (hcs k hm)
        obtain rfl : q' = p := Option.some.inj (hover.symm.trans hkp)
        exact hnot hcovers
    obtain ⟨y, t, f, hrun, hsprout, hcopy⟩ := copy_run hs.wellFormed hlive hcopyable
    obtain ⟨t', hrun', ht'⟩ := hs.copy hclear hrun
    have hset' : s'.forest.settings.sanitize = .copy := by rw [hs.shed.settings, hset]
    refine ⟨y, t, t', ?_, ?_, ht', hsprout.contains, hsprout.root,
      hsprout.not_covers hs.wellFormed hp, hs.not_mem_of_fresh hsprout.fresh,
      fun E hcontent hbelow => Or.inr ⟨howned, f, hcopy.relink hp hcontent hbelow⟩⟩
    · rw [sanitize_of_copy hq hset, hrun]
    · rw [sanitize_of_copy hq' hset', hrun']

/-- A child before the missing ones is exchanged alike in both. -/
theorem setChild {p c : Handle} {i : Nat} (hs : Abreast s.forest cs s s')
    (hc : (s.forest.below p)[i]? = some c) (hcs : ∀ k ∈ cs, k ∈ s.forest.below p)
    (hbefore : ∀ k ∈ (s.forest.below p).take (i + 1), k ∉ cs)
    (hx : s.forest.Admits (RegularCopy.copyable · = true) p x) (hnot : ¬ s.forest.Covers x p)
    (hxcs : x ∉ cs) :
    ∃ y t t', EditM.setChild p i x s = .ok c t ∧ EditM.setChild p i x s' = .ok c t' ∧
      t.forest.WellFormed ∧ t.forest.Shed t'.forest cs ∧
      t.forest.below p = (s.forest.below p).set i y ∧ (t'.forest.below p)[i]? = some y ∧
      s.forest.StandsFor t'.forest y x := by
  have hp := Forest.contains_of_mem_below (List.mem_of_getElem? hc)
  have hplace : ((s.forest.below p).filter fun k => k ∉ cs)[i]? = some c := by
    rw [Forest.getElem?_filter fun k hk => decide_eq_true (hbefore k hk), hc]
  obtain ⟨y, t, t', hrun, hrun', ht, hy, hroot, hfree, hycs, hstands⟩ :=
    hs.sanitize hp hcs hx hnot hxcs
  have hbelow := ht.old.below_eq hp
  have hlive := ht.old.contains hp
  have hct : (t.forest.below p)[i]? = some c := by rw [hbelow, hc]
  have hct' : (t'.forest.below p)[i]? = some c := by rw [ht.shed.below_eq, hbelow, hplace]
  have hclive := ht.wellFormed.contains_of_mem_below (List.mem_of_getElem? hct)
  have hy' := (ht.shed.contains_eq y).trans hy
  have hroot' : t'.forest.above? y = none := by rw [ht.shed.above?_eq, if_neg hycs, hroot]
  have hshed := ht.shed.substitute hct hclive hy (by rwa [hbelow]) hycs
  refine ⟨y, t.withForest (t.forest.substitute p i y c),
    t'.withForest (t'.forest.substitute p i y c), ?_, ?_,
    ht.wellFormed.substitute hct hy hroot hfree, hshed, ?_, Forest.getElem?_substitute hct', ?_⟩
  · rw [setChild_eq hc, bind_of_ok _ hrun]
    exact substitute_run ht.wellFormed hct hy hroot hfree
  · rw [setChild_eq (by rw [hs.shed.below_eq, hplace]), bind_of_ok _ hrun']
    exact substitute_run (ht.shed.wellFormed ht.wellFormed) hct' hy' hroot' fun hcovers =>
      hfree (ht.shed.covers hcovers)
  · rw [Session.forest_withForest, Forest.below_substitute hlive, if_pos rfl, hbelow]
  · refine hstands _ (fun k => ?_) fun k hk => ?_
    · rw [Session.forest_withForest, Forest.contentOf?_substitute, ht.shed.contentOf?_eq]
    · rw [Session.forest_withForest,
        Forest.below_substitute ((ht.shed.contains_eq p).trans hlive), if_neg hk]
      exact ht.shed.below_of_ne ht.wellFormed (by rwa [hbelow]) hk

end Abreast
end EditM
end Grove
