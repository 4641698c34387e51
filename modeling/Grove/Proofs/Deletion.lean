import Grove.Proofs.Edit.Abreast
import Grove.Proofs.Forest.Descent
import Grove.Proofs.Queue
import Grove.Proofs.Rule.Survey

/-!
# Deletions

A deletion cuts a node off from its parent, and leaves a root as it is. So deletions do not depend on
one another: which nodes are cut off in the end is all that matters, and neither the order in which the
deletions stand in a queue nor how often they stand there makes a difference. A walk with a rule that
deletes the nodes it is looking for comes to the same forest whether it meets nodes before their children
or afterwards.
-/

namespace Grove
set_option autoImplicit false

namespace Forest
variable {C : Type} {F G : Forest C} {hs l : List Handle}

theorem SameNodes.eq (hG : F.SameNodes G) (hlayout : F.nodes.SameLayout G.nodes) : F = G := by
  cases F
  cases G
  obtain rfl := hlayout.eq_of_get? hG.get?
  obtain rfl := hG.settings
  rfl

theorem sameLayout_cut (F : Forest C) (h : Handle) : F.nodes.SameLayout (F.cut h).nodes := by
  unfold cut
  split
  · exact .refl _
  · rename_i p _
    exact (F.layout_update p _).trans ((F.setBelow p ((F.below p).erase h)).layout_update h _)

/-- Cuts off nodes one after the other. -/
def cutAll (F : Forest C) (hs : List Handle) : Forest C := hs.foldl cut F

theorem sameLayout_cutAll (F : Forest C) (hs : List Handle) :
    F.nodes.SameLayout (F.cutAll hs).nodes := by
  induction hs generalizing F with
  | nil => exact .refl _
  | cons h hs ih => exact (F.sameLayout_cut h).trans (ih (F.cut h))

theorem WellFormed.shed_cutAll (hF : F.WellFormed) (hs : List Handle) :
    F.Shed (F.cutAll hs) hs := by
  induction hs generalizing F with
  | nil => exact .refl F
  | cons h hs ih => exact (hF.shed_cut h).trans (ih (hF.cut h))

theorem WellFormed.cutAll_congr (hF : F.WellFormed) (hl : ∀ k, k ∈ l ↔ k ∈ hs) :
    F.cutAll l = F.cutAll hs := by
  apply SameNodes.eq
  · exact ((hF.shed_cutAll l).of_mem_iff fun k => (hl k).symm).sameNodes (hF.shed_cutAll hs)
  · exact (F.sameLayout_cutAll l).symm.trans (F.sameLayout_cutAll hs)

end Forest

namespace EditM
variable {C : Type} [ShallowCopy C] {s : Session C} {h : Handle} {hs : List Handle}

theorem delete_run (hF : s.forest.WellFormed) (hh : s.forest.contains h = true) :
    ∃ t, delete h s = .ok () t ∧ t.forest = s.forest.cut h := by
  have hparent := query_parent hh
  cases hp : s.forest.above? h with
  | none =>
    rw [hp] at hparent
    refine ⟨_, bind_of_ok _ hparent, ?_⟩
    exact (Forest.cut_of_root hp).symm
  | some p =>
    rw [hp] at hparent
    obtain ⟨i, hpos, hi⟩ := hF.positionIn_of_over hp
    have hposition : query (fun F => F.positionIn p h) s = .ok i s := query_of_ok hpos
    refine ⟨s.withForest (s.forest.cut h), ?_, rfl⟩
    simp only [delete, bind_of_ok _ hparent, bind_of_ok _ hposition,
      discard_of_ok (removeChild_of_getElem? hF hi)]

theorem deletions_run (hF : s.forest.WellFormed) (hhs : ∀ h ∈ hs, s.forest.contains h = true) :
    ∃ t, (hs.map TransformOn.delete).forM Transform.execute s = .ok () t ∧
      t.forest = s.forest.cutAll hs := by
  induction hs generalizing s with
  | nil => exact ⟨s, rfl, rfl⟩
  | cons h hs ih =>
    obtain ⟨t, hrun, ht⟩ := delete_run hF (hhs h List.mem_cons_self)
    -- a node that is still to be deleted is there after the first deletion, if only as a root
    have hrest : ∀ k ∈ hs, t.forest.contains k = true := by
      intro k hk
      rw [ht, Forest.contains_cut]
      exact hhs k (List.mem_cons_of_mem h hk)
    obtain ⟨u, hruns, hu⟩ := ih (ht ▸ hF.cut h) hrest
    refine ⟨u, (bind_of_ok _ (hrun : Transform.execute (.delete h) s = .ok () t)).trans hruns, ?_⟩
    rw [hu, ht]
    rfl

end EditM

/-! ## Queues of deletions -/

namespace WorkM
variable {C : Type} [ShallowCopy C] {s : Session C} {hs : List Handle}

/-- The deletions of the nodes `hs` come to the forest `G`, in whatever order and however often they
stand in a queue. -/
structure Deletes (s : Session C) (hs : List Handle) (G : Forest C) : Prop where
  wellFormed : G.WellFormed
  shed : s.forest.Shed G hs
  layout : s.forest.nodes.SameLayout G.nodes
  apply : ∀ (q : Queue) (l : List Handle), q.transforms = l.map .delete →
    (∀ k, k ∈ l ↔ k ∈ hs) → ∃ w, WorkM.apply { toSession := s, queue := q } = .ok () w ∧
      w.forest = G ∧ w.queue = q.cleared
  applyReverse : ∀ (q : Queue) (l : List Handle), q.transforms = l.map .delete →
    (∀ k, k ∈ l ↔ k ∈ hs) → ∃ w, WorkM.applyReverse { toSession := s, queue := q } = .ok () w ∧
      w.forest = G ∧ w.queue = q.cleared

theorem applyArranged_deletions (hF : s.forest.WellFormed)
    (hhs : ∀ h ∈ hs, s.forest.contains h = true) {arrange : List Transform → List Transform}
    {q : Queue} (hq : arrange q.transforms = hs.map .delete) :
    ∃ w, applyArranged arrange { toSession := s, queue := q } = .ok () w ∧
      w.forest = s.forest.cutAll hs ∧ w.queue = q.cleared := by
  obtain ⟨t, hrun, ht⟩ := EditM.deletions_run hF hhs
  rw [← hq] at hrun
  refine ⟨{ toSession := t, queue := q.cleared }, ?_, ht, rfl⟩
  rw [applyArranged_eq]
  exact edit_of_ok hrun

theorem deletes_cutAll (hF : s.forest.WellFormed) (hhs : ∀ h ∈ hs, s.forest.contains h = true) :
    Deletes s hs (s.forest.cutAll hs) := by
  have hall : ∀ (arrange : List Transform → List Transform) (q : Queue) (l : List Handle),
      arrange q.transforms = l.map .delete → (∀ k, k ∈ l ↔ k ∈ hs) →
        ∃ w, applyArranged arrange { toSession := s, queue := q } = .ok () w ∧
          w.forest = s.forest.cutAll hs ∧ w.queue = q.cleared := by
    intro arrange q l hq hl
    rw [← hF.cutAll_congr hl]
    exact applyArranged_deletions hF (fun h hh => hhs h ((hl h).mp hh)) hq
  refine ⟨(hF.shed_cutAll hs).wellFormed hF, hF.shed_cutAll hs, s.forest.sameLayout_cutAll hs,
    hall id, ?_⟩
  intro q l hq hl
  apply hall List.reverse q l.reverse
  · rw [hq, List.map_reverse]
  · intro k
    rw [List.mem_reverse, hl]

end WorkM

/-! ## Rules that delete -/

namespace Rule
variable {C σ : Type} [ShallowCopy C]

/-- At each node of the session the rule records the deletion of that node if `P` holds of it, and does
nothing else. -/
def DeletesWhere (rule : Rule C σ) (s : Session C) (P : Handle → Bool) : Prop :=
  ∀ h m, s.forest.contains h = true → ∃ b m', (rule.apply h m).run { toSession := s } =
    .ok (b, m') { toSession := s, queue := { transforms := if P h then [.delete h] else [] } }

def NeverStops (rule : Rule C σ) (s : Session C) : Prop :=
  ∀ h m b m' w, s.forest.contains h = true →
    (rule.apply h m).run { toSession := s } = .ok (b, m') w → b = true

end Rule

namespace SurveyM
variable {C σ : Type} {P : Handle → Bool} {s : Session C} {u v w : Survey C σ} {h : Handle}
  {hs l : List Handle} {st : Stand} {n : Nat}

/-- From the survey `v` to the survey `w` the deletions of those of the nodes `hs` are recorded of which
`P` holds. -/
structure Records (P : Handle → Bool) (v w : Survey C σ) (hs : List Handle) : Prop where
  session : w.toSession = v.toSession
  id : w.queue.id = v.queue.id
  transforms : w.queue.transforms = v.queue.transforms ++ (hs.filter P).map .delete

theorem Records.nil (P : Handle → Bool) (v : Survey C σ) : Records P v v [] :=
  ⟨rfl, rfl, (List.append_nil _).symm⟩

theorem Records.trans (hv : Records P v w hs) (hw : Records P w u l) :
    Records P v u (hs ++ l) := by
  refine ⟨hw.session.trans hv.session, hw.id.trans hv.id, ?_⟩
  rw [hw.transforms, hv.transforms, List.filter_append, List.map_append, List.append_assoc]

variable [ShallowCopy C] {rule : Rule C σ}

theorem applyAt_records (hrule : rule.DeletesWhere s P) (hv : v.toSession = s)
    (hh : s.forest.contains h = true) :
    ∃ b w, applyAt rule h v = .ok b w ∧ Records P v w [h] ∧ (rule.NeverStops s → b = true) := by
  subst hv
  obtain ⟨b, m, hrun⟩ := hrule h v.memory hh
  rcases applyAt_outcome rule h v with
    ⟨⟨h, d, ts⟩, t, m', rfl, ⟨hts, q, hrun'⟩, happly⟩ | ⟨e, t, ⟨q, hfail⟩, -, -⟩
  · obtain ⟨hbm, hw⟩ := EStateM.Result.ok.inj (hrun.symm.trans hrun')
    obtain ⟨rfl, rfl⟩ := Prod.mk.inj hbm
    obtain rfl : v.toSession = t := congrArg Workspace.toSession hw
    obtain rfl : (if P h then [.delete h] else []) = ts :=
      (RuleM.transforms_of_run hrun).trans hts.symm
    refine ⟨b, _, happly, ⟨rfl, rfl, ?_⟩, fun hstop => hstop h v.memory b m _ hh hrun⟩
    cases hP : P h <;> simp [Survey.after, hP]
  · cases hrun.symm.trans hfail

theorem preOrder_records (hrule : rule.DeletesWhere s P) (hstop : rule.NeverStops s)
    (hst : s.forest.Bears st) (hn : st.handles.length ≤ n) (hv : v.toSession = s) :
    ∃ w, st.tops.forM (preOrder rule n) v = .ok ⟨⟩ w ∧ Records P v w st.handles := by
  induction st generalizing n v with
  | bare => exact ⟨v, rfl, .nil P v⟩
  | tree h b r ihb ihr =>
    obtain ⟨hh, hbelow, hb, hr⟩ := hst
    simp only [Stand.handles, List.length_cons, List.length_append] at hn
    obtain ⟨n, rfl⟩ : ∃ k, n = k + 1 := ⟨n - 1, by omega⟩
    obtain ⟨d, w, happly, hw, hd⟩ := applyAt_records hrule hv hh
    obtain rfl := hd hstop
    have hws : w.toSession = s := hw.session.trans hv
    have hkids : work (WorkM.edit (EditM.query fun F => F.children h)) w = .ok b.tops w := by
      have hext : s.forest.Extends w.forest := hws ▸ .refl _
      exact hbelow ▸ work_children hext hh
    obtain ⟨x, hxrun, hx⟩ := ihb hb (by omega : b.handles.length ≤ n) hws
    obtain ⟨y, hyrun, hy⟩ := ihr hr (by omega : r.handles.length ≤ n + 1) (hx.session.trans hws)
    have hfirst : preOrder rule (n + 1) h v = .ok ⟨⟩ x := by
      simp only [preOrder, bind_of_ok _ happly, if_pos, bind_of_ok _ hkids, hxrun]
    exact ⟨y, (bind_of_ok _ hfirst).trans hyrun, (hw.trans hx).trans hy⟩

theorem postOrder_records (hrule : rule.DeletesWhere s P) (hst : s.forest.Bears st)
    (hn : st.handles.length ≤ n) (hv : v.toSession = s) :
    ∃ w, st.tops.forM (postOrder rule n) v = .ok ⟨⟩ w ∧ Records P v w st.postHandles := by
  induction st generalizing n v with
  | bare => exact ⟨v, rfl, .nil P v⟩
  | tree h b r ihb ihr =>
    obtain ⟨hh, hbelow, hb, hr⟩ := hst
    simp only [Stand.handles, List.length_cons, List.length_append] at hn
    obtain ⟨n, rfl⟩ : ∃ k, n = k + 1 := ⟨n - 1, by omega⟩
    have hkids : work (WorkM.edit (EditM.query fun F => F.children h)) v = .ok b.tops v := by
      have hext : s.forest.Extends v.forest := hv ▸ .refl _
      exact hbelow ▸ work_children hext hh
    obtain ⟨x, hxrun, hx⟩ := ihb hb (by omega : b.handles.length ≤ n) hv
    obtain ⟨d, y, happly, hy, -⟩ := applyAt_records hrule (hx.session.trans hv) hh
    obtain ⟨z, hzrun, hz⟩ := ihr hr (by omega : r.handles.length ≤ n + 1)
      (hy.session.trans (hx.session.trans hv))
    have hfirst : postOrder rule (n + 1) h v = .ok ⟨⟩ y := by
      simp only [postOrder, bind_of_ok _ hkids, bind_of_ok _ hxrun, discard_of_ok happly]
    exact ⟨z, (bind_of_ok _ hfirst).trans hzrun, hx.trans (hy.trans hz)⟩

end SurveyM

namespace Traversal
variable {C σ : Type} [ShallowCopy C] {rule : Rule C σ} {P : Handle → Bool} {s : Session C} {m : σ}
  {root : Handle}

/-- The walk of a rule that deletes comes to the forest `G`, and the queue is empty then. -/
def ComesTo (tr : Traversal) (rule : Rule C σ) (s : Session C) (m : σ) (root : Handle)
    (G : Forest C) : Prop :=
  ∃ v, tr.apply rule root (Survey.start s rule m) = .ok () v ∧ v.forest = G ∧
    v.queue = { id := rule.name, transforms := [] }

theorem comesTo_of_records {tr : Traversal} {v : Survey C σ} {G : Forest C} {hs l : List Handle}
    (hG : WorkM.Deletes s hs G) (hsurvey : tr.survey rule root (Survey.start s rule m) = .ok () v)
    (hv : SurveyM.Records P (Survey.start s rule m) v l) (hl : ∀ k, k ∈ l.filter P ↔ k ∈ hs) :
    tr.ComesTo rule s m root G := by
  have hqueue : v.queue = { id := rule.name, transforms := (l.filter P).map .delete } := by
    have hid : v.queue.id = rule.name := hv.id
    have htransforms : v.queue.transforms = (l.filter P).map .delete := hv.transforms
    rw [← hid, ← htransforms]
  have hs : v.toSession = s := hv.session
  have hw : v.toWorkspace = { toSession := s, queue := v.queue } := by rw [← hs]
  obtain ⟨w, hrun, hforest, hcleared⟩ := hG.apply v.queue (l.filter P) (by rw [hqueue]) hl
  rw [← hw] at hrun
  refine ⟨_, (bind_of_ok _ hsurvey).trans (SurveyM.work_of_ok hrun), hforest, ?_⟩
  exact hcleared.trans (by rw [hqueue, Queue.cleared])

theorem comesTo_of_deletesWhere (hF : s.forest.WellFormed) (hroot : s.forest.contains root = true)
    (hrule : rule.DeletesWhere s P) :
    ∃ ds G, s.forest.descendantsAndSelf root = .ok ds ∧ WorkM.Deletes s (ds.filter P) G ∧
      ∀ m, postOrder.ComesTo rule s m root G ∧
        (rule.NeverStops s → preOrder.ComesTo rule s m root G) := by
  obtain ⟨st, hst, htops, hnd⟩ := hF.exists_bears_single hroot
  have hlevels : st.handles.length ≤ s.forest.nodes.capacity + 1 :=
    Nat.le_succ_of_le (hst.length_le_capacity hnd)
  have hG : WorkM.Deletes s (st.handles.filter P) _ :=
    WorkM.deletes_cutAll hF fun h hh => hst.contains (List.mem_of_mem_filter hh)
  refine ⟨st.handles, _, hst.descendantsAndSelf_eq htops hnd, hG, ?_⟩
  intro m
  constructor
  · obtain ⟨v, hrun, hv⟩ :=
      SurveyM.postOrder_records (v := Survey.start s rule m) hrule hst hlevels rfl
    rw [htops] at hrun
    refine comesTo_of_records hG ?_ hv ?_
    · exact (congrFun (bind_pure_unit (x := SurveyM.postOrder rule _ root)).symm _).trans hrun
    · intro k
      rw [List.mem_filter, List.mem_filter, st.postHandles_perm.mem_iff]
  · intro hstop
    obtain ⟨v, hrun, hv⟩ :=
      SurveyM.preOrder_records (v := Survey.start s rule m) hrule hstop hst hlevels rfl
    rw [htops] at hrun
    refine comesTo_of_records hG ?_ hv (fun k => Iff.rfl)
    exact (congrFun (bind_pure_unit (x := SurveyM.preOrder rule _ root)).symm _).trans hrun

end Traversal

/-- Deletions of any nodes come to the same forest in whatever order they are carried out, and so does a
rule that deletes nodes, in whichever order it meets them. -/
theorem deletions_commute (C : Type) [ShallowCopy C] (s : Session C) (hF : s.forest.WellFormed) :
    (∀ hs : List Handle, (∀ h ∈ hs, s.forest.contains h = true) → ∃ G, WorkM.Deletes s hs G) ∧
    ∀ (σ : Type) (rule : Rule C σ) (P : Handle → Bool), rule.DeletesWhere s P →
      ∀ root, s.forest.contains root = true →
        ∃ ds G, s.forest.descendantsAndSelf root = .ok ds ∧ WorkM.Deletes s (ds.filter P) G ∧
          ∀ m, Traversal.postOrder.ComesTo rule s m root G ∧
            (rule.NeverStops s → Traversal.preOrder.ComesTo rule s m root G) :=
  ⟨fun _ hhs => ⟨_, WorkM.deletes_cutAll hF hhs⟩,
    fun _ _ _ hrule _ hroot => Traversal.comesTo_of_deletesWhere hF hroot hrule⟩

section
variable {C : Type} [ShallowCopy C]

/-- Deletes the nodes of which `P` holds, and goes on below them unless it is to stop there. -/
def Rule.pruning (P : Predicate C) (stop : Bool) : Rule C Unit where
  name := "pruning"
  apply h _ := do
    if ← RuleM.query fun F => return P F h then
      RuleM.push (.delete h)
      return (!stop, ())
    else
      return (true, ())

theorem Rule.pruning_run (P : Predicate C) (stop : Bool) (s : Session C) (h : Handle) (m : Unit) :
    ((Rule.pruning P stop).apply h m).run { toSession := s } =
      .ok (!(P s.forest h && stop), ())
        { toSession := s, queue := { transforms := if P s.forest h then [.delete h] else [] } } := by
  have hrun : ((Rule.pruning P stop).apply h m).run { toSession := s } =
      (if P s.forest h then .record (.delete h) (.done (!stop, ())) else .done (true, ()) :
        RuleM C (Bool × Unit)).run { toSession := s } := rfl
  rw [hrun]
  cases P s.forest h <;> rfl

theorem Rule.deletesWhere_pruning (P : Predicate C) (stop : Bool) (s : Session C) :
    (Rule.pruning P stop).DeletesWhere s (P s.forest) := by
  intro h m _
  exact ⟨_, (), Rule.pruning_run P stop s h m⟩

theorem Rule.neverStops_pruning (P : Predicate C) (s : Session C) :
    (Rule.pruning P false).NeverStops s := by
  intro h m b m' w _ hrun
  rw [Rule.pruning_run, Bool.and_false] at hrun
  exact (congrArg Prod.fst (EStateM.Result.ok.inj hrun).1).symm

end

def Session.orchard : Session Label := (Session.fresh Label {}).after
  [.create ⟨.block, "a"⟩, .create ⟨.leaf, "b"⟩, .create ⟨.block, "c"⟩, .create ⟨.leaf, "d"⟩,
    .create ⟨.leaf, "e"⟩, .addChild ⟨2, 0⟩ ⟨3, 0⟩, .addChildren ⟨0, 0⟩ [⟨1, 0⟩, ⟨2, 0⟩]]

/-- A node is deleted after its parent and once more before, and a root is deleted as well; a rule that
deletes the leaves does so in both orders. -/
theorem deletions_commute_orchard :
    Session.orchard.forest.WellFormed ∧
    (∃ G, WorkM.Deletes Session.orchard [⟨3, 0⟩, ⟨2, 0⟩, ⟨4, 0⟩, ⟨3, 0⟩] G) ∧
    ∃ ds G, Session.orchard.forest.descendantsAndSelf ⟨0, 0⟩ = .ok ds ∧
      WorkM.Deletes Session.orchard (ds.filter (Session.orchard.forest.isKind LabelKind.leaf)) G ∧
      ∀ tr : Traversal, tr.ComesTo (Rule.pruning (fun F => F.isKind LabelKind.leaf) false)
        Session.orchard () ⟨0, 0⟩ G := by
  have hF : Session.orchard.forest.WellFormed :=
    Session.wellFormed_after (Forest.wellFormed_empty {}) _
  obtain ⟨hdeletions, hrules⟩ := deletions_commute Label Session.orchard hF
  refine ⟨hF, hdeletions _ (by decide), ?_⟩
  obtain ⟨ds, G, hds, hG, hwalks⟩ := hrules Unit _ _
    (Rule.deletesWhere_pruning (fun F => F.isKind LabelKind.leaf) false _) ⟨0, 0⟩ rfl
  refine ⟨ds, G, hds, hG, ?_⟩
  intro tr
  obtain ⟨hpost, hpre⟩ := hwalks ()
  cases tr with
  | preOrder => exact hpre (Rule.neverStops_pruning _ _)
  | postOrder => exact hpost

end Grove
