import Grove.Proofs.Forest.Walk
import Grove.Proofs.Integrity
import Grove.Proofs.Rule.Program

/-!
# Surveys

A walk with a rule applies the rule to one node after the other. The forest grows meanwhile, but the
nodes that were there when the walk began stay as they were, so the walk goes through the subtree as
it was then. What comes next is kept in a pending list: a walk that meets nodes before their children
puts the children at the head of that list unless the rule says stop, and a walk that meets them
afterwards has the whole order in its list from the beginning.

A walk breaks off at the node whose turn it is when the rule fails; nothing that was recorded has been
carried out then.
-/

namespace Grove
set_option autoImplicit false

/-- One application of a rule: the node, whether the walk may go on below it, and the transforms that
the rule has recorded there. -/
structure Visit where
  node : Handle
  descend : Bool
  recorded : List Transform

namespace Rule
variable {C σ : Type} [ShallowCopy C] {rule : Rule C σ} {s t u : Session C} {m m' m'' : σ}
  {l l' : List Visit}

/-- One application that does not fail, from a session and a memory to a session and a memory. -/
def Visits (rule : Rule C σ) (s : Session C) (m : σ) (v : Visit) (t : Session C) (m' : σ) : Prop :=
  v.recorded = (rule.apply v.node m).recorded s ∧
    ∃ q, (rule.apply v.node m).run { toSession := s } =
      .ok (v.descend, m') { toSession := t, queue := q }

/-- A rule applied to one node after the other without failing. -/
inductive Course (rule : Rule C σ) : Session C → σ → List Visit → Session C → σ → Prop where
  | nil (s : Session C) (m : σ) : Course rule s m [] s m
  | cons {s t u : Session C} {m m' m'' : σ} {v : Visit} {l : List Visit} :
      rule.Visits s m v t m' → Course rule t m' l u m'' → Course rule s m (v :: l) u m''

def FailsAt (rule : Rule C σ) (h : Handle) (s : Session C) (m : σ) (e : Error) (t : Session C) :
    Prop :=
  ∃ q, (rule.apply h m).run { toSession := s } = .error e { toSession := t, queue := q }

/-- Whatever the rule remembers and wherever it is applied, its copies leave the nodes alone. -/
def CopiesAside (rule : Rule C σ) : Prop := ∀ h m, (rule.apply h m).CopiesAside

theorem Course.trans (hl : rule.Course s m l t m') (hl' : rule.Course t m' l' u m'') :
    rule.Course s m (l ++ l') u m'' := by
  induction hl with
  | nil s m => exact hl'
  | cons hv _ ih => exact .cons hv (ih hl')

theorem Visits.keepsNodes (hrule : rule.CopiesAside) {v : Visit} (hv : rule.Visits s m v t m') :
    KeepsNodes s t := by
  obtain ⟨-, q, hq⟩ := hv
  exact (RuleM.follows_run (hrule _ _)).of_ok hq

theorem Course.keepsNodes (hrule : rule.CopiesAside) (hl : rule.Course s m l t m') :
    KeepsNodes s t := by
  induction hl with
  | nil s m => exact refl_of KeepsNodes s
  | cons hv _ ih => exact trans_of KeepsNodes (hv.keepsNodes hrule) ih

theorem FailsAt.keepsNodes (hrule : rule.CopiesAside) {h : Handle} {e : Error}
    (he : rule.FailsAt h s m e t) : KeepsNodes s t := by
  obtain ⟨q, hq⟩ := he
  exact (RuleM.follows_run (hrule _ _)).of_error hq

end Rule

/-- The survey after some more visits. -/
def Survey.after {C σ : Type} (v : Survey C σ) (l : List Visit) (s : Session C) (m : σ) :
    Survey C σ where
  toSession := s
  queue := { id := v.queue.id, transforms := v.queue.transforms ++ l.flatMap Visit.recorded }
  visited := v.visited ++ l.map Visit.node
  memory := m

@[simp] theorem Survey.after_nil {C σ : Type} (v : Survey C σ) :
    v.after [] v.toSession v.memory = v := by
  simp [after]

@[simp] theorem Survey.after_after {C σ : Type} (v : Survey C σ) (l l' : List Visit)
    (s t : Session C) (m m' : σ) :
    (v.after l s m).after l' t m' = v.after (l ++ l') t m' := by
  simp [after]

/-- How visits use up a list of nodes, when a visit may put more nodes at the head of it. -/
inductive Agenda (opens : Visit → List Handle) : List Handle → List Visit → List Handle → Prop where
  | nil (p : List Handle) : Agenda opens p [] p
  | cons {v : Visit} {l : List Visit} {p q : List Handle} :
      Agenda opens (opens v ++ p) l q → Agenda opens (v.node :: p) (v :: l) q

namespace Agenda
variable {opens : Visit → List Handle} {l l' : List Visit} {p q r : List Handle}

theorem trans (hl : Agenda opens p l q) (hl' : Agenda opens q l' r) :
    Agenda opens p (l ++ l') r := by
  induction hl with
  | nil p => exact hl'
  | cons _ ih => exact .cons (ih hl')

theorem eq_of_closed (hl : Agenda (fun _ => []) p l q) : p = l.map Visit.node ++ q := by
  induction hl with
  | nil p => rfl
  | cons _ ih => rw [List.map_cons, List.cons_append, ← ih, List.nil_append]

end Agenda

namespace SurveyM

variable {C σ α : Type} {v : Survey C σ} {h : Handle}

theorem work_children {F : Forest C} (hext : F.Extends v.forest)
    (hh : F.contains h = true) :
    work (WorkM.edit (EditM.query fun F => F.children h)) v = .ok (F.below h) v := by
  have hquery := EditM.query_children (s := v.toSession) (hext.contains hh)
  rw [hext.below_eq hh] at hquery
  exact work_of_ok (WorkM.edit_of_ok hquery)

variable [ShallowCopy C] {rule : Rule C σ} {opens : Visit → List Handle} {p q r : List Handle}

/-- How a part of a walk comes out that begins with the pending nodes `p` and is to end with `q`. -/
inductive Ends (rule : Rule C σ) (opens : Visit → List Handle) (x : SurveyM C σ Unit)
    (v : Survey C σ) (p q : List Handle) : Prop where
  | done (l : List Visit) (s : Session C) (m : σ) :
      rule.Course v.toSession v.memory l s m → Agenda opens p l q →
        x v = .ok () (v.after l s m) → Ends rule opens x v p q
  /-- the rule fails at the first of the nodes that are pending then -/
  | broken (l : List Visit) (s : Session C) (m : σ) (h : Handle) (p' : List Handle) (e : Error)
      (u : Survey C σ) :
      rule.Course v.toSession v.memory l s m → Agenda opens p l (h :: p') →
        rule.FailsAt h s m e u.toSession → x v = .error e u →
          u.visited = v.visited ++ (l.map Visit.node ++ [h]) → Ends rule opens x v p q

theorem Ends.congr {x y : SurveyM C σ Unit} (hx : Ends rule opens x v p q) (hxy : y v = x v) :
    Ends rule opens y v p q := by
  cases hx with
  | done l s m hcourse hagenda hrun => exact .done l s m hcourse hagenda (hxy.trans hrun)
  | broken l s m h p' e u hcourse hagenda hfail hrun hvisited =>
    exact .broken l s m h p' e u hcourse hagenda hfail (hxy.trans hrun) hvisited

theorem Ends.bind {x y : SurveyM C σ Unit} (hx : Ends rule opens x v p q)
    (hy : ∀ l s m, rule.Course v.toSession v.memory l s m →
      Ends rule opens y (v.after l s m) q r) : Ends rule opens (x >>= fun _ => y) v p r := by
  cases hx with
  | broken l s m h p' e u hcourse hagenda hfail hrun hvisited =>
    exact .broken l s m h p' e u hcourse hagenda hfail (bind_of_error _ hrun) hvisited
  | done l s m hcourse hagenda hrun =>
    cases hy l s m hcourse with
    | done l' s' m' hcourse' hagenda' hrun' =>
      refine .done (l ++ l') s' m' (hcourse.trans hcourse') (hagenda.trans hagenda') ?_
      rw [bind_of_ok _ hrun, hrun', Survey.after_after]
    | broken l' s' m' h p' e u hcourse' hagenda' hfail hrun' hvisited =>
      refine .broken (l ++ l') s' m' h p' e u (hcourse.trans hcourse') (hagenda.trans hagenda')
        hfail ((bind_of_ok _ hrun).trans hrun') ?_
      rw [hvisited, Survey.after, List.map_append]
      simp only [List.append_assoc]

theorem applyAt_of_ok {b : Bool} {m : σ} {w : Workspace C}
    (hrun : (rule.apply h v.memory).run v.toWorkspace = .ok (b, m) w) :
    applyAt rule h v =
      .ok b { toWorkspace := w, visited := v.visited ++ [h], memory := m } := by
  have hwork := work_of_ok (v := { v with visited := v.visited ++ [h] }) hrun
  exact (bind_of_ok _ hwork).trans rfl

theorem applyAt_of_error {e : Error} {w : Workspace C}
    (hrun : (rule.apply h v.memory).run v.toWorkspace = .error e w) :
    applyAt rule h v =
      .error e { toWorkspace := w, visited := v.visited ++ [h], memory := v.memory } := by
  have hwork := work_of_error (v := { v with visited := v.visited ++ [h] }) hrun
  exact (bind_of_error _ hwork).trans rfl

/-- A rule is applied to a node as if nothing had been recorded yet, and what it records comes after
what has been. -/
theorem applyAt_outcome (rule : Rule C σ) (h : Handle) (v : Survey C σ) :
    (∃ w s m, w.node = h ∧ rule.Visits v.toSession v.memory w s m ∧
        applyAt rule h v = .ok w.descend (v.after [w] s m)) ∨
      ∃ e u, rule.FailsAt h v.toSession v.memory e u.toSession ∧ applyAt rule h v = .error e u ∧
        u.visited = v.visited ++ [h] := by
  cases hrun : (rule.apply h v.memory).run { toSession := v.toSession } with
  | ok bm w =>
    obtain ⟨b, m⟩ := bm
    let ts := (rule.apply h v.memory).recorded v.toSession
    have hafter : v.after [⟨h, b, ts⟩] w.toSession m =
        { toSession := w.toSession, queue := v.queue.append ts, visited := v.visited ++ [h]
          memory := m } := by
      simp [Survey.after, Queue.append]
    refine Or.inl ⟨⟨h, b, ts⟩, w.toSession, m, rfl, ⟨rfl, w.queue, hrun⟩, ?_⟩
    rw [hafter]
    exact applyAt_of_ok (RuleM.run_of_ok hrun v.queue)
  | error e w =>
    exact Or.inr ⟨e, _, ⟨w.queue, hrun⟩, applyAt_of_error (RuleM.run_of_error hrun v.queue), rfl⟩

theorem Ends.visit {x y : SurveyM C σ Unit} {w : Visit} {s : Session C} {m : σ}
    (hw : rule.Visits v.toSession v.memory w s m) (hxy : y v = x (v.after [w] s m))
    (hx : Ends rule opens x (v.after [w] s m) (opens w ++ p) q) :
    Ends rule opens y v (w.node :: p) q := by
  have hfirst : rule.Course v.toSession v.memory [w] s m := .cons hw (.nil s m)
  cases hx with
  | done l t m' hcourse hagenda hx =>
    refine .done (w :: l) t m' (hfirst.trans hcourse) (.cons hagenda) ?_
    rw [hxy, hx, Survey.after_after]
    rfl
  | broken l t m' k p' e u hcourse hagenda hfail hx hvisited =>
    refine .broken (w :: l) t m' k p' e u (hfirst.trans hcourse) (.cons hagenda) hfail
      (hxy.trans hx) ?_
    rw [hvisited]
    simp [Survey.after]

theorem Ends.keepsNodes {x : SurveyM C σ Unit} (hrule : rule.CopiesAside)
    (hx : Ends rule opens x v p q) : KeepsNodes v.toSession (final x v).toSession := by
  cases hx with
  | done l s m hcourse _ hrun =>
    rw [final_of_ok hrun]
    exact hcourse.keepsNodes hrule
  | broken l s m h p' e u hcourse _ hfail hrun _ =>
    rw [final_of_error hrun]
    exact trans_of KeepsNodes (hcourse.keepsNodes hrule) (hfail.keepsNodes hrule)

theorem Ends.pure (p : List Handle) : Ends rule opens (pure ()) v p p := by
  refine .done [] v.toSession v.memory (.nil _ _) (.nil p) ?_
  rw [Survey.after_nil]
  rfl

/-- What a visit puts at the head of the pending list when nodes are met before their children. -/
def descends (F : Forest C) (w : Visit) : List Handle := if w.descend then F.below w.node else []

variable {F : Forest C} {st : Stand} {n : Nat}

theorem preOrder_ends (hrule : rule.CopiesAside) (hst : F.Bears st) (hn : st.handles.length ≤ n)
    (hv : v.forest.WellFormed) (hext : F.Extends v.forest) (p : List Handle) :
    Ends rule (descends F) (st.tops.forM (preOrder rule n)) v (st.tops ++ p) p := by
  induction st generalizing n v p with
  | bare => exact .pure p
  | tree h b r ihb ihr =>
    obtain ⟨hh, hbelow, hb, hr⟩ := hst
    simp only [Stand.handles, List.length_cons, List.length_append] at hn
    obtain ⟨n, rfl⟩ : ∃ k, n = k + 1 := ⟨n - 1, by omega⟩
    -- the first tree of the stand, and then those beside it
    refine Ends.bind (q := r.tops ++ p) ?_ fun l s m hcourse => ?_
    · rcases applyAt_outcome rule h v with
        ⟨⟨h, d, ts⟩, s, m, rfl, hvisit, happly⟩ | ⟨e, u, hfail, happly, hu⟩
      · cases d with
        | false => exact .visit (x := pure ()) hvisit (bind_of_ok _ happly) (.pure _)
        | true =>
          obtain ⟨hs, hvs⟩ := hvisit.keepsNodes hrule hv
          have hkids := work_children (v := v.after [⟨h, true, ts⟩] s m) (hext.trans hvs) hh
          refine .visit (x := b.tops.forM (preOrder rule n)) hvisit ?_ ?_
          · rw [hbelow] at hkids
            exact (bind_of_ok _ happly).trans (bind_of_ok _ hkids)
          · have hopens : descends F ⟨h, true, ts⟩ = b.tops := by rw [descends, if_pos rfl, hbelow]
            rw [hopens]
            exact ihb hb (by omega) hs (hext.trans hvs) (r.tops ++ p)
      · exact .broken [] v.toSession v.memory h (r.tops ++ p) e u (.nil _ _) (.nil _) hfail
          (bind_of_error _ happly) hu
    · obtain ⟨hs, hvs⟩ := hcourse.keepsNodes hrule hv
      exact ihr hr (by omega) hs (hext.trans hvs) p

theorem postOrder_ends (hrule : rule.CopiesAside) (hst : F.Bears st) (hn : st.handles.length ≤ n)
    (hv : v.forest.WellFormed) (hext : F.Extends v.forest) (p : List Handle) :
    Ends rule (fun _ => []) (st.tops.forM (postOrder rule n)) v (st.postHandles ++ p) p := by
  induction st generalizing n v p with
  | bare => exact .pure p
  | tree h b r ihb ihr =>
    obtain ⟨hh, hbelow, hb, hr⟩ := hst
    simp only [Stand.handles, List.length_cons, List.length_append] at hn
    obtain ⟨n, rfl⟩ : ∃ k, n = k + 1 := ⟨n - 1, by omega⟩
    have hkids := work_children hext hh
    rw [hbelow] at hkids
    rw [Stand.postHandles, List.append_assoc, List.cons_append]
    refine Ends.bind (q := r.postHandles ++ p) ?_ fun l s m hcourse => ?_
    · have hpost : Ends rule (fun _ => [])
          (b.tops.forM (postOrder rule n) >>= fun _ => discard (applyAt rule h)) v
          (b.postHandles ++ h :: (r.postHandles ++ p)) (r.postHandles ++ p) := by
        refine Ends.bind (ihb hb (by omega) hv hext _) fun l s m hcourse => ?_
        rcases applyAt_outcome rule h (v.after l s m) with
          ⟨w, s', m', rfl, hvisit, happly⟩ | ⟨e, u, hfail, happly, hu⟩
        · exact .visit (x := pure ()) hvisit (discard_of_ok happly) (.pure _)
        · exact .broken [] s m h (r.postHandles ++ p) e u (.nil _ _) (.nil _) hfail
            (discard_of_error happly) hu
      exact hpost.congr (bind_of_ok _ hkids)
    · obtain ⟨hs, hvs⟩ := hcourse.keepsNodes hrule hv
      exact ihr hr (by omega) hs (hext.trans hvs) p

end SurveyM

/-! ## The order of the visits -/

/-- No visit before has stopped the walk above a node. -/
def Forest.Spared {C : Type} (F : Forest C) (l : List Visit) (k : Handle) : Prop :=
  ∀ w ∈ l, w.descend = false → ¬ F.Above w.node k

section
variable {C : Type} {F : Forest C} {h k : Handle} {b r st : Stand} {l : List Visit}

theorem Forest.WellFormed.not_above_of_beside (hF : F.WellFormed) (hst : F.Bears (.tree h b r))
    (hnd : (Stand.tree h b r).handles.Nodup) (hk : k ∈ r.handles) : ¬ F.Above h k := by
  intro hhk
  obtain ⟨-, hnd⟩ := List.nodup_cons.mp hnd
  exact (List.nodup_append.mp hnd).2.2 k ((hF.mem_below_iff hst).mpr hhk) k hk rfl

theorem Forest.WellFormed.not_above_top (hF : F.WellFormed) (hst : F.Bears (.tree h b r))
    (hnd : (Stand.tree h b r).handles.Nodup) (hk : k ∈ b.handles ++ r.handles) :
    ¬ F.Above k h := by
  intro hkh
  rcases List.mem_append.mp hk with hk | hk
  · exact hF.acyclic h (((hF.mem_below_iff hst).mp hk).trans hkh)
  · obtain ⟨hnot, -⟩ := List.nodup_cons.mp hnd
    exact hnot (List.mem_append_right _
      (hF.mem_handles_of_covers hst.2.2.2 hk hkh.to_reflTransGen))

/-- The visits made in the rest of a stand do not stop the walk at its first top. -/
theorem Forest.WellFormed.spared_top (hF : F.WellFormed) {w : Visit}
    (hst : F.Bears (.tree w.node b r)) (hnd : (Stand.tree w.node b r).handles.Nodup)
    (hl : ∀ v ∈ l, v.node ∈ b.handles ++ r.handles) : F.Spared (w :: l) w.node := by
  intro v hv _
  rcases List.mem_cons.mp hv with rfl | hv
  · exact hF.acyclic _
  · exact hF.not_above_top hst hnd (hl v hv)

open Classical in
/-- A walk that meets nodes before their children makes its visits in the order of the stand, but for
what is below the nodes where it was stopped. -/
theorem Forest.WellFormed.filter_spared (hF : F.WellFormed) {p q : List Handle}
    (hl : Agenda (SurveyM.descends F) p l q) (hst : F.Bears st) (htops : st.tops = p)
    (hnd : st.handles.Nodup) :
    ∃ left : Stand, left.tops = q ∧
      st.handles.filter (fun k => decide (F.Spared l k)) =
        l.map Visit.node ++ left.handles := by
  -- each visit takes the first top off the stand, and a stop what is below that top with it
  induction hl generalizing st with
  | nil p => exact ⟨st, htops, by simp [Forest.Spared]⟩
  | @cons w l p q hl ih =>
    cases st with
    | bare => exact nomatch htops
    | tree h b r =>
      obtain ⟨rfl, rfl⟩ : h = w.node ∧ r.tops = p := by simpa [Stand.tops] using htops
      obtain ⟨hh, hbelow, hb, hr⟩ := id hst
      have hnd' := (List.nodup_cons.mp hnd).2
      -- what is visited later is in what is left of the stand
      have hsub : ∀ {hs : List Handle} {left : Stand},
          hs.filter (fun k => decide (F.Spared l k)) = l.map Visit.node ++ left.handles →
            ∀ v ∈ l, v.node ∈ hs := by
        intro hs left heq v hv
        refine List.mem_of_mem_filter (p := fun k => decide (F.Spared l k)) ?_
        rw [heq]
        exact List.mem_append_left _ (List.mem_map_of_mem hv)
      cases hd : w.descend with
      | true =>
        have htops' : (b.append r).tops = SurveyM.descends F w ++ r.tops := by
          rw [Stand.tops_append, SurveyM.descends, hd, if_pos rfl, hbelow]
        obtain ⟨left, hleft, heq⟩ := ih (hb.append hr) htops' (by rwa [Stand.handles_append])
        rw [Stand.handles_append] at heq
        refine ⟨left, hleft, ?_⟩
        have htop := hF.spared_top hst hnd (hsub heq)
        have hspared : ∀ k, F.Spared (w :: l) k ↔ F.Spared l k := by
          simp [Forest.Spared, hd]
        rw [Stand.handles, List.filter_cons_of_pos (by simpa using htop), List.map_cons,
          List.cons_append, ← heq]
        simp only [hspared]
      | false =>
        have htops' : r.tops = SurveyM.descends F w ++ r.tops := by
          simp [SurveyM.descends, hd]
        obtain ⟨left, hleft, heq⟩ := ih hr htops' (List.nodup_append.mp hnd').2.1
        refine ⟨left, hleft, ?_⟩
        have htop := hF.spared_top hst hnd fun v hv => List.mem_append_right _ (hsub heq v hv)
        have hbelow_cut : b.handles.filter (fun k => decide (F.Spared (w :: l) k)) = [] := by
          refine List.filter_eq_nil_iff.mpr fun k hk hspared => ?_
          exact of_decide_eq_true hspared w List.mem_cons_self hd ((hF.mem_below_iff hst).mp hk)
        have hbeside : r.handles.filter (fun k => decide (F.Spared (w :: l) k)) =
            r.handles.filter (fun k => decide (F.Spared l k)) := by
          refine List.filter_congr fun k hk => ?_
          have hnot := hF.not_above_of_beside hst hnd hk
          refine decide_eq_decide.mpr ?_
          simp [Forest.Spared, hd, hnot]
        rw [Stand.handles, List.filter_cons_of_pos (by simpa using htop), List.filter_append,
          hbelow_cut, hbeside, heq, List.nil_append, List.map_cons, List.cons_append]

end

open Classical in
/-- The nodes that a walk from a node meets, in their order, as long as the rule does not fail and
stops the walk where the visits tell. -/
def Traversal.Orders {C : Type} (tr : Traversal) (F : Forest C) (root : Handle) (l : List Visit)
    (hs : List Handle) : Prop :=
  match tr with
  | .preOrder => ∃ ds, F.descendantsAndSelf root = .ok ds ∧
      hs = ds.filter fun k => decide (F.Spared l k)
  | .postOrder => F.postOrder root = .ok hs

namespace Traversal
variable {C σ : Type} [ShallowCopy C]

/-- How a rule surveys the subtree of a node, from a session and a memory that it begins with. -/
structure Surveys (tr : Traversal) (rule : Rule C σ) (s : Session C) (m : σ) (root : Handle) :
    Prop where
  /-- the rule is applied to all nodes in their order and the queue holds what it has recorded, or it
  fails at one of them, and neither then nor later is anything carried out -/
  outcome :
    (∃ l t m', rule.Course s m l t m' ∧ tr.Orders s.forest root l (l.map Visit.node) ∧
      tr.survey rule root (Survey.start s rule m) =
        .ok () { toSession := t
                 queue := { id := rule.name, transforms := l.flatMap Visit.recorded }
                 visited := l.map Visit.node
                 memory := m' }) ∨
    ∃ l t m' h e v hs, rule.Course s m l t m' ∧ rule.FailsAt h t m' e v.toSession ∧
      tr.Orders s.forest root l hs ∧ l.map Visit.node ++ [h] <+: hs ∧
      v.visited = l.map Visit.node ++ [h] ∧
      tr.survey rule root (Survey.start s rule m) = .error e v ∧
      tr.apply rule root (Survey.start s rule m) = .error e v
  /-- the nodes that were there before are as they were, whatever comes of it -/
  keeps : s.forest.Extends (final (tr.survey rule root) (Survey.start s rule m)).forest

variable {rule : Rule C σ} {s : Session C} {m : σ} {root : Handle}

/-- The pending list of a walk tells which nodes are still to come, and which of them is the next. -/
theorem Surveys.of_ends {tr : Traversal} {opens : Visit → List Handle} {p : List Handle}
    (hrule : rule.CopiesAside) (hF : s.forest.WellFormed)
    (hends : SurveyM.Ends rule opens (tr.survey rule root) (Survey.start s rule m) p [])
    (horder : ∀ l q, Agenda opens p l q → ∃ left, left.head? = q.head? ∧
      tr.Orders s.forest root l (l.map Visit.node ++ left)) :
    tr.Surveys rule s m root := by
  refine ⟨?_, (hends.keepsNodes hrule hF).2⟩
  cases hends with
  | done l t m' hcourse hagenda hrun =>
    obtain ⟨left, hnone, hleft⟩ := horder l [] hagenda
    obtain rfl : left = [] := List.head?_eq_none_iff.mp hnone
    rw [List.append_nil] at hleft
    refine Or.inl ⟨l, t, m', hcourse, hleft, hrun.trans ?_⟩
    simp [Survey.after, Survey.start]
  | broken l t m' h p' e v hcourse hagenda hfail hrun hvisited =>
    obtain ⟨left, hnext, hleft⟩ := horder l (h :: p') hagenda
    obtain ⟨rest, rfl⟩ : ∃ rest, left = h :: rest := List.head?_eq_some_iff.mp hnext
    refine Or.inr ⟨l, t, m', h, e, v, _, hcourse, hfail, hleft, ?_, ?_, hrun, ?_⟩
    · exact ⟨rest, by rw [List.append_assoc, List.singleton_append]⟩
    · rw [hvisited]
      rfl
    · exact bind_of_error _ hrun

theorem surveys (tr : Traversal) (hrule : rule.CopiesAside) (hF : s.forest.WellFormed)
    (hroot : s.forest.contains root = true) : tr.Surveys rule s m root := by
  obtain ⟨st, hst, htops, hnd⟩ := hF.exists_bears_single hroot
  have hlevels : st.handles.length ≤ s.forest.nodes.capacity + 1 :=
    Nat.le_succ_of_le (hst.length_le_capacity hnd)
  cases tr with
  | preOrder =>
    have hends := SurveyM.preOrder_ends (v := Survey.start s rule m) hrule hst hlevels hF
      (Forest.Extends.refl _) []
    rw [htops] at hends
    refine .of_ends hrule hF (hends.congr ?_) fun l q hagenda => ?_
    · exact congrFun (bind_pure_unit (x := SurveyM.preOrder rule _ root)).symm _
    · obtain ⟨left, htops', heq⟩ := hF.filter_spared hagenda hst htops hnd
      refine ⟨left.handles, ?_, st.handles, hst.descendantsAndSelf_eq htops hnd, heq.symm⟩
      rw [← htops']
      cases left <;> rfl
  | postOrder =>
    have hends := SurveyM.postOrder_ends (v := Survey.start s rule m) hrule hst hlevels hF
      (Forest.Extends.refl _) []
    rw [htops, List.append_nil] at hends
    refine .of_ends hrule hF (hends.congr ?_) fun l q hagenda => ⟨q, rfl, ?_⟩
    · exact congrFun (bind_pure_unit (x := SurveyM.postOrder rule _ root)).symm _
    · rw [← hagenda.eq_of_closed]
      exact hst.postOrder_eq htops hnd

end Traversal

/-- Any rule whose copies leave the nodes alone surveys the subtree of any node; with labels and with
plain contents that is every rule. -/
theorem surveys_of_rule :
    (∀ (C : Type) [ShallowCopy C] (σ : Type) (rule : Rule C σ), rule.CopiesAside →
      ∀ (tr : Traversal) (s : Session C) (m : σ) (root : Handle), s.forest.WellFormed →
        s.forest.contains root = true → tr.Surveys rule s m root) ∧
    (∀ (σ : Type) (rule : Rule Label σ) (tr : Traversal) (s : Session Label) (m : σ)
      (root : Handle), s.forest.WellFormed → s.forest.contains root = true →
        tr.Surveys rule s m root) ∧
    ∀ (σ : Type) (rule : Rule Plain σ) (tr : Traversal) (s : Session Plain) (m : σ)
      (root : Handle), s.forest.WellFormed → s.forest.contains root = true →
        tr.Surveys rule s m root :=
  ⟨fun _ _ _ _ hrule tr _ _ _ hF hroot => tr.surveys hrule hF hroot,
    fun _ _ tr _ _ _ hF hroot =>
      tr.surveys (fun _ _ => RuleM.copiesAside_of_regularCopy _) hF hroot,
    fun _ _ tr _ _ _ hF hroot =>
      tr.surveys (fun _ _ => RuleM.copiesAside_of_regularCopy _) hF hroot⟩

/-- Replaces each node by a new one, and goes on below the first one only. -/
def Rule.renewing : Rule Probe Nat where
  name := "renewing"
  apply h count := do
    let new ← RuleM.newNode ⟨.alpha, "new"⟩
    RuleM.push (.replace h new)
    return (count == 0, count + 1)

def Session.probes : Session Probe := (Session.fresh Probe {}).after
  [.create ⟨.alpha, "a"⟩, .create ⟨.same, "b"⟩, .create ⟨.fail, "c"⟩, .create ⟨.beta, "d"⟩,
    .addChild ⟨0, 0⟩ ⟨1, 0⟩, .addChild ⟨1, 0⟩ ⟨2, 0⟩, .addChild ⟨0, 0⟩ ⟨3, 0⟩]

/-- The rule stops at the second node, so the third one is not met. -/
theorem surveys_probes :
    Session.probes.forest.WellFormed ∧ Rule.renewing.CopiesAside ∧
      Traversal.preOrder.Surveys Rule.renewing Session.probes 0 ⟨0, 0⟩ ∧
        ∃ v, Traversal.survey .preOrder Rule.renewing ⟨0, 0⟩
            (Survey.start Session.probes Rule.renewing 0) = .ok () v ∧
          v.visited = [⟨0, 0⟩, ⟨1, 0⟩, ⟨3, 0⟩] ∧
          v.queue = { id := "renewing"
                      transforms := [.replace ⟨0, 0⟩ ⟨4, 0⟩, .replace ⟨1, 0⟩ ⟨5, 0⟩,
                        .replace ⟨3, 0⟩ ⟨6, 0⟩] } := by
  have hF : Session.probes.forest.WellFormed :=
    Session.wellFormed_after (Forest.wellFormed_empty {}) _
  have hrule : Rule.renewing.CopiesAside := fun _ _ _ => trivial
  exact ⟨hF, hrule, surveys_of_rule.1 Probe Nat _ hrule .preOrder _ 0 ⟨0, 0⟩ hF rfl, _, rfl, rfl, rfl⟩

end Grove
