import Grove.Proofs.Edit.Blind
import Grove.Proofs.Edit.Retain
import Grove.Proofs.Queue

/-!
# Nothing is lost, nothing is copied in silence

Only the freeing of a node loses nodes, and only a change of a content changes one. Nodes are made by
the edits that say so, and by insertions, and by these only if what is inserted has a parent at that
moment and the settings ask for a copy. What moves or removes nodes inserts parentless nodes only, so
it does not depend on the settings.
-/

namespace Grove
set_option autoImplicit false

/-! ## What is inserted -/

section
variable {C : Type} [ShallowCopy C]

/-- The session in which children are added, after the notice that they are the parent's own. -/
def Session.announced (s : Session C) (p : Handle) (xs : List Handle) : Session C :=
  if xs ≠ [] ∧ s.forest.contains p = true ∧ s.forest.below p = xs then
    { s with notices := s.notices ++ [.ownChildrenAdded (s.forest.describe p)] }
  else s

/-- The nodes that are inserted when last children are added one after the other, up to the first
that fails, each with the forest right before. -/
def EditM.additions (p : Handle) : List Handle → Session C → List (Forest C × Handle)
  | [], _ => []
  | x :: xs, s =>
    (s.forest, x) ::
      match EditM.addChild p x s with
      | .ok _ t => additions p xs t
      | .error _ _ => []

/-- The node that a transform inserts without moving it. -/
def Transform.inserted? : Transform → Option Handle
  | .replace _ x | .addChild _ x _ => some x
  | .moveBefore _ _ | .moveAfter _ _ | .delete _ | .swap _ _ _ => none

/-- The nodes that are inserted when transforms are carried out one after the other. -/
def Transform.insertions : List Transform → Session C → List (Forest C × Handle)
  | [], _ => []
  | t :: ts, s =>
    t.inserted?.toList.map (s.forest, ·) ++
      match t.execute s with
      | .ok _ u => insertions ts u
      | .error _ _ => []

/-- The node that a call of a cursor inserts. -/
def Cursor.Move.insertions : Cursor.Move C → Cursor C → List (Forest C × Handle)
  | .set x, c | .add x, c => [(c.session.forest, x)]
  | .replace x count, c =>
    match CursorM.removeBack (count - 1) c with
    | .ok _ d => [(d.session.forest, x)]
    | .error _ _ => []
  | _, _ => []

def Cursor.insertions : List (Cursor.Move C) → Cursor C → List (Forest C × Handle)
  | [], _ => []
  | m :: ms, c => m.insertions c ++ insertions ms (final m.run c)

/-- The nodes that an edit inserts without having detached them, each with the forest right before. -/
def Edit.insertions : Edit C → Session C → List (Forest C × Handle)
  | sanitize x, s | insertChild _ _ x, s | addChild _ x, s => [(s.forest, x)]
  | addChildLeftOf _ x _, s | addChildRightOf _ x _, s | setChild _ _ x, s => [(s.forest, x)]
  | replaceChild _ _ x, s | setChildAndRemove _ x _ _, s | setAtPath _ x _, s => [(s.forest, x)]
  | insertBeside _ _ x false, s | replace _ x false, s => [(s.forest, x)]
  | addChildren p xs, s => EditM.additions p xs (s.announced p xs)
  | setChildren p xs, s =>
    match EditM.removeChildren p s with
    | .ok _ t => EditM.additions p xs t
    | .error _ _ => []
  | execute t, s => Transform.insertions [t] s
  | iterate parent moves, s =>
    match Cursor.start s parent with
    | .ok c => Cursor.insertions moves c
    | .error _ => []
  | apply q, s => Transform.insertions q.transforms s
  | applyReverse q, s => Transform.insertions q.transforms.reverse s
  | visit rule memory root, s =>
    match (rule.strategy.getD s.forest.settings.traversal).survey rule root
        (Survey.start s rule memory) with
    | .ok _ v => Transform.insertions v.queue.transforms v.toSession
    | .error _ _ => []
  | _, _ => []

/-- A program that neither creates nor copies. -/
def RuleM.OnlyLooks {α : Type} : RuleM C α → Prop
  | .done _ | .fail _ => True
  | .look k => ∀ F, (k F).OnlyLooks
  | .create _ _ | .copy _ _ => False
  | .record _ k => k.OnlyLooks

def Rule.OnlyLooks {σ : Type} (rule : Rule C σ) : Prop :=
  ∀ h memory, (rule.apply h memory).OnlyLooks

/-- The session after a rule has walked a subtree. -/
def Rule.walked {σ : Type} (rule : Rule C σ) (t : Traversal) (memory : σ) (root : Handle)
    (s : Session C) : Session C :=
  (final (t.survey rule root) (Survey.start s rule memory)).toSession

/-- The edit makes new nodes, or lets a rule work that has made the node `k` on its walk. -/
def Edit.Makes : Edit C → Session C → Handle → Prop
  | create _, _, _ | copyShallow _, _, _ | copy _, _, _ => True
  | survey t rule memory root, s, k =>
    ¬ rule.OnlyLooks ∧ (rule.walked t memory root s).forest.contains k = true
  | visit rule memory root, s, k =>
    ¬ rule.OnlyLooks ∧ (rule.walked (rule.strategy.getD s.forest.settings.traversal) memory root
      s).forest.contains k = true
  | _, _, _ => False

end

/-! ## Insertions of parentless nodes are blind -/

/-- None of the inserted nodes has a parent when it is inserted. -/
def AllRoots {C : Type} (ms : List (Forest C × Handle)) : Prop := ∀ m ∈ ms, m.1.above? m.2 = none

theorem AllRoots.of_cons {C : Type} {F : Forest C} {x : Handle} {ms : List (Forest C × Handle)}
    (h : AllRoots ((F, x) :: ms)) : F.above? x = none := h _ List.mem_cons_self

section
variable {C : Type} [ShallowCopy C] {s : Session C}

theorem EditM.blind_addAll (p : Handle) (xs : List Handle) (hxs : AllRoots (additions p xs s)) :
    (xs.mapM (addChild p)).Blind s := by
  induction xs generalizing s with
  | nil =>
    rw [List.mapM_nil]
    exact .pure _
  | cons x xs ih =>
    rw [List.mapM_cons]
    refine .bind (.addChild hxs.of_cons p) fun y t ht => .bind (ih fun m hm => hxs m ?_)
      fun _ _ _ => .pure _
    refine List.mem_cons_of_mem _ ?_
    rw [ht]
    exact hm

theorem EditM.blind_addChildren (p : Handle) (xs : List Handle)
    (hxs : AllRoots (additions p xs (s.announced p xs))) : (addChildren p xs).Blind s := by
  have hstart : ∀ t, s.announced p xs = t → (xs.mapM (addChild p)).Blind t := fun t ht =>
    ht ▸ blind_addAll p xs hxs
  unfold addChildren
  split
  · rename_i hne
    refine .query_bind (fun _ _ => rfl) fun cs hcs => ?_
    obtain ⟨hp, hbelow⟩ := Forest.children_eq_ok hcs
    have hne : xs ≠ [] := by simpa using hne
    dsimp only
    split
    · rename_i heq
      refine .bind (.describe p) fun line u hu => .bind (.notify _) fun _ t ht => hstart t ?_
      cases hu
      cases ht
      rw [Session.announced, if_pos ⟨hne, hp, hbelow.symm.trans heq⟩]
    · rename_i heq
      exact hstart s (if_neg fun h => heq (hbelow.trans h.2.2))
  · rename_i hnil
    exact hstart s (if_neg fun h => h.1 (by simpa using hnil))

variable [BlindCopy C] [SafeCopy C]

theorem Transform.blind_execute (hF : s.forest.WellFormed) (t : Transform)
    (ht : ∀ x, t.inserted? = some x → s.forest.above? x = none) : (t.execute (C := C)).Blind s := by
  cases t with
  | replace base x => exact .discard (.replace hF base (.inr (ht x rfl)))
  | moveBefore base x => exact .discard (.insertBeside hF .before base (.inl rfl))
  | moveAfter base x => exact .discard (.insertBeside hF .after base (.inl rfl))
  | delete x => exact .delete x
  | addChild p x i? =>
    cases i? with
    | none => exact .discard (.addChild (ht x rfl) p)
    | some i => exact .discard (.insertChild (ht x rfl) p i)
  | swap a b subtrees => exact .discard (.swap hF a b subtrees)

theorem Transform.blind_forM (hF : s.forest.WellFormed) (ts : List Transform)
    (hts : AllRoots (insertions ts s)) : (ts.forM (execute (C := C))).Blind s := by
  induction ts generalizing s with
  | nil => exact .pure _
  | cons t ts ih =>
    refine .bind (t.blind_execute hF fun x hx => hts (s.forest, x) ?_) fun _ u hu => ih ?_ ?_
    · exact List.mem_append_left _ (by simp [hx])
    · exact (EditM.editLaw_keepsWellFormed.execute t).of_ok hu hF
    · refine fun m hm => hts m (List.mem_append_right _ ?_)
      rw [hu]
      exact hm

/-- An edit that is not special and inserts parentless nodes only is blind. What a cursor does may
depend on what it is told to look for, so its calls are taken one by one. -/
theorem Edit.blind_run (hF : s.forest.WellFormed) {e : Edit C} (he : ¬ e.IsSpecial)
    (hcursor : ∀ parent moves, e ≠ .iterate parent moves) (hroots : AllRoots (e.insertions s)) :
    e.run.Blind s := by
  cases e with
  | create content => exact absurd trivial he
  | setContent h f => exact absurd trivial he
  | copyShallow h => exact absurd trivial he
  | copy h => exact absurd trivial he
  | dispose h => exact absurd trivial he
  | survey t rule memory root => exact absurd trivial he
  | visit rule memory root => exact absurd trivial he
  | iterate parent moves => exact absurd rfl (hcursor parent moves)
  | sanitize x => exact .discard (.sanitize hroots.of_cons)
  | detach h => exact .detach h
  | insertChild p i x => exact .discard (.insertChild hroots.of_cons p i)
  | addChild p x => exact .discard (.addChild hroots.of_cons p)
  | addChildLeftOf p x y => exact .discard (.addChildLeftOf hroots.of_cons p y)
  | addChildRightOf p x y => exact .discard (.addChildRightOf hroots.of_cons p y)
  | addChildren p xs => exact .discard (EditM.blind_addChildren p xs hroots)
  | removeChild p i => exact .discard (.removeChild p i)
  | removeChildNode p c => exact .discard (.removeChildNode p c)
  | removeChildren p => exact .discard (.removeChildren p)
  | removeChildrenRange p start stop => exact .discard (.removeChildrenRange p start stop)
  | removeChildrenOfKind p k => exact .discard (.removeChildrenOfKind p k)
  | setChild p i x => exact .discard (.setChild hroots.of_cons p i)
  | replaceChild p old x => exact .discard (.replaceChild hroots.of_cons p old)
  | setChildren p xs =>
    refine .discard (.bind (.discard (.removeChildren p)) fun u t ht => ?_)
    refine EditM.blind_addAll p xs fun m hm => hroots m ?_
    cases h : EditM.removeChildren p s with
    | ok cs v =>
      cases (discard_of_ok h).symm.trans ht
      simpa only [Edit.insertions, h] using hm
    | error e v => exact nomatch (discard_of_error h).symm.trans ht
  | setChildAndRemove p x start stop =>
    exact .discard (.setChildAndRemove hroots.of_cons p start stop)
  | setAtPath root x path => exact .discard (.setAtPath hroots.of_cons root path)
  | insertBeside side base x move =>
    cases move with
    | false => exact .discard (.insertBeside hF side base (.inr hroots.of_cons))
    | true => exact .discard (.insertBeside hF side base (.inl rfl))
  | replace base x move =>
    cases move with
    | false => exact .discard (.replace hF base (.inr hroots.of_cons))
    | true => exact .discard (.replace hF base (.inl rfl))
  | delete base => exact .delete base
  | transplant base x => exact .discard (.transplant hF base)
  | swap a b subtrees => exact .discard (.swap hF a b subtrees)
  | execute t =>
    exact t.blind_execute hF fun x hx => hroots (s.forest, x) (by
      simp [Edit.insertions, Transform.insertions, hx])
  | apply q =>
    rw [Edit.run, WorkM.apply, EditM.withQueue_applyArranged]
    exact Transform.blind_forM hF _ hroots
  | applyReverse q =>
    rw [Edit.run, WorkM.applyReverse, EditM.withQueue_applyArranged]
    exact Transform.blind_forM hF _ hroots

end

/-! ## Nothing grows unasked -/

section
variable {C α : Type} [ShallowCopy C] [RegularCopy C] {s : Session C} {k : Handle}

/-- The settings of a session, but for the policy, which is to refuse owned nodes. -/
def Settings.rejecting (settings : Settings) : Settings := { settings with sanitize := .reject }

omit [ShallowCopy C] [RegularCopy C] in
theorem EditM.Blind.still {x : EditM C α} (hx : x.Blind s) (hF : s.forest.WellFormed)
    (hregime : ∀ F : Forest C, F.settings.sanitize ≠ .copy →
      Obeys (Retaining F False) (fun _ => True) Anything x)
    (hk : (final x s).forest.contains k = true) : s.forest.contains k = true := by
  have hfinal := (hx s.forest.settings.rejecting).final_eq
  have hretain := (hregime (s.withSettings s.forest.settings.rejecting).forest nofun).final
    (s := s.withSettings s.forest.settings.rejecting)
    (.refl (hF.congr (fun _ => rfl) fun _ => rfl))
  rw [hfinal] at hretain
  exact (hretain.covered k hk).resolve_right id

theorem EditM.editRegime_still {F : Forest C} (hF : F.settings.sanitize ≠ .copy) :
    EditRegime (Retaining F False) (fun _ => True) fun _ => True :=
  editRegime_retaining fun hcopy => absurd hcopy hF

omit [ShallowCopy C] [RegularCopy C] in
theorem CursorM.Blind.still {c : Cursor C} {x : CursorM C α} (hx : x.Blind c)
    (hF : c.session.forest.WellFormed)
    (hregime : ∀ F : Forest C, F.settings.sanitize ≠ .copy →
      Obeys (fun d : Cursor C => EditM.Retaining F False d.session ∧ True) (fun _ => True)
        Anything x)
    (hk : (final x c).session.forest.contains k = true) : c.session.forest.contains k = true := by
  have hfinal := (hx c.session.forest.settings.rejecting).final_eq
  have hretain := (hregime (c.withSettings c.session.forest.settings.rejecting).session.forest
    nofun).final (s := c.withSettings c.session.forest.settings.rejecting)
    ⟨.refl (hF.congr (fun _ => rfl) fun _ => rfl), trivial⟩
  rw [hfinal] at hretain
  exact (hretain.1.covered k hk).resolve_right id

/-- A call of a cursor that inserts no node with a parent makes no node. -/
theorem Cursor.Move.still (m : Cursor.Move C) {c : Cursor C} (hF : c.session.forest.WellFormed)
    (hm : AllRoots (m.insertions c)) (hk : (final m.run c).session.forest.contains k = true) :
    c.session.forest.contains k = true := by
  have hregime : ∀ F : Forest C, F.settings.sanitize ≠ .copy → ∀ m : Cursor.Move C,
      Obeys (fun d : Cursor C => EditM.Retaining F False d.session ∧ True) (fun _ => True)
        Anything m.run := fun F h m =>
    (EditM.editRegime_still h).cursor.move m fun _ _ => trivial
  have hroams : Cursor.Roams fun d => d.session = c.session :=
    ⟨fun d hd => d.next_aside.1.trans hd, fun d hd => d.previous_aside.1.trans hd⟩
  have hroam : ∀ {β : Type} {f : Cursor C → β × Cursor C}, (f c).2.session = c.session →
      (f c).2.session.forest.contains k = true → c.session.forest.contains k = true :=
    fun hsession h => hsession ▸ h
  cases m with
  | next => exact hroam (f := Cursor.next) (hroams.next c rfl) hk
  | previous => exact hroam (f := Cursor.previous) (hroams.previous c rfl) hk
  | back n => exact hroam (f := Cursor.back n) (Cursor.Roams.repeatMove hroams.previous n none rfl) hk
  | moveBy n => exact hroam (f := Cursor.moveBy n) (hroams.moveBy n rfl) hk
  | nextMatching P =>
    exact hroam (f := Cursor.nextMatching P) (hroams.nextMatchingFrom P _ rfl) hk
  | rest => exact hroam (f := Cursor.rest) (hroams.restFrom _ rfl) hk
  | remove =>
    exact (CursorM.Blind.discard .remove).still hF (fun F h => hregime F h .remove) hk
  | set x =>
    exact (CursorM.Blind.discard (.set hm.of_cons)).still hF (fun F h => hregime F h (.set x)) hk
  | add x =>
    exact (CursorM.Blind.discard (.add hm.of_cons)).still hF (fun F h => hregime F h (.add x)) hk
  | replace x count =>
    refine (CursorM.Blind.discard (.replace count fun u d hd => ?_)).still hF
      (fun F h => hregime F h (.replace x count)) hk
    rw [AllRoots, Cursor.Move.insertions, hd] at hm
    exact hm _ List.mem_cons_self

theorem Cursor.still (ms : List (Cursor.Move C)) {c : Cursor C} (hF : c.session.forest.WellFormed)
    (hms : AllRoots (Cursor.insertions ms c))
    (hk : (ms.foldl (fun c m => final m.run c) c).session.forest.contains k = true) :
    c.session.forest.contains k = true := by
  induction ms generalizing c with
  | nil => exact hk
  | cons m ms ih =>
    have hlaw := EditM.editLaw_keepsWellFormed.links c.session
    have hnext := ((hlaw.cursor.move m fun _ _ => trivial).final
      ⟨refl_of KeepsWellFormed c.session, trivial⟩).1 hF
    refine m.still hF (fun i hi => hms i (List.mem_append_left _ hi)) ?_
    exact ih hnext (fun i hi => hms i (List.mem_append_right _ hi)) hk

variable [BlindCopy C]

/-- An edit that is not special makes new nodes only under the policy that asks for copies, and only if
it inserts a node that has a parent at that moment. -/
theorem Edit.exists_owned (hF : s.forest.WellFormed) {e : Edit C} (he : ¬ e.IsSpecial)
    (hnew : (final e.run s).forest.contains k = true) (hold : s.forest.contains k = false) :
    s.forest.settings.sanitize = .copy ∧ ∃ m ∈ e.insertions s, m.1.above? m.2 ≠ none := by
  have hregime : ∀ F : Forest C, F.settings.sanitize ≠ .copy →
      Obeys (EditM.Retaining F False) (fun _ => True) Anything e.run := fun F h =>
    (EditM.editRegime_still h).run he fun _ _ => trivial
  refine ⟨?_, ?_⟩
  · by_contra hpolicy
    have hretain := (hregime s.forest hpolicy).final (.refl hF)
    exact absurd ((hretain.covered k hnew).resolve_right id) (by simp [hold])
  · by_contra hroots
    have hroots : AllRoots (e.insertions s) := fun m hm =>
      by_contra fun howned => hroots ⟨m, hm, howned⟩
    suffices s.forest.contains k = true from absurd this (by simp [hold])
    by_cases hcursor : ∃ parent moves, e = .iterate parent moves
    · obtain ⟨parent, moves, rfl⟩ := hcursor
      cases h : Cursor.start s parent with
      | ok c =>
        obtain rfl := Cursor.eq_of_start h
        simp only [Edit.insertions, h] at hroots
        simp only [Edit.run, final, EditM.iterate, h] at hnew
        exact Cursor.still moves hF hroots hnew
      | error err =>
        simpa only [Edit.run, final, EditM.iterate, h] using hnew
    · refine (Edit.blind_run hF he (fun parent moves h => ?_) hroots).still hF hregime hnew
      exact hcursor ⟨parent, moves, h⟩

end

/-! ## Rules at work -/

section
variable {C σ : Type} [ShallowCopy C] {s : Session C}

omit [ShallowCopy C] in
theorem final_withRule (rule : Rule C σ) (memory : σ) (x : SurveyM C σ Unit) (s : Session C) :
    final (EditM.withRule rule memory x) s = (final x (Survey.start s rule memory)).toSession := by
  cases h : x (Survey.start s rule memory) with
  | ok u v => simp only [final, EditM.withRule, h]
  | error e v => simp only [final, EditM.withRule, h]

theorem RuleM.OnlyLooks.obeys {α : Type} {x : RuleM C α} (hx : x.OnlyLooks) :
    Obeys (fun w : Workspace C => w.toSession = s) (fun _ => True) Anything x.run := by
  induction x with
  | done a => exact .pure trivial
  | fail e => exact .throw trivial
  | look k ih => exact .bind .get fun w _ => ih w.forest (hx w.forest)
  | create content k ih => exact hx.elim
  | copy h k ih => exact hx.elim
  | record t k ih => exact .bind (.modify fun w hw => hw) fun _ _ => ih hx

/-- A rule that neither creates nor copies leaves the session alone on its walk. -/
theorem Rule.OnlyLooks.walked_eq {rule : Rule C σ} (hrule : rule.OnlyLooks) (t : Traversal)
    (memory : σ) (root : Handle) (s : Session C) : rule.walked t memory root s = s :=
  (SurveyM.obeys_survey (I := (· = s)) (fun h m => (hrule h m).obeys) (fun _ _ => trivial) t
    root).final rfl

theorem Rule.final_visit {rule : Rule C σ} {memory : σ} {root : Handle} {u : Unit}
    {v : Survey C σ}
    (h : (rule.strategy.getD s.forest.settings.traversal).survey rule root
      (Survey.start s rule memory) = .ok u v) :
    final (EditM.withRule rule memory (rule.visit root)) s =
      final (EditM.withQueue v.queue WorkM.apply) v.toSession := by
  have hrun : rule.visit root (Survey.start s rule memory) = SurveyM.work WorkM.apply v :=
    bind_of_ok (fun _ => SurveyM.work WorkM.apply) h
  rw [final_withRule, final_congr hrun]
  have hwork : WorkM.apply { toSession := v.toSession, queue := v.queue } =
      WorkM.apply v.toWorkspace := rfl
  cases happly : WorkM.apply v.toWorkspace with
  | ok a w => simp only [final, SurveyM.work, EditM.withQueue, hwork, happly]
  | error e w => simp only [final, SurveyM.work, EditM.withQueue, hwork, happly]

variable [RegularCopy C]

theorem Rule.retains_walked (hF : s.forest.WellFormed) (rule : Rule C σ) (t : Traversal)
    (memory : σ) (root : Handle) :
    s.forest.Retains (rule.walked t memory root s).forest True :=
  ((EditM.makerRegime_retaining trivial).survey
    (fun h m => (rule.apply h m).failsOnly_of_forall fun _ => trivial) t root).final (.refl hF)

variable [BlindCopy C] {k : Handle}

theorem Rule.exists_owned (hF : s.forest.WellFormed) {rule : Rule C σ} {memory : σ} {root : Handle}
    (hnew : (final (Edit.visit rule memory root).run s).forest.contains k = true)
    (hold : s.forest.contains k = false) :
    (Edit.visit rule memory root).Makes s k ∨ s.forest.settings.sanitize = .copy ∧
      ∃ m ∈ (Edit.visit rule memory root).insertions s, m.1.above? m.2 ≠ none := by
  have hmade : (rule.walked (rule.strategy.getD s.forest.settings.traversal) memory root
      s).forest.contains k = true → (Edit.visit rule memory root).Makes s k := fun hk =>
    ⟨fun hlooks => absurd (hlooks.walked_eq _ memory root s ▸ hk) (by simp [hold]), hk⟩
  have hretain := Rule.retains_walked hF rule (rule.strategy.getD s.forest.settings.traversal) memory
    root
  cases h : (rule.strategy.getD s.forest.settings.traversal).survey rule root
      (Survey.start s rule memory) with
  | ok u v =>
    rw [Rule.walked, final_of_ok h] at hmade hretain
    rw [Edit.run, Rule.final_visit h] at hnew
    cases hv : v.forest.contains k with
    | true => exact .inl (hmade hv)
    | false =>
      obtain ⟨hpolicy, howned⟩ := Edit.exists_owned (e := .apply v.queue) hretain.wellFormed
        not_false hnew hv
      rw [hretain.settings] at hpolicy
      refine .inr ⟨hpolicy, ?_⟩
      simpa only [Edit.insertions, h] using howned
  | error e v =>
    rw [Rule.walked, final_of_error h] at hmade
    have hrun : rule.visit root (Survey.start s rule memory) = .error e v :=
      bind_of_error (fun _ => SurveyM.work WorkM.apply) h
    rw [Edit.run, final_withRule, final_of_error hrun] at hnew
    exact .inl (hmade hnew)

end

/-! ## Sessions -/

section
variable {C : Type} [ShallowCopy C]

/-- Edits of the session lose nothing, and make new nodes only where they say so. -/
structure Session.Retentive (s : Session C) : Prop where
  /-- only the freeing of a node makes a handle invalid -/
  live : ∀ step : Step C, (∀ h, step ≠ .edit (.dispose h)) → ∀ k, s.forest.contains k = true →
    (final step.run s).forest.contains k = true
  /-- only the change of its content changes the content of a node -/
  content : ∀ step : Step C, (∀ h, step ≠ .edit (.dispose h)) → ∀ k, s.forest.contains k = true →
    (∀ f, step ≠ .edit (.setContent k f)) →
      (final step.run s).forest.contentOf? k = s.forest.contentOf? k
  /-- a new node has been made by an edit that makes nodes, or for a node that was inserted while it
  had a parent, under the policy that asks for copies -/
  grown : ∀ (step : Step C) (k : Handle), (final step.run s).forest.contains k = true →
    s.forest.contains k = false → ∃ e, step = .edit e ∧ (e.Makes s k ∨
      s.forest.settings.sanitize = .copy ∧ ∃ m ∈ e.insertions s, m.1.above? m.2 ≠ none)

/-- What moves and what removes nodes does the same under all settings: it gives the same, fails alike,
and comes to the same nodes and notices. -/
structure Session.MovesBlindly (s : Session C) : Prop where
  insertBeside : ∀ side base x, (EditM.insertBeside side base x true).Blind s
  replace : ∀ base x, (EditM.replace base x true).Blind s
  transplant : ∀ base x, (EditM.transplant base x).Blind s
  swap : ∀ a b subtrees, (EditM.swap a b subtrees).Blind s
  delete : ∀ base, (EditM.delete base).Blind s
  detach : ∀ h, (EditM.detach h).Blind s
  removeChild : ∀ p i, (EditM.removeChild p i).Blind s
  removeChildNode : ∀ p c, (EditM.removeChildNode p c).Blind s
  removeChildren : ∀ p, (EditM.removeChildren p).Blind s
  removeChildrenRange : ∀ p start stop, (EditM.removeChildrenRange p start stop).Blind s
  removeChildrenOfKind : ∀ p k, (EditM.removeChildrenOfKind p k).Blind s
  cursorRemove : ∀ c : Cursor C, c.session = s → (CursorM.remove (C := C)).Blind c

variable [RegularCopy C] [BlindCopy C] {s : Session C}

theorem Session.movesBlindly (hF : s.forest.WellFormed) : s.MovesBlindly where
  insertBeside side base _ := .insertBeside hF side base (.inl rfl)
  replace base _ := .replace hF base (.inl rfl)
  transplant base _ := .transplant hF base
  swap a b subtrees := .swap hF a b subtrees
  delete base := .delete base
  detach h := .detach h
  removeChild p i := .removeChild p i
  removeChildNode p c := .removeChildNode p c
  removeChildren p := .removeChildren p
  removeChildrenRange p start stop := .removeChildrenRange p start stop
  removeChildrenOfKind p k := .removeChildrenOfKind p k
  cursorRemove _ _ := .remove

omit [RegularCopy C] [BlindCopy C] in
theorem EditM.setAsParentOf_retains (hF : s.forest.WellFormed) (p x k : Handle) :
    (final (setAsParentOf p x) s).forest.contains k = s.forest.contains k ∧
      (final (setAsParentOf p x) s).forest.contentOf? k = s.forest.contentOf? k := by
  rcases setAsParentOf_outcome (p := p) (x := x) hF with ⟨-, -, -, -, hrun⟩ | ⟨e, hrun⟩
  · rw [final_of_ok hrun]
    simp
  · rw [final_of_error hrun]
    exact ⟨rfl, rfl⟩

omit [RegularCopy C] [BlindCopy C] in
theorem EditM.contains_of_dispose (hF : s.forest.WellFormed) {h k : Handle}
    (hk : (final (Edit.dispose h).run s).forest.contains k = true) :
    s.forest.contains k = true := by
  cases hh : s.forest.contains h with
  | false => rwa [Edit.run, final_of_error (discard_of_error (dispose_of_not_contains hh))] at hk
  | true =>
    cases hp : s.forest.above? h with
    | some p => rwa [Edit.run, final_of_error (discard_of_error (dispose_of_owned hp))] at hk
    | none =>
      obtain ⟨ds, -, -, -, hrun⟩ := dispose_of_root hF hh hp
      rw [Edit.run, final_of_ok (discard_of_ok hrun), Session.forest_withForest,
        Forest.contains_uproot] at hk
      exact hk.2

omit [BlindCopy C] in
theorem Step.retains (hF : s.forest.WellFormed) (step : Step C)
    (hdispose : ∀ h, step ≠ .edit (.dispose h)) {k : Handle} (hk : s.forest.contains k = true) :
    (final step.run s).forest.contains k = true ∧
      ((∀ f, step ≠ .edit (.setContent k f)) →
        (final step.run s).forest.contentOf? k = s.forest.contentOf? k) := by
  cases step with
  | setAsParentOf p x =>
    obtain ⟨hlive, hcontent⟩ := EditM.setAsParentOf_retains hF p x k
    exact ⟨hlive.trans hk, fun _ => hcontent⟩
  | edit e =>
    by_cases hset : ∃ h f, e = .setContent h f
    · obtain ⟨h, f, rfl⟩ := hset
      obtain ⟨hlive, hcontent⟩ := EditM.setContent_retains h f s hk
      exact ⟨hlive, fun hne => hcontent fun heq => hne f (heq ▸ rfl)⟩
    · have hretain := e.retains hF (fun h he => hdispose h (he ▸ rfl))
        fun h f he => hset ⟨h, f, he⟩
      exact ⟨hretain.contains hk, fun _ => hretain.contentOf?_eq k hk⟩

theorem Edit.grown (hF : s.forest.WellFormed) (e : Edit C) {k : Handle}
    (hnew : (final e.run s).forest.contains k = true) (hold : s.forest.contains k = false) :
    e.Makes s k ∨ s.forest.settings.sanitize = .copy ∧
      ∃ m ∈ e.insertions s, m.1.above? m.2 ≠ none := by
  have hplain (he : ¬ e.IsSpecial) := Edit.exists_owned hF he hnew hold
  cases e with
  | create content => exact .inl trivial
  | copyShallow h => exact .inl trivial
  | copy h => exact .inl trivial
  | setContent h f =>
    cases hh : s.forest.contains h with
    | false =>
      rw [Edit.run, final_of_error (EditM.setContent_of_not_contains f hh), hold] at hnew
      exact nomatch hnew
    | true =>
      rw [Edit.run, final_of_ok (EditM.setContent_of_contains f hh)] at hnew
      simp [hold] at hnew
  | dispose h =>
    exact absurd (EditM.contains_of_dispose hF hnew) (by simp [hold])
  | survey t rule memory root =>
    refine .inl ⟨fun hlooks => ?_, ?_⟩
    · rw [Edit.run, final_withRule] at hnew
      have hsame := hlooks.walked_eq t memory root s
      rw [Rule.walked] at hsame
      rw [hsame, hold] at hnew
      exact nomatch hnew
    · rwa [Edit.run, final_withRule] at hnew
  | visit rule memory root => exact Rule.exists_owned hF hnew hold
  | _ => exact .inr (hplain not_false)

theorem Session.retentive (hF : s.forest.WellFormed) : s.Retentive where
  live step hdispose _ hk := (step.retains hF hdispose hk).1
  content step hdispose _ hk hcontent := (step.retains hF hdispose hk).2 hcontent
  grown step k hnew hold := by
    cases step with
    | edit e => exact ⟨e, rfl, e.grown hF hnew hold⟩
    | setAsParentOf p x =>
      rw [Step.run, (EditM.setAsParentOf_retains hF p x k).1, hold] at hnew
      exact nomatch hnew

end

/-- With labels as with plain contents, edits lose nothing and make no nodes unasked, and moves and
removals do not look at the settings. -/
theorem nothing_lost_or_copied_unasked :
    (∀ s : Session Label, s.forest.WellFormed → s.Retentive ∧ s.MovesBlindly) ∧
    ∀ s : Session Plain, s.forest.WellFormed → s.Retentive ∧ s.MovesBlindly :=
  ⟨fun _ hF => ⟨Session.retentive hF, Session.movesBlindly hF⟩,
    fun _ hF => ⟨Session.retentive hF, Session.movesBlindly hF⟩⟩

def Session.hedge : Session Label := (Session.fresh Label {}).after
  [.create ⟨.block, "a"⟩, .create ⟨.leaf, "b"⟩, .create ⟨.block, "c"⟩, .addChild ⟨0, 0⟩ ⟨1, 0⟩]

/-- The removed leaf stays live with its content; the new node below the second block is there because
the leaf had a parent; and the second block is moved to the leaf under either policy. -/
theorem nothing_lost_in_hedge :
    Session.hedge.forest.WellFormed ∧
    ((final (Edit.removeChildren ⟨0, 0⟩).run Session.hedge).forest.contains ⟨1, 0⟩ = true ∧
      (final (Edit.removeChildren ⟨0, 0⟩).run Session.hedge).forest.contentOf? ⟨1, 0⟩ =
        Session.hedge.forest.contentOf? ⟨1, 0⟩) ∧
    (∃ m ∈ (Edit.addChild ⟨2, 0⟩ ⟨1, 0⟩).insertions Session.hedge, m.1.above? m.2 ≠ none) ∧
    Commutes (Session.withSettings { sanitize := .reject })
      (EditM.insertBeside .before ⟨1, 0⟩ ⟨2, 0⟩ true) Session.hedge := by
  have hF : Session.hedge.forest.WellFormed :=
    Session.wellFormed_after (Forest.wellFormed_empty {}) _
  obtain ⟨hretain, hblind⟩ := nothing_lost_or_copied_unasked.1 Session.hedge hF
  have hremove : ∀ h : Handle, Step.edit (Edit.removeChildren ⟨0, 0⟩) ≠
      .edit (.dispose h : Edit Label) := nofun
  refine ⟨hF, ⟨?_, ?_⟩, ?_, hblind.insertBeside .before ⟨1, 0⟩ ⟨2, 0⟩ _⟩
  · exact hretain.live (.edit (.removeChildren ⟨0, 0⟩)) hremove ⟨1, 0⟩ rfl
  · exact hretain.content (.edit (.removeChildren ⟨0, 0⟩)) hremove ⟨1, 0⟩ rfl nofun
  · obtain ⟨e, he, hmakes | ⟨-, howned⟩⟩ :=
      hretain.grown (.edit (.addChild ⟨2, 0⟩ ⟨1, 0⟩)) ⟨3, 0⟩ rfl rfl
    · cases he
      exact hmakes.elim
    · cases he
      exact howned

end Grove
