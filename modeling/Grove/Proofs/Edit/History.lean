import Grove.Proofs.Edit.Follow
import Grove.Proofs.Edit.Held

/-!
# Histories

A history is a finite sequence of edits, each carried out where the one before it ended, whether or not
that one failed. A cursor, a queue or a rule at work holds the session for a while; what it does to
the session is one edit.
-/

namespace Grove
set_option autoImplicit false

namespace EditM
variable {C σ : Type} [ShallowCopy C]

/-- Edits the children of a node with a cursor; calls that fail do not end it. -/
def iterate (parent : Handle) (moves : List (Cursor.Move C)) : EditM C Unit := fun s =>
  match Cursor.start s parent with
  | .ok c => .ok () (moves.foldl (fun c m => final m.run c) c).session
  | .error e => .error e s

/-- Runs a program of a workspace that starts with the given queue. -/
def withQueue (q : Queue) (x : WorkM C Unit) : EditM C Unit := fun s =>
  match x { toSession := s, queue := q } with
  | .ok _ w => .ok () w.toSession
  | .error e w => .error e w.toSession

/-- Runs a program of a survey that a rule is about to start. -/
def withRule (rule : Rule C σ) (memory : σ) (x : SurveyM C σ Unit) : EditM C Unit := fun s =>
  match x (Survey.start s rule memory) with
  | .ok _ v => .ok () v.toSession
  | .error e v => .error e v.toSession

end EditM

/-- The edits that a session offers, but for the one that writes only one end of a link. -/
inductive Edit (C : Type) [Content C] : Type 1 where
  | create (content : C)
  | setContent (h : Handle) (f : C → C)
  | copyShallow (h : Handle)
  | copy (h : Handle)
  | sanitize (h : Handle)
  | dispose (h : Handle)
  | detach (h : Handle)
  | insertChild (p : Handle) (i : Nat) (x : Handle)
  | addChild (p x : Handle)
  | addChildLeftOf (p x y : Handle)
  | addChildRightOf (p x y : Handle)
  | addChildren (p : Handle) (xs : List Handle)
  | removeChild (p : Handle) (i : Nat)
  | removeChildNode (p c : Handle)
  | removeChildren (p : Handle)
  | removeChildrenRange (p : Handle) (start stop : Nat)
  | removeChildrenOfKind (p : Handle) (k : Kind C)
  | setChild (p : Handle) (i : Nat) (x : Handle)
  | replaceChild (p old x : Handle)
  | setChildren (p : Handle) (xs : List Handle)
  | setChildAndRemove (p x : Handle) (start stop : Nat)
  | setAtPath (root x : Handle) (path : List Nat)
  | insertBeside (side : Side) (base x : Handle) (move : Bool)
  | replace (base x : Handle) (move : Bool)
  | delete (base : Handle)
  | transplant (base x : Handle)
  | swap (a b : Handle) (subtrees : Bool)
  | execute (t : Transform)
  | iterate (parent : Handle) (moves : List (Cursor.Move C))
  | apply (q : Queue)
  | applyReverse (q : Queue)
  | survey {σ : Type} (t : Traversal) (rule : Rule C σ) (memory : σ) (root : Handle)
  | visit {σ : Type} (rule : Rule C σ) (memory : σ) (root : Handle)

namespace Edit
variable {C : Type} [ShallowCopy C]

/-- Carries out an edit; what it tells is dropped. -/
def run : Edit C → EditM C Unit
  | create content => discard (EditM.create content)
  | setContent h f => EditM.setContent h f
  | copyShallow h => discard (EditM.copyShallow h)
  | copy h => discard (EditM.copy h)
  | sanitize h => discard (EditM.sanitize h)
  | dispose h => discard (EditM.dispose h)
  | detach h => EditM.detach h
  | insertChild p i x => discard (EditM.insertChild p i x)
  | addChild p x => discard (EditM.addChild p x)
  | addChildLeftOf p x y => discard (EditM.addChildLeftOf p x y)
  | addChildRightOf p x y => discard (EditM.addChildRightOf p x y)
  | addChildren p xs => discard (EditM.addChildren p xs)
  | removeChild p i => discard (EditM.removeChild p i)
  | removeChildNode p c => discard (EditM.removeChildNode p c)
  | removeChildren p => discard (EditM.removeChildren p)
  | removeChildrenRange p start stop => discard (EditM.removeChildrenRange p start stop)
  | removeChildrenOfKind p k => discard (EditM.removeChildrenOfKind p k)
  | setChild p i x => discard (EditM.setChild p i x)
  | replaceChild p old x => discard (EditM.replaceChild p old x)
  | setChildren p xs => discard (EditM.setChildren p xs)
  | setChildAndRemove p x start stop => discard (EditM.setChildAndRemove p x start stop)
  | setAtPath root x path => discard (EditM.setAtPath root x path)
  | insertBeside side base x move => discard (EditM.insertBeside side base x move)
  | replace base x move => discard (EditM.replace base x move)
  | delete base => EditM.delete base
  | transplant base x => discard (EditM.transplant base x)
  | swap a b subtrees => discard (EditM.swap a b subtrees)
  | execute t => t.execute
  | iterate parent moves => EditM.iterate parent moves
  | apply q => EditM.withQueue q WorkM.apply
  | applyReverse q => EditM.withQueue q WorkM.applyReverse
  | survey t rule memory root => EditM.withRule rule memory (t.survey rule root)
  | visit rule memory root => EditM.withRule rule memory (rule.visit root)

end Edit

def Session.after {C : Type} [ShallowCopy C] (s : Session C) (es : List (Edit C)) : Session C :=
  es.foldl (fun s e => final e.run s) s

/-- An edit, or the call that writes only one end of a link. -/
inductive Step (C : Type) [Content C] : Type 1 where
  | edit (e : Edit C)
  | setAsParentOf (p x : Handle)

def Step.run {C : Type} [ShallowCopy C] : Step C → EditM C Unit
  | edit e => e.run
  | setAsParentOf p x => EditM.setAsParentOf p x

def Session.afterSteps {C : Type} [ShallowCopy C] (s : Session C) (steps : List (Step C)) :
    Session C :=
  steps.foldl (fun s step => final step.run s) s

/-! ## What an edit works on -/

/-- The transforms that a rule records on its walk through a subtree; none if the walk fails. -/
def Rule.recorded {C σ : Type} [ShallowCopy C] (rule : Rule C σ) (memory : σ) (root : Handle)
    (s : Session C) : List Transform :=
  match (rule.strategy.getD s.forest.settings.traversal).survey rule root
      (Survey.start s rule memory) with
  | .ok _ v => v.queue.transforms
  | .error _ _ => []

namespace Edit
variable {C : Type} [ShallowCopy C]

/-- The nodes that the call of an edit names. -/
def named : Edit C → List Handle
  | create _ => []
  | setContent h _ | copyShallow h | copy h | sanitize h | dispose h | detach h => [h]
  | insertChild p _ x | addChild p x | setChild p _ x => [p, x]
  | addChildLeftOf p x y | addChildRightOf p x y | replaceChild p y x => [p, x, y]
  | addChildren p xs | setChildren p xs => p :: xs
  | removeChild p _ | removeChildren p | removeChildrenRange p _ _ | removeChildrenOfKind p _ => [p]
  | removeChildNode p c => [p, c]
  | setChildAndRemove p x _ _ => [p, x]
  | setAtPath root x _ => [root, x]
  | insertBeside _ base x _ | replace base x _ | transplant base x => [base, x]
  | delete base => [base]
  | swap a b _ => [a, b]
  | execute t => t.operands
  | iterate parent moves => parent :: moves.flatMap Cursor.Move.operands
  | apply q | applyReverse q => q.transforms.flatMap TransformOn.operands
  | survey _ _ _ root | visit _ _ root => [root]

/-- The nodes that the transforms name that a rule records while the edit is carried out. -/
def noted : Edit C → Session C → List Handle
  | visit rule memory root, s => (rule.recorded memory root s).flatMap TransformOn.operands
  | _, _ => []

def operands (e : Edit C) (s : Session C) : List Handle := e.named ++ e.noted s

/-- An edit that does what the others do not: it makes a node, changes a content, frees a node or
lets a rule work. -/
def IsSpecial : Edit C → Prop
  | create _ | setContent _ _ | copyShallow _ | copy _ | dispose _ => True
  | survey _ _ _ _ | visit _ _ _ => True
  | _ => False

/-- The rule that the edit lets work, if any, fails by itself only in this way. -/
def FailsOnly (E : Error → Prop) : Edit C → Prop
  | survey _ rule _ _ | visit rule _ _ => rule.FailsOnly E
  | _ => True

theorem failsOnly_of_forall {E : Error → Prop} (hE : ∀ e, E e) (e : Edit C) : e.FailsOnly E := by
  cases e with
  | survey t rule memory root => exact fun h m => (rule.apply h m).failsOnly_of_forall hE
  | visit rule memory root => exact fun h m => (rule.apply h m).failsOnly_of_forall hE
  | _ => trivial

end Edit

/-! ## Edits under a regime -/

section Held
variable {C σ : Type} {I : Session C → Prop} {E : Error → Prop}

theorem Obeys.withQueue {K : Queue → Prop} {q : Queue} (hq : K q) {x : WorkM C Unit}
    (hx : Obeys (fun w : Workspace C => I w.toSession ∧ K w.queue) E Anything x) :
    Obeys I E Anything (EditM.withQueue q x) := by
  intro s hs
  cases h : x { toSession := s, queue := q } with
  | ok a w =>
    obtain ⟨hw, ha⟩ := hx.of_ok ⟨hs, hq⟩ h
    exact .ok (by rw [EditM.withQueue, h]) hw.1 ha
  | error e w =>
    obtain ⟨hw, he⟩ := hx.of_error ⟨hs, hq⟩ h
    exact .error (by rw [EditM.withQueue, h]) hw.1 he

theorem ObeysAt.withRule {rule : Rule C σ} {memory : σ} {x : SurveyM C σ Unit} {s : Session C}
    (hx : ObeysAt (fun v => I v.toSession) E Anything x (Survey.start s rule memory)) :
    ObeysAt I E Anything (EditM.withRule rule memory x) s := by
  cases h : x (Survey.start s rule memory) with
  | ok a v => exact .ok (by rw [EditM.withRule, h]) (hx.of_ok a v h).1 trivial
  | error e v =>
    exact .error (by rw [EditM.withRule, h]) (hx.of_error e v h).1 (hx.of_error e v h).2

end Held

theorem LinkRegime.iterate {C : Type} [ShallowCopy C] {I : Session C → Prop} {E : Error → Prop}
    {A : Handle → Prop} (hI : LinkRegime I E A) {parent : Handle} (hp : A parent)
    {moves : List (Cursor.Move C)} (hmoves : ∀ m ∈ moves, ∀ x ∈ m.operands, A x) :
    Obeys I E Anything (EditM.iterate parent moves) := by
  intro s hs
  cases h : Cursor.start s parent with
  | ok c =>
    obtain rfl := Cursor.eq_of_start h
    exact .ok (by rw [EditM.iterate, h]) (hI.cursor.moves ⟨hs, hp⟩ moves hmoves).1 trivial
  | error e =>
    refine .error (by rw [EditM.iterate, h]) hs (hI.tolerates _ fun heq => ?_)
    exact Cursor.quiet_start s parent (heq ▸ h)

namespace EditRegime
variable {C : Type} [ShallowCopy C] {I : Session C → Prop} {E : Error → Prop}
  {A : Handle → Prop} (hI : EditRegime I E A)
include hI

theorem queue {q : Queue} (hq : ∀ h ∈ q.transforms.flatMap TransformOn.operands, A h)
    {arrange : List Transform → List Transform} (harrange : ∀ ts, arrange ts ⊆ ts) :
    Obeys I E Anything (EditM.withQueue q (WorkM.applyArranged arrange)) :=
  .withQueue (K := Queue.Admitted A)
    (fun t ht h hh => hq h (List.mem_flatMap.mpr ⟨t, ht, hh⟩))
    (hI.applyArranged arrange fun ts hts t ht => hts t (harrange ts ht))

theorem run {e : Edit C} (he : ¬e.IsSpecial) (hops : ∀ h ∈ e.named, A h) :
    Obeys I E Anything e.run := by
  cases e with
  | create content => exact absurd trivial he
  | setContent h f => exact absurd trivial he
  | copyShallow h => exact absurd trivial he
  | copy h => exact absurd trivial he
  | dispose h => exact absurd trivial he
  | survey t rule memory root => exact absurd trivial he
  | visit rule memory root => exact absurd trivial he
  | sanitize h => exact (hI.sanitize (hops h (by simp [Edit.named]))).discard
  | detach h => exact hI.detach (hops h (by simp [Edit.named]))
  | insertChild p i x =>
    obtain ⟨hp, hx⟩ : A p ∧ A x := by simpa [Edit.named] using hops
    exact (hI.insertChild i hp hx).discard
  | addChild p x =>
    obtain ⟨hp, hx⟩ : A p ∧ A x := by simpa [Edit.named] using hops
    exact (hI.addChild hp hx).discard
  | addChildLeftOf p x y =>
    obtain ⟨hp, hx, -⟩ : A p ∧ A x ∧ A y := by simpa [Edit.named] using hops
    exact (hI.addChildLeftOf hp hx y).discard
  | addChildRightOf p x y =>
    obtain ⟨hp, hx, -⟩ : A p ∧ A x ∧ A y := by simpa [Edit.named] using hops
    exact (hI.addChildRightOf hp hx y).discard
  | addChildren p xs =>
    obtain ⟨hp, hxs⟩ : A p ∧ ∀ x ∈ xs, A x := by simpa [Edit.named] using hops
    exact (hI.addChildren hp hxs).discard
  | removeChild p i => exact (hI.removeChild i (hops p (by simp [Edit.named]))).discard
  | removeChildNode p c => exact (hI.removeChildNode (hops p (by simp [Edit.named])) c).discard
  | removeChildren p => exact (hI.removeChildren (hops p (by simp [Edit.named]))).discard
  | removeChildrenRange p start stop =>
    exact (hI.removeChildrenRange (hops p (by simp [Edit.named])) start stop).discard
  | removeChildrenOfKind p k =>
    exact (hI.removeChildrenOfKind (hops p (by simp [Edit.named])) k).discard
  | setChild p i x =>
    obtain ⟨hp, hx⟩ : A p ∧ A x := by simpa [Edit.named] using hops
    exact (hI.setChild i hp hx).discard
  | replaceChild p old x =>
    obtain ⟨hp, hx, -⟩ : A p ∧ A x ∧ A old := by simpa [Edit.named] using hops
    exact (hI.replaceChild hp old hx).discard
  | setChildren p xs =>
    obtain ⟨hp, hxs⟩ : A p ∧ ∀ x ∈ xs, A x := by simpa [Edit.named] using hops
    exact (hI.setChildren hp hxs).discard
  | setChildAndRemove p x start stop =>
    obtain ⟨hp, hx⟩ : A p ∧ A x := by simpa [Edit.named] using hops
    exact (hI.setChildAndRemove hp hx start stop).discard
  | setAtPath root x path =>
    obtain ⟨hroot, hx⟩ : A root ∧ A x := by simpa [Edit.named] using hops
    exact (hI.setAtPath hroot hx path).discard
  | insertBeside side base x move =>
    obtain ⟨hb, hx⟩ : A base ∧ A x := by simpa [Edit.named] using hops
    exact (hI.insertBeside side hb hx move).discard
  | replace base x move =>
    obtain ⟨hb, hx⟩ : A base ∧ A x := by simpa [Edit.named] using hops
    exact (hI.replace hb hx move).discard
  | delete base => exact hI.delete (hops base (by simp [Edit.named]))
  | transplant base x =>
    obtain ⟨hb, hx⟩ : A base ∧ A x := by simpa [Edit.named] using hops
    exact (hI.transplant hb hx).discard
  | swap a b subtrees =>
    obtain ⟨ha, hb⟩ : A a ∧ A b := by simpa [Edit.named] using hops
    exact (hI.swap ha hb subtrees).discard
  | execute t => exact hI.execute t hops
  | iterate parent moves =>
    refine hI.iterate (hops parent (by simp [Edit.named])) fun m hm x hx => hops x ?_
    exact List.mem_cons_of_mem _ (List.mem_flatMap.mpr ⟨m, hm, hx⟩)
  | apply q => exact hI.queue hops fun ts => List.Subset.refl ts
  | applyReverse q => exact hI.queue hops fun ts => List.reverse_subset.mpr (List.Subset.refl ts)

end EditRegime

namespace MakerRegime
variable {C σ : Type} [ShallowCopy C] {I : Session C → Prop} {E : Error → Prop}
  {A : Handle → Prop} (hI : MakerRegime I E A)
include hI

theorem visit {rule : Rule C σ} (hrule : rule.FailsOnly E) {memory : σ} {root : Handle}
    {s : Session C} (hs : I s)
    (hrec : ∀ h ∈ (rule.recorded memory root s).flatMap TransformOn.operands, A h) :
    ObeysAt I E Anything (EditM.withRule rule memory (rule.visit root)) s := by
  refine .withRule ?_
  have hwalk := hI.survey hrule (rule.strategy.getD s.forest.settings.traversal) root
    (Survey.start s rule memory) hs
  have hrun : rule.visit root (Survey.start s rule memory) =
      ((rule.strategy.getD s.forest.settings.traversal).survey rule root >>=
        fun _ => SurveyM.work WorkM.apply) (Survey.start s rule memory) := rfl
  unfold Rule.recorded at hrec
  cases h : (rule.strategy.getD s.forest.settings.traversal).survey rule root
      (Survey.start s rule memory) with
  | ok u v =>
    rw [h] at hrec
    have hv : I v.toSession ∧ v.queue.Admitted A :=
      ⟨(hwalk.of_ok u v h).1, fun t ht o ho => hrec o (List.mem_flatMap.mpr ⟨t, ht, ho⟩)⟩
    have happly := SurveyM.obeys_work (hI.applyArranged id fun ts hts => hts) v hv
    refine .congr (hrun.trans (bind_of_ok _ h)) ⟨fun a w hw => ?_, fun e w hw => ?_⟩
    · exact (happly.of_ok a w hw).imp_left And.left
    · exact (happly.of_error e w hw).imp_left And.left
  | error e v =>
    obtain ⟨hv, he⟩ := hwalk.of_error e v h
    exact .error (hrun.trans (bind_of_error _ h)) hv he

/-- Every edit obeys if its operands are admitted. A change of a content and the freeing of a node
have to obey by themselves. -/
theorem run {e : Edit C} {s : Session C} (hs : I s) (hops : ∀ h ∈ e.operands s, A h)
    (hrule : e.FailsOnly E)
    (hcontent : ∀ h f, e = .setContent h f → Obeys I E Anything (EditM.setContent h f))
    (hdispose : ∀ h, e = .dispose h → Obeys I E Anything (EditM.dispose h)) :
    ObeysAt I E Anything e.run s := by
  have hnamed : ∀ h ∈ e.named, A h := fun h hh => hops h (List.mem_append_left _ hh)
  have hplain (he : ¬e.IsSpecial) := hI.toEditRegime.run he hnamed s hs
  cases e with
  | create content => exact (hI.create content).discard s hs
  | setContent h f => exact hcontent h f rfl s hs
  | copyShallow h => exact (hI.copyShallow h).discard s hs
  | copy h => exact (hI.copy h).discard s hs
  | dispose h => exact (hdispose h rfl).discard s hs
  | survey t rule memory root => exact .withRule (hI.survey hrule t root _ hs)
  | visit rule memory root =>
    exact hI.visit hrule hs fun h hh => hops h (List.mem_append_right _ hh)
  | _ => exact hplain not_false

end MakerRegime

/-! ## Laws -/

namespace EditLaw
variable {C : Type} [ShallowCopy C] {R : Session C → Session C → Prop} (hR : EditLaw R)
include hR

theorem links (s : Session C) : LinkRegime (R s) (fun _ => True) (fun _ => True) := by
  have := hR.toIsPreorder
  exact
    { tolerates := fun _ _ => trivial
      above := fun _ _ _ => trivial
      below := fun _ _ _ => trivial
      notify := fun n => (hR.notify n).obeys s
      removeChild := fun i _ => ((hR.removeChild _ i).obeys s).weaken fun _ _ => trivial
      detach := fun _ => (hR.detach _).obeys s
      insertChild := fun i _ _ => ((hR.insertChild _ i _).obeys s).weaken fun _ _ => trivial
      setChild := fun i _ _ => ((hR.setChild _ i _).obeys s).weaken fun _ _ => trivial }

/-- A law puts the sessions that follow a given one under a regime that admits every node. -/
theorem regime (s : Session C) : MakerRegime (R s) (fun _ => True) (fun _ => True) := by
  have := hR.toIsPreorder
  have hcopy : ∀ h, Obeys (R s) (fun _ => True) (fun _ => True) (EditM.copyShallow (C := C) h) :=
    fun h => ((hR.copyShallow h).obeys s).weaken fun _ _ => trivial
  exact
    { hR.links s with
      sanitize := fun _ => ((hR.sanitize _).obeys s).weaken fun _ _ => trivial
      swapPositions := fun _ _ => (hR.swapPositions _ _).obeys s
      swapSubtrees := fun {a _} _ ha hb =>
        (hR.links s).swapSubtrees ha hb (hcopy a) fun _ => (hR.dispose _).obeys s
      create := fun content => ((hR.create content).obeys s).weaken fun _ _ => trivial
      copyShallow := hcopy
      copy := fun h => ((hR.copy h).obeys s).weaken fun _ _ => trivial }

theorem execute (t : Transform) : Follows R (t.execute (C := C)) := by
  have := hR.toIsPreorder
  exact .of_obeys fun s => (hR.regime s).execute t fun _ _ => trivial

theorem applyArranged (arrange : List Transform → List Transform) :
    Follows (InvImage R Workspace.toSession) (WorkM.applyArranged (C := C) arrange) := by
  have := hR.toIsPreorder
  intro w
  have harrange := (hR.regime w.toSession).applyArranged arrange fun _ _ _ _ _ _ => trivial
  exact (harrange.final ⟨refl_of R w.toSession, fun _ _ _ _ => trivial⟩).1

/-- A law that holds of insertions, links and copies holds of every edit. -/
theorem run (e : Edit C) : Follows R e.run := by
  have := hR.toIsPreorder
  intro s
  refine ((hR.regime s).run (refl_of R s) (fun _ _ => trivial)
    (e.failsOnly_of_forall fun _ => trivial) ?_ ?_).final
  · exact fun h f _ => (hR.setContent h f).obeys s
  · exact fun h _ => (hR.dispose h).obeys s

theorem after (s : Session C) (es : List (Edit C)) : R s (s.after es) := by
  have := hR.toIsPreorder
  induction es generalizing s with
  | nil => exact refl_of R s
  | cons e es ih => exact trans_of R (hR.run e s) (ih _)

/-- A law that holds also of writing one end of a link holds of every history. -/
theorem afterSteps (hpoint : ∀ p x, Follows R (EditM.setAsParentOf (C := C) p x)) (s : Session C)
    (steps : List (Step C)) : R s (s.afterSteps steps) := by
  have := hR.toIsPreorder
  induction steps generalizing s with
  | nil => exact refl_of R s
  | cons step steps ih =>
    refine trans_of R ?_ (ih _)
    cases step with
    | edit e => exact hR.run e s
    | setAsParentOf p x => exact hpoint p x s

end EditLaw
end Grove
