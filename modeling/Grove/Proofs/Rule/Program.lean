import Grove.Proofs.Edit.History
import Grove.Proofs.Edit.Hook

/-!
# Programs of rules

A program of a rule does not look at the queue and only adds to its end. What it adds can be told from
the program and the session that it begins with: it is what stands in the program where the run comes
by. A program creates nodes and copies subtrees, and writes no link of a node that was there before, as
long as the copies that it makes do not.
-/

namespace Grove
set_option autoImplicit false

instance isPreorder_invImage {σ τ : Type} (R : τ → τ → Prop) [IsPreorder τ R] (f : σ → τ) :
    IsPreorder σ (InvImage R f) where
  refl a := refl_of R (f a)
  trans _ _ _ hab hbc := trans_of R hab hbc

namespace Follows
variable {C σ α : Type} {R : Session C → Session C → Prop}

theorem workEdit {x : EditM C α} (hx : Follows R x) :
    Follows (InvImage R Workspace.toSession) (WorkM.edit x) := by
  intro w
  cases h : x w.toSession with
  | ok a s =>
    rw [final_of_ok (WorkM.edit_of_ok h)]
    exact hx.of_ok h
  | error e s =>
    rw [final_of_error (WorkM.edit_of_error h)]
    exact hx.of_error h

theorem attempt [IsPreorder (Session C) R] {x : EditM C α} (hx : Follows R x) :
    Follows (InvImage R Workspace.toSession) (RuleM.attempt x) :=
  .tryCatch (.bind (.workEdit hx) fun _ => .pure _) fun _ => .pure _

theorem of_unchanged {τ ε ρ : Type} {Q : τ → τ → Prop} [IsPreorder τ Q] {f : ρ → τ}
    {x : EStateM ε ρ α} (hx : ∀ s, f (final x s) = f s) : Follows (InvImage Q f) x := by
  intro s
  rw [InvImage, hx]
  exact refl_of Q (f s)

end Follows

/-- The law that a well-formed forest stays well-formed and keeps all its nodes as they are. -/
def KeepsNodes {C : Type} (s t : Session C) : Prop :=
  s.forest.WellFormed → t.forest.WellFormed ∧ s.forest.Extends t.forest

instance isPreorder_keepsNodes {C : Type} : IsPreorder (Session C) KeepsNodes where
  refl _ hF := ⟨hF, .refl _⟩
  trans _ _ _ hst htu hF := by
    obtain ⟨ht, hext⟩ := hst hF
    obtain ⟨hu, hext'⟩ := htu ht
    exact ⟨hu, hext.trans hext'⟩

namespace EditM
variable {C : Type}

theorem create_keepsNodes (content : C) : Follows KeepsNodes (create content) := by
  intro s hF
  rw [final_of_ok (create_run content s)]
  exact ⟨hF.plant content, s.forest.extends_plant content⟩

theorem copy_keepsNodes [ShallowCopy C] [RegularCopy C] (h : Handle) :
    Follows KeepsNodes (copy (C := C) h) := by
  intro s hF
  rcases copy_outcome hF h with ⟨c, t, hrun, hsprout⟩ | ⟨e, t, hrun, hsame⟩
  · rw [final_of_ok hrun]
    exact ⟨hsprout.wellFormed, hsprout.old⟩
  · rw [final_of_error hrun]
    exact ⟨hsame.symm.wellFormed hF, hsame.symm.extends⟩

end EditM

def Queue.append (q : Queue) (ts : List Transform) : Queue :=
  { id := q.id, transforms := q.transforms ++ ts }

@[simp] theorem Queue.append_nil (q : Queue) : q.append [] = q := by
  simp [append]

@[simp] theorem Queue.append_push (q : Queue) (t : Transform) (ts : List Transform) :
    (q.push t).append ts = q.append (t :: ts) := by
  simp [append, push]

namespace RuleM
variable {C α : Type} [ShallowCopy C] {s : Session C} {w : Workspace C} {e : Error}

/-- The transforms that a program records when it is begun in a session, in their order. -/
def recorded : RuleM C α → Session C → List Transform
  | done _, _ => []
  | fail _, _ => []
  | look k, s => (k s.forest).recorded s
  | create content k, s =>
    match EditM.create content s with
    | .ok h t => (k h).recorded t
    | .error _ _ => []
  | copy h k, s =>
    match EditM.copy h s with
    | .ok c t => (k (.ok c)).recorded t
    | .error e t => (k (.error e)).recorded t
  | record t k, s => t :: k.recorded s

/-- All copies that a program may come to make leave the nodes as they are. -/
def CopiesAside : RuleM C α → Prop
  | done _ => True
  | fail _ => True
  | look k => ∀ F, (k F).CopiesAside
  | create _ k => ∀ h, (k h).CopiesAside
  | copy h k => Follows KeepsNodes (EditM.copy (C := C) h) ∧ ∀ r, (k r).CopiesAside
  | record _ k => k.CopiesAside

theorem copiesAside_of_regularCopy [RegularCopy C] (x : RuleM C α) : x.CopiesAside := by
  induction x with
  | done a => trivial
  | fail e => trivial
  | look k ih => exact ih
  | create content k ih => exact ih
  | copy h k ih => exact ⟨EditM.copy_keepsNodes h, ih⟩
  | record t k ih => exact ih

/-! ## One step of a program -/

theorem run_copy (h : Handle) (k : Except Error Handle → RuleM C α) (w : Workspace C) :
    (copy h k).run w =
      match EditM.copy h w.toSession with
      | .ok c s => (k (.ok c)).run { w with toSession := s }
      | .error e s => (k (.error e)).run { w with toSession := s } := by
  cases hcopy : EditM.copy h w.toSession with
  | ok c s =>
    have hattempt : attempt (EditM.copy h) w = .ok (.ok c) { w with toSession := s } :=
      tryCatch_of_ok _ ((bind_of_ok _ (WorkM.edit_of_ok hcopy)).trans rfl)
    exact bind_of_ok _ hattempt
  | error e s =>
    have hattempt : attempt (EditM.copy h) w = .ok (.error e) { w with toSession := s } :=
      (tryCatch_of_error _ (bind_of_error _ (WorkM.edit_of_error hcopy))).trans rfl
    exact bind_of_ok _ hattempt

theorem run_record (t : Transform) (k : RuleM C α) (w : Workspace C) :
    (record t k).run w = k.run { w with queue := w.queue.push t } := rfl

/-! ## Whole programs -/

/-- What is in the queue already makes no difference to a program, and what the program records comes
after it. -/
theorem run_eq (x : RuleM C α) (w : Workspace C) :
    x.run w =
      match x.run { toSession := w.toSession } with
      | .ok a w' =>
        .ok a { toSession := w'.toSession, queue := w.queue.append (x.recorded w.toSession) }
      | .error e w' =>
        .error e { toSession := w'.toSession, queue := w.queue.append (x.recorded w.toSession) } := by
  induction x generalizing w with
  | done a =>
    rw [recorded, Queue.append_nil]
    rfl
  | fail e =>
    rw [recorded, Queue.append_nil]
    rfl
  | look k ih => exact ih w.forest w
  | create content k ih => exact ih _ { w with toSession := _ }
  | copy h k ih =>
    rw [run_copy, run_copy, recorded]
    change (match EditM.copy h w.toSession with | .ok c s => _ | .error e s => _) = _
    cases EditM.copy h w.toSession with
    | ok c s => exact ih (.ok c) { w with toSession := s }
    | error e s => exact ih (.error e) { w with toSession := s }
  | record t k ih =>
    -- the program that follows is run twice, with a transform in the queue each time
    rw [run_record, run_record, ih, ih { toSession := w.toSession, queue := Queue.push {} t }]
    cases k.run { toSession := w.toSession } with
    | ok a w' => simp only [Queue.append_push, recorded]
    | error e w' => simp only [Queue.append_push, recorded]

theorem run_of_ok {x : RuleM C α} {a : α} (hrun : x.run { toSession := s } = .ok a w) (q : Queue) :
    x.run { toSession := s, queue := q } =
      .ok a { toSession := w.toSession, queue := q.append (x.recorded s) } := by
  rw [run_eq, hrun]

theorem run_of_error {x : RuleM C α} (hrun : x.run { toSession := s } = .error e w) (q : Queue) :
    x.run { toSession := s, queue := q } =
      .error e { toSession := w.toSession, queue := q.append (x.recorded s) } := by
  rw [run_eq, hrun]

/-- What is in the queue in the end is what was recorded, if nothing was in it. -/
theorem transforms_of_run {x : RuleM C α} {a : α} (hrun : x.run { toSession := s } = .ok a w) :
    w.queue.transforms = x.recorded s := by
  obtain ⟨-, hw⟩ := EStateM.Result.ok.inj (hrun.symm.trans (run_of_ok hrun {}))
  exact congrArg (fun w => w.queue.transforms) hw

theorem follows_run {x : RuleM C α} (hx : x.CopiesAside) :
    Follows (InvImage KeepsNodes Workspace.toSession) x.run := by
  induction x with
  | done a => exact .pure a
  | fail e => exact .throw e
  | look k ih => exact .bind .get fun w => ih w.forest (hx w.forest)
  | create content k ih =>
    exact .bind (.workEdit (EditM.create_keepsNodes content)) fun h => ih h (hx h)
  | copy h k ih =>
    obtain ⟨hcopy, hk⟩ := hx
    exact .bind (.attempt hcopy) fun r => ih r (hk r)
  | record t k ih => exact .bind (.of_unchanged fun _ => rfl) fun _ => ih hx

end RuleM
end Grove
