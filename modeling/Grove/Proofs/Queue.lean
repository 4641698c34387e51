import Grove.Proofs.Edit.Harmless

/-!
# Queues

Applying a queue is carrying out its transforms one after the other. If one of them fails, the nodes
are what the transforms before it have made of them: neither the one that fails nor those behind it
leave a trace. Whatever happens the queue is empty afterwards, and keeps its name.
-/

namespace Grove
set_option autoImplicit false

section Sequences
variable {ε σ α : Type} {s t u : σ} {e : ε} {f : α → EStateM ε σ PUnit}

inductive Runs (f : α → EStateM ε σ PUnit) : σ → List α → σ → Prop where
  | nil (s : σ) : Runs f s [] s
  | cons {s t u : σ} {a : α} {l : List α} : f a s = .ok ⟨⟩ t → Runs f t l u → Runs f s (a :: l) u

theorem runs_nil_iff : Runs f s [] t ↔ t = s := by
  constructor
  · intro h
    cases h
    rfl
  · rintro rfl
    exact .nil t

theorem runs_cons_iff {a : α} {l : List α} :
    Runs f s (a :: l) u ↔ ∃ t, f a s = .ok ⟨⟩ t ∧ Runs f t l u := by
  constructor
  · intro h
    cases h with
    | cons ha hl => exact ⟨_, ha, hl⟩
  · rintro ⟨t, ha, hl⟩
    exact .cons ha hl

theorem forM_run_eq_ok_iff (l : List α) : l.forM f s = .ok ⟨⟩ t ↔ Runs f s l t := by
  induction l generalizing s with
  | nil =>
    rw [runs_nil_iff, eq_comm]
    exact ⟨fun h => by cases h; rfl, fun h => h ▸ rfl⟩
  | cons a l ih =>
    rw [runs_cons_iff]
    refine bind_eq_ok.trans ⟨?_, ?_⟩
    · rintro ⟨⟨⟩, u, ha, hl⟩
      exact ⟨u, ha, ih.mp hl⟩
    · rintro ⟨u, ha, hl⟩
      exact ⟨⟨⟩, u, ha, ih.mpr hl⟩

theorem forM_run_eq_error_iff (l : List α) :
    l.forM f s = .error e t ↔
      ∃ done a rest u, l = done ++ a :: rest ∧ Runs f s done u ∧ f a u = .error e t := by
  induction l generalizing s with
  | nil => 
    constructor
    · intro h
      exact nomatch h
    · rintro ⟨done, a, rest, u, hl, -⟩
      simp at hl
  | cons a l ih =>
    refine bind_eq_error.trans ⟨?_, ?_⟩
    · rintro (ha | ⟨⟨⟩, u, ha, hl⟩)
      · exact ⟨[], a, l, s, rfl, .nil s, ha⟩
      · obtain ⟨done, b, rest, v, rfl, hdone, hb⟩ := ih.mp hl
        exact ⟨a :: done, b, rest, v, rfl, .cons ha hdone, hb⟩
    · rintro ⟨done, b, rest, v, hl, hdone, hb⟩
      cases hdone with
      | nil =>
        obtain ⟨rfl, rfl⟩ : a = b ∧ l = rest := by simpa using hl
        exact Or.inl hb
      | @cons _ u _ c done hc hdone =>
        obtain ⟨rfl, rfl⟩ : a = c ∧ l = done ++ b :: rest := by simpa using hl
        exact Or.inr ⟨⟨⟩, u, hc, ih.mpr ⟨done, b, rest, v, rfl, hdone, hb⟩⟩

theorem Runs.follows {R : σ → σ → Prop} [IsPreorder σ R] (hf : ∀ a, Follows R (f a)) {l : List α}
    (hl : Runs f s l t) : R s t := by
  induction hl with
  | nil s => exact refl_of R s
  | cons ha _ ih => exact trans_of R ((hf _).of_ok ha) ih

end Sequences

namespace WorkM
variable {C α : Type} {w w' : Workspace C} {s : Session C} {e : Error}

theorem edit_eq_ok_iff {x : EditM C α} {a : α} :
    edit x w = .ok a w' ↔ x w.toSession = .ok a w'.toSession ∧ w'.queue = w.queue := by
  cases hx : x w.toSession with
  | ok b s =>
    rw [edit_of_ok hx]
    constructor
    · intro h
      cases h
      exact ⟨rfl, rfl⟩
    · rintro ⟨h, hq⟩
      cases h
      cases w'
      simp_all
  | error e s => simp [edit_of_error hx]

theorem edit_eq_error_iff {x : EditM C α} :
    edit x w = .error e w' ↔ x w.toSession = .error e w'.toSession ∧ w'.queue = w.queue := by
  cases hx : x w.toSession with
  | ok b s => simp [edit_of_ok hx]
  | error e s =>
    rw [edit_of_error hx]
    constructor
    · intro h
      cases h
      exact ⟨rfl, rfl⟩
    · rintro ⟨h, hq⟩
      cases h
      cases w'
      simp_all

theorem forM_edit (f : α → EditM C Unit) (l : List α) (w : Workspace C) :
    (l.forM fun a => edit (f a)) w = edit (l.forM f) w := by
  induction l generalizing w with
  | nil => rfl
  | cons a l ih =>
    change (edit (f a) >>= fun _ => l.forM fun a => edit (f a)) w =
      edit (f a >>= fun _ => l.forM f) w
    cases ha : f a w.toSession with
    | ok u s =>
      rw [bind_of_ok _ (edit_of_ok ha), ih, edit, edit, bind_of_ok _ ha]
    | error e s => rw [bind_of_error _ (edit_of_error ha), edit_of_error (bind_of_error _ ha)]

variable [ShallowCopy C]

theorem applyArranged_eq (arrange : List Transform → List Transform) (w : Workspace C) :
    applyArranged arrange w =
      edit ((arrange w.queue.transforms).forM Transform.execute)
        { w with queue := w.queue.cleared } :=
  forM_edit Transform.execute (arrange w.queue.transforms) { w with queue := w.queue.cleared }

/-- A program that carries out the listed transforms one after the other on a workspace, up to the
first that fails, and empties the queue. -/
structure CarriesOut (x : WorkM C Unit) (w : Workspace C) (ts : List Transform) : Prop where
  /-- it succeeds if all transforms do, and leaves what they have made -/
  ok_iff : ∀ w', x w = .ok () w' ↔
    Runs Transform.execute w.toSession ts w'.toSession ∧ w'.queue = w.queue.cleared
  /-- it fails as the first transform does that fails -/
  error_iff : ∀ e w', x w = .error e w' ↔
    (∃ done t rest s, ts = done ++ t :: rest ∧ Runs Transform.execute w.toSession done s ∧
      t.execute s = .error e w'.toSession) ∧ w'.queue = w.queue.cleared
  /-- the transform that fails leaves the nodes as they were when it was begun -/
  sameNodes : ∀ done t rest s e u, ts = done ++ t :: rest →
    Runs Transform.execute w.toSession done s → t.execute s = .error e u →
      u.forest.SameNodes s.forest
  wellFormed : (final x w).forest.WellFormed
  queue_eq : (final x w).queue = { id := w.queue.id, transforms := [] }

variable [RegularCopy C]

theorem wellFormed_of_runs {ts : List Transform} {s t : Session C} (hF : s.forest.WellFormed)
    (hrun : Runs Transform.execute s ts t) : t.forest.WellFormed :=
  hrun.follows (EditM.editLaw_keepsWellFormed (C := C)).execute hF

theorem carriesOut_applyArranged (arrange : List Transform → List Transform)
    (hF : w.forest.WellFormed) :
    CarriesOut (applyArranged arrange) w (arrange w.queue.transforms) := by
  have hok : ∀ w', applyArranged arrange w = .ok () w' ↔
      Runs Transform.execute w.toSession (arrange w.queue.transforms) w'.toSession ∧
        w'.queue = w.queue.cleared := by
    intro w'
    rw [applyArranged_eq, edit_eq_ok_iff, forM_run_eq_ok_iff]
  have herror : ∀ e w', applyArranged arrange w = .error e w' ↔
      (∃ done t rest s, arrange w.queue.transforms = done ++ t :: rest ∧
        Runs Transform.execute w.toSession done s ∧ t.execute s = .error e w'.toSession) ∧
          w'.queue = w.queue.cleared := by
    intro e w'
    rw [applyArranged_eq, edit_eq_error_iff, forM_run_eq_error_iff]
  refine ⟨hok, herror, ?_, ?_, ?_⟩
  · intro done t rest s e u _ hdone ht
    exact EditM.harmless_execute (wellFormed_of_runs hF hdone) t e u ht
  · exact (EditM.editLaw_keepsWellFormed (C := C)).applyArranged arrange w hF
  · cases hrun : applyArranged arrange w with
    | ok u w' => rw [final_of_ok hrun, ((hok w').mp hrun).2, Queue.cleared]
    | error e w' => rw [final_of_error hrun, ((herror e w').mp hrun).2, Queue.cleared]

end WorkM

theorem EditM.withQueue_applyArranged {C : Type} [ShallowCopy C] (q : Queue)
    (arrange : List Transform → List Transform) :
    EditM.withQueue q (WorkM.applyArranged arrange) =
      (arrange q.transforms).forM (Transform.execute (C := C)) := by
  funext s
  rw [EditM.withQueue, WorkM.applyArranged_eq]
  cases h : (arrange q.transforms).forM (Transform.execute (C := C)) s with
  | ok u t => rw [WorkM.edit_of_ok h]
  | error e t => rw [WorkM.edit_of_error h]

/-- Both ways of applying a queue carry out its transforms up to the first that fails, with labels
as with plain contents. -/
theorem carriesOut_of_apply :
    (∀ w : Workspace Label, w.forest.WellFormed →
      WorkM.CarriesOut WorkM.apply w w.queue.transforms ∧
        WorkM.CarriesOut WorkM.applyReverse w w.queue.transforms.reverse) ∧
    ∀ w : Workspace Plain, w.forest.WellFormed →
      WorkM.CarriesOut WorkM.apply w w.queue.transforms ∧
        WorkM.CarriesOut WorkM.applyReverse w w.queue.transforms.reverse :=
  ⟨fun _ hF => ⟨WorkM.carriesOut_applyArranged id hF, WorkM.carriesOut_applyArranged _ hF⟩,
    fun _ hF => ⟨WorkM.carriesOut_applyArranged id hF, WorkM.carriesOut_applyArranged _ hF⟩⟩

def Workspace.refused : Workspace Label where
  toSession := (Session.fresh Label {}).after
    [.create ⟨.block, "a"⟩, .create ⟨.leaf, "b"⟩, .addChild ⟨0, 0⟩ ⟨1, 0⟩]
  queue :=
    { id := "rule"
      transforms := [.delete ⟨1, 0⟩, .addChild ⟨0, 0⟩ ⟨1, 0⟩ (some 3), .delete ⟨1, 0⟩] }

/-- The deletion stays, and the transform that fails leaves nothing behind. -/
theorem carriesOut_refused :
    Workspace.refused.forest.WellFormed ∧
    Workspace.refused.forest.above? ⟨1, 0⟩ = some ⟨0, 0⟩ ∧
    ∃ s e w, Runs Transform.execute Workspace.refused.toSession [.delete ⟨1, 0⟩] s ∧
      WorkM.apply Workspace.refused = .error e w ∧ w.forest.SameNodes s.forest ∧
        w.forest.contains ⟨1, 0⟩ = true ∧ w.forest.above? ⟨1, 0⟩ = none := by
  have hF : Workspace.refused.forest.WellFormed :=
    Session.wellFormed_after (Forest.wellFormed_empty {}) _
  have happly := (carriesOut_of_apply.1 Workspace.refused hF).1
  have hrun : Runs Transform.execute Workspace.refused.toSession [.delete ⟨1, 0⟩] _ :=
    .cons rfl (.nil _)
  exact ⟨hF, rfl, _, _, _, hrun, rfl,
    happly.sameNodes [.delete ⟨1, 0⟩] _ _ _ _ _ rfl hrun rfl, rfl, rfl⟩

end Grove
