import Grove.Cursor
import Grove.Proofs.Edit.Regime
import Grove.Rule

/-!
# Sessions that are held

A cursor, a queue and a rule at work hold the session for a while. What they do to it is put together
from edits, so it stays within the regime of these, as long as the nodes that they are given are
admitted.
-/

namespace Grove
set_option autoImplicit false

/-! ## Cursors -/

namespace Cursor
variable {C : Type}

/-- The calls that a cursor answers. -/
inductive Move (C : Type) where
  | next
  | previous
  | back (amount : Nat)
  | moveBy (amount : Int)
  | nextMatching (P : Predicate C)
  | rest
  | remove
  | set (x : Handle)
  | add (x : Handle)
  | replace (x : Handle) (count : Nat)

def Move.run [ShallowCopy C] : Move C → CursorM C Unit
  | .next => discard (modifyGet Cursor.next)
  | .previous => discard (modifyGet Cursor.previous)
  | .back amount => discard (modifyGet (Cursor.back amount))
  | .moveBy amount => discard (modifyGet (Cursor.moveBy amount))
  | .nextMatching P => discard (modifyGet (Cursor.nextMatching P))
  | .rest => discard (modifyGet Cursor.rest)
  | .remove => discard CursorM.remove
  | .set x => discard (CursorM.set x)
  | .add x => discard (CursorM.add x)
  | .replace x count => discard (CursorM.replace x count)

def Move.operands : Move C → List Handle
  | .set x | .add x | .replace x _ => [x]
  | _ => []

theorem eq_of_start {s : Session C} {parent : Handle} {c : Cursor C}
    (h : start s parent = .ok c) : c = { session := s, parent } := by
  unfold start at h
  cases hn : s.forest.node parent with
  | ok n =>
    rw [hn] at h
    cases h
    rfl
  | error e =>
    rw [hn] at h
    exact nomatch h

theorem quiet_start (s : Session C) (parent : Handle) : Quiet (start s parent) :=
  .bind (s.forest.quiet_node parent).discard fun _ => .pure _

theorem next_aside (c : Cursor C) :
    c.next.2.session = c.session ∧ c.next.2.parent = c.parent := by
  unfold next
  split <;> exact ⟨rfl, rfl⟩

theorem previous_aside (c : Cursor C) :
    c.previous.2.session = c.session ∧ c.previous.2.parent = c.parent := by
  unfold previous
  split
  · exact ⟨rfl, rfl⟩
  · split <;> exact ⟨rfl, rfl⟩

/-- What the single steps keep is kept by every movement. -/
structure Roams (J : Cursor C → Prop) : Prop where
  next : ∀ c, J c → J c.next.2
  previous : ∀ c, J c → J c.previous.2

namespace Roams
variable {J : Cursor C → Prop} (hJ : Roams J) {c : Cursor C}
include hJ

omit hJ in
theorem repeatMove {step : Cursor C → Option Handle × Cursor C}
    (hstep : ∀ c, J c → J (step c).2) (n : Nat) (visited : Option Handle) (hc : J c) :
    J (repeatMove step n visited c).2 := by
  induction n generalizing visited c with
  | zero => exact hc
  | succ n ih =>
    have hnext := hstep c hc
    unfold Cursor.repeatMove
    split
    · rename_i child c' heq
      rw [heq] at hnext
      exact ih _ hnext
    · rename_i c' heq
      rw [heq] at hnext
      exact hnext

theorem moveBy (amount : Int) (hc : J c) : J (moveBy amount c).2 := by
  unfold Cursor.moveBy
  split
  · exact hc
  · split
    · exact repeatMove hJ.next _ _ hc
    · exact repeatMove hJ.previous _ _ hc

theorem nextMatchingFrom (P : Predicate C) (n : Nat) (hc : J c) :
    J (nextMatchingFrom P n c).2 := by
  induction n generalizing c with
  | zero => exact hc
  | succ n ih =>
    have hnext := hJ.next c hc
    unfold Cursor.nextMatchingFrom
    split
    · rename_i c' heq
      rw [heq] at hnext
      exact hnext
    · rename_i child c' heq
      rw [heq] at hnext
      split
      · exact hnext
      · exact ih hnext

theorem restFrom (n : Nat) (hc : J c) : J (restFrom n c).2 := by
  induction n generalizing c with
  | zero => exact hc
  | succ n ih =>
    have hnext := hJ.next c hc
    unfold Cursor.restFrom
    split
    · rename_i c' heq
      rw [heq] at hnext
      exact hnext
    · rename_i child c' heq
      rw [heq] at hnext
      exact ih hnext

end Roams
end Cursor

/-- The calls of a cursor that edit obey an invariant of cursors as long as they are given admitted
nodes, and its movements keep it. -/
structure CursorRegime {C : Type} [ShallowCopy C] (J : Cursor C → Prop) (E : Error → Prop)
    (A : Handle → Prop) : Prop where
  roams : Cursor.Roams J
  tolerates : ∀ fault, E (.cursorState fault)
  remove : Obeys J E Anything (CursorM.remove (C := C))
  set : ∀ {x}, A x → Obeys J E Anything (CursorM.set (C := C) x)
  add : ∀ {x}, A x → Obeys J E Anything (CursorM.add (C := C) x)

namespace CursorM
variable {C α : Type} {c : Cursor C} {s : Session C} {e : Error} {x : EditM C α}

theorem edit_of_ok {a : α} (hx : x c.session = .ok a s) :
    edit x c = .ok a { c with session := s } := by
  simp only [edit, hx]

theorem edit_of_error (hx : x c.session = .error e s) :
    edit x c = .error e { c with session := s } := by
  simp only [edit, hx]

theorem obeys_edit {I : Session C → Prop} {E : Error → Prop} {Q : α → Prop} {A : Handle → Prop}
    (hx : Obeys I E Q x) :
    Obeys (fun c : Cursor C => I c.session ∧ A c.parent) E Q (edit x) := by
  rintro c ⟨hc, hp⟩
  cases h : x c.session with
  | ok a s =>
    obtain ⟨hs, ha⟩ := hx.of_ok hc h
    exact .ok (edit_of_ok h) ⟨hs, hp⟩ ha
  | error e s =>
    obtain ⟨hs, he⟩ := hx.of_error hc h
    exact .error (edit_of_error h) ⟨hs, hp⟩ he

theorem obeys_requireLast {J : Cursor C → Prop} {E : Error → Prop} {fault : CursorFault}
    (hfault : E (.cursorState fault)) :
    Obeys J E (fun i => ∃ c, J c ∧ c.last = some i) (requireLast (C := C) fault) := by
  refine .bind .get fun c hc => ?_
  cases hi : c.last with
  | some i => exact .pure ⟨c, hc, hi⟩
  | none => exact .throw hfault

end CursorM

namespace CursorRegime
variable {C : Type} [ShallowCopy C] {J : Cursor C → Prop} {E : Error → Prop}
  {A : Handle → Prop} (hJ : CursorRegime J E A)
include hJ

theorem previous : Obeys J E Anything (modifyGet (Cursor.previous (C := C)) : CursorM C _) :=
  .modifyGet fun c hc => ⟨hJ.roams.previous c hc, trivial⟩

theorem removeBack (n : Nat) : Obeys J E Anything (CursorM.removeBack (C := C) n) := by
  induction n with
  | zero => exact .pure trivial
  | succ n ih =>
    refine .bind hJ.remove.discard fun _ _ => .bind hJ.previous fun child? _ => ?_
    cases child? with
    | none => exact .bind (Q := Anything) (.throw (hJ.tolerates _)) fun _ _ => ih
    | some child => exact ih

theorem replace {x : Handle} (hx : A x) (count : Nat) :
    Obeys J E Anything (CursorM.replace (C := C) x count) := by
  have hcollapse : Obeys J E Anything (do
      CursorM.removeBack (C := C) (count - 1)
      let inserted ← CursorM.set x
      let c ← get
      if c.last.any fun index => decide (index < c.position) then
        discard (modifyGet Cursor.previous)
      return inserted) := by
    refine .bind (hJ.removeBack _) fun _ _ => .bind (hJ.set hx) fun inserted _ => ?_
    refine .bind .get fun c _ => ?_
    dsimp only
    split
    · exact .bind hJ.previous.discard fun _ _ => .pure trivial
    · exact .pure trivial
  have hchecked : Obeys J E Anything (do
      let last ← CursorM.requireLast (C := C) .replaceUnmoved
      if last + 1 < count then throw (.cursorState .replaceShort)
      CursorM.removeBack (C := C) (count - 1)
      let inserted ← CursorM.set x
      let c ← get
      if c.last.any fun index => decide (index < c.position) then
        discard (modifyGet Cursor.previous)
      return inserted) := by
    refine .bind (CursorM.obeys_requireLast (hJ.tolerates _)) fun last _ => ?_
    dsimp only
    split
    · exact .bind (Q := Anything) (.throw (hJ.tolerates _)) fun _ _ => hcollapse
    · exact hcollapse
  unfold CursorM.replace
  split
  · exact .bind (Q := Anything) (.throw (hJ.tolerates _)) fun _ _ => hchecked
  · exact hchecked

theorem move (m : Cursor.Move C) (hm : ∀ x ∈ m.operands, A x) : Obeys J E Anything m.run := by
  have hroam : ∀ {α : Type} {f : Cursor C → α × Cursor C}, (∀ c, J c → J (f c).2) →
      Obeys J E Anything (discard (modifyGet f) : CursorM C PUnit) := fun hf =>
    (Obeys.modifyGet (Q := Anything) fun c hc => ⟨hf c hc, trivial⟩).discard
  cases m with
  | next => exact hroam hJ.roams.next
  | previous => exact hroam hJ.roams.previous
  | back n => exact hroam fun c => Cursor.Roams.repeatMove hJ.roams.previous n none
  | moveBy n => exact hroam fun c => hJ.roams.moveBy n
  | nextMatching P => exact hroam fun c => hJ.roams.nextMatchingFrom P _
  | rest => exact hroam fun c => hJ.roams.restFrom _
  | remove => exact hJ.remove.discard
  | set x => exact (hJ.set (hm x (by simp [Cursor.Move.operands]))).discard
  | add x => exact (hJ.add (hm x (by simp [Cursor.Move.operands]))).discard
  | replace x n => exact (hJ.replace (hm x (by simp [Cursor.Move.operands])) n).discard

theorem moves {c : Cursor C} (hc : J c) (ms : List (Cursor.Move C))
    (hms : ∀ m ∈ ms, ∀ x ∈ m.operands, A x) :
    J (ms.foldl (fun c m => final m.run c) c) := by
  induction ms generalizing c with
  | nil => exact hc
  | cons m ms ih =>
    exact ih ((hJ.move m (hms m List.mem_cons_self)).final hc) fun m' hm' =>
      hms m' (List.mem_cons_of_mem m hm')

end CursorRegime

theorem LinkRegime.cursor {C : Type} [ShallowCopy C] {I : Session C → Prop}
    {E : Error → Prop} {A : Handle → Prop} (hI : LinkRegime I E A) :
    CursorRegime (fun c : Cursor C => I c.session ∧ A c.parent) E A where
  roams := by
    refine ⟨fun c hc => ?_, fun c hc => ?_⟩
    · rwa [(Cursor.next_aside c).1, (Cursor.next_aside c).2]
    · rwa [(Cursor.previous_aside c).1, (Cursor.previous_aside c).2]
  tolerates _ := hI.tolerates _ nofun
  remove := by
    refine .bind (CursorM.obeys_requireLast (hI.tolerates _ nofun)) fun i _ => ?_
    refine .bind .get fun c hc => ?_
    refine .bind (CursorM.obeys_edit (hI.removeChild i hc.2)) fun _ _ => ?_
    exact .bind (.modify fun d hd => hd) fun _ _ => .pure trivial
  set hx := by
    refine .bind (CursorM.obeys_requireLast (hI.tolerates _ nofun)) fun i _ => ?_
    refine .bind .get fun c hc => ?_
    refine .bind (CursorM.obeys_edit (hI.setChild i hc.2 hx)).discard fun _ _ => ?_
    exact CursorM.obeys_edit (hI.ask fun F => F.quiet_child c.parent i)
  add hx := by
    refine .bind .get fun c hc => ?_
    refine .bind (CursorM.obeys_edit (hI.insertChild c.position hc.2 hx)) fun _ _ => ?_
    exact .bind (.modify fun d hd => hd) fun _ _ => .pure trivial

/-! ## Queues -/

namespace WorkM
variable {C α : Type} {w : Workspace C} {s : Session C} {e : Error} {x : EditM C α}

theorem edit_of_ok {a : α} (hx : x w.toSession = .ok a s) :
    edit x w = .ok a { w with toSession := s } := by
  simp only [edit, hx]

theorem edit_of_error (hx : x w.toSession = .error e s) :
    edit x w = .error e { w with toSession := s } := by
  simp only [edit, hx]

variable {I : Session C → Prop} {E : Error → Prop} {Q : α → Prop}

/-- An edit does not touch the queue of a workspace. -/
theorem obeys_edit (K : Queue → Prop) (hx : Obeys I E Q x) :
    Obeys (fun w : Workspace C => I w.toSession ∧ K w.queue) E Q (edit x) := by
  rintro w ⟨hw, hK⟩
  cases h : x w.toSession with
  | ok a s =>
    obtain ⟨hs, ha⟩ := hx.of_ok hw h
    exact .ok (edit_of_ok h) ⟨hs, hK⟩ ha
  | error e s =>
    obtain ⟨hs, he⟩ := hx.of_error hw h
    exact .error (edit_of_error h) ⟨hs, hK⟩ he

theorem obeys_edit_session (hx : Obeys I E Q x) :
    Obeys (fun w : Workspace C => I w.toSession) E Q (edit x) := by
  intro w hw
  have hboth := obeys_edit (fun _ => True) hx w ⟨hw, trivial⟩
  exact ⟨fun a v h => (hboth.of_ok a v h).imp_left And.left,
    fun e v h => (hboth.of_error e v h).imp_left And.left⟩

end WorkM

/-- All transforms that wait in the queue work on admitted nodes. -/
def Queue.Admitted (A : Handle → Prop) (q : Queue) : Prop :=
  ∀ t ∈ q.transforms, ∀ h ∈ t.operands, A h

theorem EditRegime.applyArranged {C : Type} [ShallowCopy C] {I : Session C → Prop}
    {E : Error → Prop} {A : Handle → Prop} (hI : EditRegime I E A)
    (arrange : List Transform → List Transform)
    (harrange : ∀ ts, (∀ t ∈ ts, ∀ h ∈ t.operands, A h) → ∀ t ∈ arrange ts, ∀ h ∈ t.operands, A h) :
    Obeys (fun w : Workspace C => I w.toSession ∧ w.queue.Admitted A) E Anything
      (WorkM.applyArranged arrange) := by
  refine .bind .get fun w hw => .bind (.modify fun v hv => ⟨hv.1, ?_⟩) fun _ _ => ?_
  · exact fun t ht => absurd ht List.not_mem_nil
  · exact .forM _ fun t ht => WorkM.obeys_edit _ (hI.execute t (harrange _ hw.2 t ht))

/-! ## Rules -/

/-- The edits that make new nodes obey as well; they may be told to copy any node. -/
structure MakerRegime {C : Type} [ShallowCopy C] (I : Session C → Prop) (E : Error → Prop)
    (A : Handle → Prop) : Prop extends EditRegime I E A where
  create : ∀ content, Obeys I E A (EditM.create content)
  copyShallow : ∀ h, Obeys I E A (EditM.copyShallow (C := C) h)
  copy : ∀ h, Obeys I E A (EditM.copy (C := C) h)

namespace SurveyM
variable {C σ α : Type} {v : Survey C σ} {w : Workspace C} {e : Error} {x : WorkM C α}

theorem work_of_ok {a : α} (hx : x v.toWorkspace = .ok a w) :
    (work x : SurveyM C σ α) v = .ok a { v with toWorkspace := w } := by
  simp only [work, hx]

theorem work_of_error (hx : x v.toWorkspace = .error e w) :
    (work x : SurveyM C σ α) v = .error e { v with toWorkspace := w } := by
  simp only [work, hx]

theorem obeys_work {J : Workspace C → Prop} {E : Error → Prop} {Q : α → Prop}
    (hx : Obeys J E Q x) :
    Obeys (fun v : Survey C σ => J v.toWorkspace) E Q (work x) := by
  intro v hv
  cases h : x v.toWorkspace with
  | ok a w =>
    obtain ⟨hw, ha⟩ := hx.of_ok hv h
    exact .ok (work_of_ok h) hw ha
  | error e w =>
    obtain ⟨hw, he⟩ := hx.of_error hv h
    exact .error (work_of_error h) hw he

end SurveyM

/-- The failures that a program comes to have `E`, as long as those of the copies that it asks for
do. -/
def RuleM.FailsOnly {C α : Type} (E : Error → Prop) : RuleM C α → Prop
  | .done _ => True
  | .fail e => E e
  | .look k => ∀ F, (k F).FailsOnly E
  | .create _ k => ∀ h, (k h).FailsOnly E
  | .copy _ k => ∀ r, (∀ e, r = .error e → E e) → (k r).FailsOnly E
  | .record _ k => k.FailsOnly E

theorem RuleM.failsOnly_of_forall {C α : Type} {E : Error → Prop} (hE : ∀ e, E e)
    (x : RuleM C α) : x.FailsOnly E := by
  induction x with
  | done a => trivial
  | fail e => exact hE e
  | look k ih => exact ih
  | create content k ih => exact ih
  | copy h k ih => exact fun r _ => ih r
  | record t k ih => exact ih

def Rule.FailsOnly {C σ : Type} (E : Error → Prop) (rule : Rule C σ) : Prop :=
  ∀ h memory, (rule.apply h memory).FailsOnly E

namespace SurveyM
variable {C σ : Type} [ShallowCopy C] {I : Session C → Prop} {E : Error → Prop} {rule : Rule C σ}

/-! If the programs of a rule obey an invariant of sessions, a walk with the rule does. -/

section
variable (hrule : ∀ h memory, Obeys (fun w : Workspace C => I w.toSession) E Anything
  (rule.apply h memory).run)
include hrule

theorem obeys_applyAt (h : Handle) :
    Obeys (fun v : Survey C σ => I v.toSession) E Anything (applyAt rule h) := by
  refine .bind (.modify fun v hv => hv) fun _ _ => .bind .get fun v _ => ?_
  refine .bind (obeys_work (hrule h v.memory)) fun outcome _ => ?_
  exact .bind (.modify fun v hv => hv) fun _ _ => .pure trivial

variable (hE : ∀ e, e ≠ .positionOutsideList → E e)
include hE

omit [ShallowCopy C] hrule in
theorem obeys_children (h : Handle) :
    Obeys (fun v : Survey C σ => I v.toSession) E Anything
      (work (WorkM.edit (EditM.query fun F => F.children h))) := by
  have hask : Obeys I E Anything (EditM.query fun F => F.children h) := .query fun s _ =>
    ⟨fun _ _ => trivial, fun e he => hE e fun heq => s.forest.quiet_children h (heq ▸ he)⟩
  exact obeys_work (WorkM.obeys_edit_session hask)

theorem obeys_preOrder (n : Nat) (h : Handle) :
    Obeys (fun v : Survey C σ => I v.toSession) E Anything (preOrder rule n h) := by
  induction n generalizing h with
  | zero => exact .throw (hE _ nofun)
  | succ n ih =>
    refine .bind (obeys_applyAt hrule h) fun descend _ => ?_
    cases descend with
    | false => exact .pure trivial
    | true => exact .bind (obeys_children hE h) fun cs _ => .forM cs fun c _ => ih c

theorem obeys_postOrder (n : Nat) (h : Handle) :
    Obeys (fun v : Survey C σ => I v.toSession) E Anything (postOrder rule n h) := by
  induction n generalizing h with
  | zero => exact .throw (hE _ nofun)
  | succ n ih =>
    refine .bind (obeys_children hE h) fun cs _ => .bind (.forM cs fun c _ => ih c) fun _ _ => ?_
    exact (obeys_applyAt hrule h).discard

theorem obeys_survey (t : Traversal) (root : Handle) :
    Obeys (fun v : Survey C σ => I v.toSession) E Anything (t.survey rule root) := by
  refine .bind .get fun v _ => ?_
  cases t with
  | preOrder => exact obeys_preOrder hrule hE _ root
  | postOrder => exact obeys_postOrder hrule hE _ root

end
end SurveyM

namespace MakerRegime
variable {C σ α : Type} [ShallowCopy C] {I : Session C → Prop} {E : Error → Prop}
  {A : Handle → Prop} (hI : MakerRegime I E A)
include hI

theorem ruleRun (x : RuleM C α) (hx : x.FailsOnly E) :
    Obeys (fun w : Workspace C => I w.toSession) E Anything x.run := by
  induction x with
  | done a => exact .pure trivial
  | fail e => exact .throw hx
  | look k ih => exact .bind .get fun w _ => ih w.forest (hx w.forest)
  | create content k ih =>
    exact .bind (WorkM.obeys_edit_session (hI.create content)) fun h _ => ih h (hx h)
  | copy h k ih =>
    have hattempt : Obeys (fun w : Workspace C => I w.toSession) E (fun r => ∀ e, r = .error e → E e)
        (RuleM.attempt (EditM.copy (C := C) h)) := by
      refine .tryCatch (.bind (WorkM.obeys_edit_session (hI.copy h)) fun _ _ => .pure ?_)
        fun e he => .pure ?_
      · exact fun e he => nomatch he
      · exact fun e' he' => Except.error.inj he' ▸ he
    exact .bind hattempt fun r hr => ih r (hx r hr)
  | record t k ih => exact .bind (.modify fun w hw => hw) fun _ _ => ih hx

theorem survey {rule : Rule C σ} (hrule : rule.FailsOnly E) (t : Traversal) (root : Handle) :
    Obeys (fun v : Survey C σ => I v.toSession) E Anything (t.survey rule root) :=
  SurveyM.obeys_survey (fun h memory => hI.ruleRun _ (hrule h memory)) hI.tolerates t root

end MakerRegime
end Grove
