import Grove.Forest.Ancestry
import Grove.Forest.Path

/-!
# Quiet questions

Only a change of a children list can fail for a position that the list does not have; a question
checks its positions itself and fails for other reasons.
-/

namespace Grove
set_option autoImplicit false

/-- The answer is not the failure of a change at a position that a list does not have. -/
def Quiet {α : Type} (answer : Except Error α) : Prop := answer ≠ .error .positionOutsideList

namespace Quiet
variable {α β : Type}

theorem pure (a : α) : Quiet (pure a) := nofun

theorem throw {e : Error} (he : e ≠ .positionOutsideList) : Quiet (throw e : Except Error α) :=
  fun h => he (Except.error.inj h)

theorem bind {x : Except Error α} {f : α → Except Error β} (hx : Quiet x)
    (hf : ∀ a, Quiet (f a)) : Quiet (x >>= f) := by
  cases x with
  | ok a => exact hf a
  | error e => exact throw fun he => hx (congrArg Except.error he)

theorem mapM {f : α → Except Error β} (hf : ∀ a, Quiet (f a)) (l : List α) : Quiet (l.mapM f) := by
  induction l with
  | nil => exact pure _
  | cons a l ih =>
    rw [List.mapM_cons]
    exact bind (hf a) fun _ => bind ih fun _ => pure _

theorem discard {x : Except Error α} (hx : Quiet x) : Quiet (discard x) := by
  cases x with
  | ok a => exact nofun
  | error e => exact throw fun he => hx (congrArg Except.error he)

/-- A check that may fail before the answer. -/
theorem checked {p : Prop} [Decidable p] {x : Except Error α} {e : Error}
    (he : e ≠ .positionOutsideList) (hx : Quiet x) :
    Quiet (if p then (MonadExcept.throw e : Except Error PUnit) >>= fun _ => x else x) := by
  split
  · exact bind (throw he) fun _ => hx
  · exact hx

end Quiet

namespace Forest
variable {C : Type} (F : Forest C) (h k : Handle)

theorem quiet_node : Quiet (F.node h) := by
  unfold node
  cases F.get? h with
  | some n => exact nofun
  | none => exact nofun

theorem quiet_content : Quiet (F.content h) := .bind (F.quiet_node h) fun _ => .pure _

theorem quiet_parent : Quiet (F.parent h) := .bind (F.quiet_node h) fun _ => .pure _

theorem quiet_hasParent : Quiet (F.hasParent h) := .bind (F.quiet_node h) fun _ => .pure _

theorem quiet_children : Quiet (F.children h) := .bind (F.quiet_node h) fun _ => .pure _

theorem quiet_numChildren : Quiet (F.numChildren h) := .bind (F.quiet_node h) fun _ => .pure _

theorem quiet_hasChildren : Quiet (F.hasChildren h) := .bind (F.quiet_node h) fun _ => .pure _

theorem quiet_indexOfChild : Quiet (F.indexOfChild h k) :=
  .bind (F.quiet_children h) fun _ => .pure _

theorem quiet_ensureRooted (line : List Handle) : Quiet (F.ensureRooted line) := by
  refine .checked nofun ?_
  cases line.getLast? with
  | none => exact .pure _
  | some top => exact .discard (F.quiet_node top)

theorem quiet_isAncestor : Quiet (F.isAncestor h k) := by
  refine .bind (.bind (F.quiet_parent h) fun _ => .pure _) fun line => ?_
  split
  · exact .pure _
  · exact .bind (F.quiet_ensureRooted line) fun _ => .pure _

section
variable [Content C]

theorem quiet_kind : Quiet (F.kind h) := .bind (F.quiet_node h) fun _ => .pure _

theorem quiet_child (i : Nat) : Quiet (F.child h i) := by
  refine .bind (F.quiet_node h) fun n => .checked nofun ?_
  cases n.children[i]? with
  | some c => exact .pure _
  | none => exact .throw nofun

theorem quiet_siblingIndex : Quiet (F.siblingIndex h k) := by
  refine .bind (F.quiet_indexOfChild h k) fun index? => ?_
  cases index? with
  | some i => exact .pure _
  | none => exact .throw nofun

theorem quiet_positionIn : Quiet (F.positionIn h k) := by
  refine .bind (F.quiet_indexOfChild h k) fun index? => ?_
  cases index? with
  | some i => exact .pure _
  | none => exact .throw nofun

theorem quiet_ensureAcyclic : Quiet (F.ensureAcyclic h k) := by
  refine .checked nofun (.bind (F.quiet_hasChildren k) fun kids => ?_)
  cases kids with
  | false => exact .pure _
  | true =>
    refine .bind (F.quiet_isAncestor h k) fun above => ?_
    cases above with
    | true => exact .throw nofun
    | false => exact .pure _

theorem quiet_ensureNotAbove : Quiet (F.ensureNotAbove h k) := by
  refine .checked nofun (.bind (F.quiet_isAncestor h k) fun above => ?_)
  cases above with
  | true => exact .throw nofun
  | false => exact .pure _

theorem quiet_follow (path : List Nat) : Quiet (F.follow h path) := by
  induction path generalizing h with
  | nil => exact .pure _
  | cons i path ih =>
    refine .bind (F.quiet_children h) fun cs => ?_
    cases cs[i]? with
    | some c => exact ih c
    | none => exact .throw nofun

end
end Forest
end Grove
