import Grove.Edit.Swap
import Grove.Proofs.Edit.Obey
import Mathlib.Order.Defs.Unbundled

/-!
# Laws of edits

A law is a relation between the session before an edit and the session after it, whether or not the
edit fails. A law that the linking edits, the insertions and the copies of a content type follow is
followed by all edits, since these are put together from them.
-/

namespace Grove
set_option autoImplicit false

section Programs
variable {ε σ α β : Type} {R : σ → σ → Prop}

/-- Wherever a program starts, the state in which it ends is related to the first one. -/
def Follows (R : σ → σ → Prop) (x : EStateM ε σ α) : Prop := ∀ s, R s (final x s)

namespace Follows

theorem of_ok {x : EStateM ε σ α} (hx : Follows R x) {s t : σ} {a : α} (h : x s = .ok a t) :
    R s t :=
  final_of_ok h ▸ hx s

theorem of_error {x : EStateM ε σ α} (hx : Follows R x) {s t : σ} {e : ε} (h : x s = .error e t) :
    R s t :=
  final_of_error h ▸ hx s

theorem map {x : EStateM ε σ α} (f : α → β) (hx : Follows R x) : Follows R (f <$> x) := by
  intro s
  rw [final_map]
  exact hx s

theorem discard {x : EStateM ε σ α} (hx : Follows R x) : Follows R (discard x) := map _ hx

variable [IsPreorder σ R]

theorem of_final {x : EStateM ε σ α} (hx : ∀ s, final x s = s) : Follows R x := fun s =>
  (hx s).symm ▸ refl_of R s

theorem pure (a : α) : Follows R (pure a : EStateM ε σ α) := of_final fun _ => rfl

theorem throw (e : ε) : Follows R (throw e : EStateM ε σ α) := of_final fun _ => rfl

theorem get : Follows R (get : EStateM ε σ σ) := of_final fun _ => rfl

theorem bind {x : EStateM ε σ α} {f : α → EStateM ε σ β} (hx : Follows R x)
    (hf : ∀ a, Follows R (f a)) : Follows R (x >>= f) := by
  intro s
  cases h : x s with
  | ok a t =>
    rw [final_congr (bind_of_ok f h)]
    exact trans_of R (hx.of_ok h) (hf a t)
  | error e t =>
    rw [final_of_error (bind_of_error f h)]
    exact hx.of_error h

theorem tryCatch {x : EStateM ε σ α} {handler : ε → EStateM ε σ α} (hx : Follows R x)
    (hhandler : ∀ e, Follows R (handler e)) : Follows R (tryCatch x handler) := by
  intro s
  cases h : x s with
  | ok a t =>
    rw [final_of_ok (tryCatch_of_ok handler h)]
    exact hx.of_ok h
  | error e t =>
    rw [final_congr (tryCatch_of_error handler h)]
    exact trans_of R (hx.of_error h) (hhandler e t)

theorem forM {f : α → EStateM ε σ PUnit} (l : List α) (hf : ∀ a ∈ l, Follows R (f a)) :
    Follows R (l.forM f) := by
  induction l with
  | nil => exact pure _
  | cons a l ih =>
    refine bind (hf a List.mem_cons_self) fun _ => ?_
    exact ih fun b hb => hf b (List.mem_cons_of_mem a hb)

/-- What follows a law stays among the states that are related to a given one. -/
theorem obeys {x : EStateM ε σ α} (hx : Follows R x) (s₀ : σ) :
    Obeys (R s₀) (fun _ => True) Anything x := fun _ hs =>
  ⟨fun _ _ h => ⟨trans_of R hs (hx.of_ok h), trivial⟩,
    fun _ _ h => ⟨trans_of R hs (hx.of_error h), trivial⟩⟩

theorem of_obeys {x : EStateM ε σ α} {E : ε → Prop} {Q : α → Prop}
    (hx : ∀ s, Obeys (R s) E Q x) : Follows R x := fun s => (hx s).final (refl_of R s)

end Follows
end Programs

namespace Follows
variable {C α : Type} {R : Session C → Session C → Prop} [IsPreorder (Session C) R]

theorem query (q : Forest C → Except Error α) : Follows R (EditM.query q) := by
  refine of_final fun s => ?_
  cases hq : q s.forest with
  | ok a => exact final_of_ok (EditM.query_of_ok hq)
  | error e => exact final_of_error (EditM.query_of_error hq)

theorem look (f : Forest C → α) : Follows R (EditM.look f) := of_final fun _ => rfl

theorem describe [Content C] (h : Handle) : Follows R (EditM.describe (C := C) h) := look _

/-- A check that may fail before an edit. -/
theorem checked {c : Prop} [Decidable c] {x : EditM C α} (fault : Forest C → Error)
    (hx : Follows R x) :
    Follows R (if c then EditM.look fault >>= fun e => (MonadExcept.throw e : EditM C PUnit) >>=
      fun _ => x else x) := by
  split
  · exact .bind (.look _) fun e => .bind (.throw e) fun _ => hx
  · exact hx

end Follows

/-- A law of sessions that the linking edits and the shallow copies follow. -/
structure LinkLaw {C : Type} [ShallowCopy C] (R : Session C → Session C → Prop) : Prop
    extends IsPreorder (Session C) R where
  notify : ∀ n, Follows R (EditM.notify n)
  create : ∀ content, Follows R (EditM.create content)
  setContent : ∀ h f, Follows R (EditM.setContent h f)
  attachLast : ∀ p x, Follows R (EditM.attachLast p x)
  removeChild : ∀ p i, Follows R (EditM.removeChild p i)
  detach : ∀ h, Follows R (EditM.detach h)
  dispose : ∀ h, Follows R (EditM.dispose h)
  copyShallow : ∀ h, Follows R (EditM.copyShallow h)

/-- A law that also the insertions and the exchange of two nodes follow. -/
structure EditLaw {C : Type} [ShallowCopy C] (R : Session C → Session C → Prop) : Prop
    extends LinkLaw R where
  insertChild : ∀ p i x, Follows R (EditM.insertChild p i x)
  setChild : ∀ p i x, Follows R (EditM.setChild p i x)
  swapPositions : ∀ a b, Follows R (EditM.swapPositions a b)

namespace LinkLaw
variable {C α : Type} [ShallowCopy C] {R : Session C → Session C → Prop} (hR : LinkLaw R)
include hR

theorem release (h : Handle) : Follows R (EditM.release (C := C) h) := by
  have := hR.toIsPreorder
  refine .tryCatch ?_ fun e => hR.notify _
  exact .bind (hR.detach h) fun _ => .discard (hR.dispose h)

theorem onFailure {x : EditM C α} {cleanup : EditM C Unit} (hx : Follows R x)
    (hc : Follows R cleanup) : Follows R (EditM.onFailure x cleanup) := by
  have := hR.toIsPreorder
  exact .tryCatch hx fun e => .bind hc fun _ => .throw e

/-! ## Copies -/

theorem copyBare (h : Handle) : Follows R (EditM.copyBare (C := C) h) := by
  have := hR.toIsPreorder
  refine .bind (hR.copyShallow h) fun copy => .bind (.query _) fun n => ?_
  dsimp only
  split
  · refine .bind (.describe copy) fun _ => .bind (hR.release copy) fun _ => ?_
    exact .bind (.throw _) fun _ => .pure _
  · exact .pure _

theorem copyPending (m : Nat) (pending : List (Handle × Handle)) :
    Follows R (EditM.copyPending (C := C) m pending) := by
  have := hR.toIsPreorder
  induction m generalizing pending with
  | zero =>
    cases pending with
    | nil => exact .pure _
    | cons ab pending => exact .throw _
  | succ m ih =>
    cases pending with
    | nil => exact .pure _
    | cons ab pending =>
      refine .bind (hR.copyBare _) fun copy => .bind ?_ fun _ => .bind (.query _) fun _ => ih _
      exact hR.onFailure (hR.attachLast _ copy) (hR.release copy)

theorem copy (h : Handle) : Follows R (EditM.copy (C := C) h) := by
  have := hR.toIsPreorder
  refine .bind (hR.copyBare h) fun root => .bind ?_ fun _ => .pure _
  refine hR.onFailure ?_ (hR.release root)
  exact .bind (.query _) fun _ => .bind (.look _) fun _ => hR.copyPending _ _

theorem sanitize (h : Handle) : Follows R (EditM.sanitize (C := C) h) := by
  have := hR.toIsPreorder
  refine .bind (.query _) fun parent? => ?_
  cases parent? with
  | none => exact .pure _
  | some parent =>
    refine .bind (.look _) fun policy => ?_
    cases policy with
    | copy => exact hR.copy h
    | reject => exact .bind (.describe _) fun _ => .bind (.describe _) fun _ => .throw _

end LinkLaw
end Grove
