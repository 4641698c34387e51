import Grove.Proofs.Edit.Run
import Grove.Proofs.Forest.Quiet

/-!
# Programs that obey

A program obeys an invariant if it keeps it, whether or not it fails. Together with the invariant it is
said what the program may give and what it may fail with. A program that is put together from
obeying ones obeys, as long as each part accepts what the one before it may give.
-/

namespace Grove
set_option autoImplicit false

section Programs
variable {ε σ α β : Type} {I : σ → Prop} {E E' : ε → Prop} {P Q : α → Prop} {R : β → Prop}

/-- From the state `s` the program comes to a state with `I`; what it gives has `Q`, and what it
fails with has `E`. -/
structure ObeysAt (I : σ → Prop) (E : ε → Prop) (Q : α → Prop) (x : EStateM ε σ α) (s : σ) :
    Prop where
  of_ok : ∀ a t, x s = .ok a t → I t ∧ Q a
  of_error : ∀ e t, x s = .error e t → I t ∧ E e

/-- The program obeys from every state with `I`. -/
def Obeys (I : σ → Prop) (E : ε → Prop) (Q : α → Prop) (x : EStateM ε σ α) : Prop :=
  ∀ s, I s → ObeysAt I E Q x s

namespace ObeysAt
variable {x : EStateM ε σ α} {s t : σ}

theorem ok {a : α} (h : x s = .ok a t) (ht : I t) (ha : Q a) : ObeysAt I E Q x s := by
  refine ⟨fun b u hb => ?_, fun e u he => ?_⟩
  · rw [h] at hb
    cases hb
    exact ⟨ht, ha⟩
  · rw [h] at he
    exact nomatch he

theorem error {e : ε} (h : x s = .error e t) (ht : I t) (he : E e) : ObeysAt I E Q x s := by
  refine ⟨fun b u hb => ?_, fun e' u he' => ?_⟩
  · rw [h] at hb
    exact nomatch hb
  · rw [h] at he'
    cases he'
    exact ⟨ht, he⟩

/-- A program that runs like an obeying one obeys. -/
theorem congr {y : EStateM ε σ α} (h : x s = y t) (hy : ObeysAt I E Q y t) :
    ObeysAt I E Q x s :=
  ⟨fun a u ha => hy.of_ok a u (h ▸ ha), fun e u he => hy.of_error e u (h ▸ he)⟩

theorem final (hx : ObeysAt I E Q x s) : I (final x s) := by
  cases h : x s with
  | ok a t =>
    rw [final_of_ok h]
    exact (hx.of_ok a t h).1
  | error e t =>
    rw [final_of_error h]
    exact (hx.of_error e t h).1

end ObeysAt

/-- What a program may give of which nothing is said. -/
def Anything (_ : α) : Prop := True

namespace Obeys
variable {x : EStateM ε σ α}

theorem final (hx : Obeys I E Q x) {s : σ} (hs : I s) : I (final x s) := (hx s hs).final

theorem of_ok (hx : Obeys I E Q x) {s t : σ} {a : α} (hs : I s) (h : x s = .ok a t) : I t ∧ Q a :=
  (hx s hs).of_ok a t h

theorem of_error (hx : Obeys I E Q x) {s t : σ} {e : ε} (hs : I s) (h : x s = .error e t) :
    I t ∧ E e :=
  (hx s hs).of_error e t h

theorem weaken (hx : Obeys I E P x) (hPQ : ∀ a, P a → Q a) : Obeys I E Q x := fun s hs =>
  ⟨fun a t h => ((hx s hs).of_ok a t h).imp_right (hPQ a), (hx s hs).of_error⟩

theorem anything (hx : Obeys I E Q x) : Obeys I E Anything x := hx.weaken fun _ _ => trivial

theorem pure {a : α} (ha : Q a) : Obeys I E Q (pure a : EStateM ε σ α) := fun _ hs =>
  .ok rfl hs ha

theorem throw {e : ε} (he : E e) : Obeys I E Q (throw e : EStateM ε σ α) := fun _ hs =>
  .error rfl hs he

theorem get : Obeys I E I (get : EStateM ε σ σ) := fun _ hs => .ok rfl hs hs

theorem modifyGet {f : σ → α × σ} (hf : ∀ s, I s → I (f s).2 ∧ Q (f s).1) :
    Obeys I E Q (modifyGet f : EStateM ε σ α) := fun s hs =>
  .ok rfl (hf s hs).1 (hf s hs).2

theorem modify {f : σ → σ} (hf : ∀ s, I s → I (f s)) :
    Obeys I E Anything (modify f : EStateM ε σ PUnit) :=
  modifyGet fun s hs => ⟨hf s hs, trivial⟩

theorem bind {f : α → EStateM ε σ β} (hx : Obeys I E Q x) (hf : ∀ a, Q a → Obeys I E R (f a)) :
    Obeys I E R (x >>= f) := by
  intro s hs
  cases h : x s with
  | ok a t =>
    obtain ⟨ht, ha⟩ := hx.of_ok hs h
    exact .congr (bind_of_ok f h) (hf a ha t ht)
  | error e t =>
    obtain ⟨ht, he⟩ := hx.of_error hs h
    exact .error (bind_of_error f h) ht he

theorem map {f : α → β} (hx : Obeys I E Q x) (hf : ∀ a, Q a → R (f a)) :
    Obeys I E R (f <$> x) := by
  intro s hs
  cases h : x s with
  | ok a t =>
    obtain ⟨ht, ha⟩ := hx.of_ok hs h
    exact .ok (map_of_ok f h) ht (hf a ha)
  | error e t =>
    obtain ⟨ht, he⟩ := hx.of_error hs h
    exact .error (map_of_error f h) ht he

theorem discard (hx : Obeys I E Q x) : Obeys I E Anything (discard x) := hx.map fun _ _ => trivial

theorem tryCatch {handler : ε → EStateM ε σ α} (hx : Obeys I E' Q x)
    (hhandler : ∀ e, E' e → Obeys I E Q (handler e)) : Obeys I E Q (tryCatch x handler) := by
  intro s hs
  cases h : x s with
  | ok a t =>
    obtain ⟨ht, ha⟩ := hx.of_ok hs h
    exact .ok (tryCatch_of_ok handler h) ht ha
  | error e t =>
    obtain ⟨ht, he⟩ := hx.of_error hs h
    exact .congr (tryCatch_of_error handler h) (hhandler e he t ht)

theorem forM {f : α → EStateM ε σ PUnit} (l : List α) (hf : ∀ a ∈ l, Obeys I E Anything (f a)) :
    Obeys I E Anything (l.forM f) := by
  induction l with
  | nil => exact pure trivial
  | cons a l ih =>
    refine bind (hf a List.mem_cons_self) fun _ _ => ?_
    exact ih fun b hb => hf b (List.mem_cons_of_mem a hb)

theorem mapM {f : α → EStateM ε σ β} (l : List α) (hf : ∀ a ∈ l, Obeys I E R (f a)) :
    Obeys I E (fun bs => ∀ b ∈ bs, R b) (l.mapM f) := by
  induction l with
  | nil =>
    rw [List.mapM_nil]
    exact pure fun b hb => absurd hb List.not_mem_nil
  | cons a l ih =>
    rw [List.mapM_cons]
    refine bind (hf a List.mem_cons_self) fun b hb => ?_
    refine bind (ih fun c hc => hf c (List.mem_cons_of_mem a hc)) fun bs hbs => pure fun c hc => ?_
    rcases List.mem_cons.mp hc with rfl | hc
    · exact hb
    · exact hbs c hc

end Obeys
end Programs

namespace Obeys
variable {C α : Type} {I : Session C → Prop} {E : Error → Prop} {Q : α → Prop}

theorem query {q : Forest C → Except Error α}
    (hq : ∀ s, I s → (∀ a, q s.forest = .ok a → Q a) ∧ ∀ e, q s.forest = .error e → E e) :
    Obeys I E Q (EditM.query q) := by
  intro s hs
  cases h : q s.forest with
  | ok a => exact .ok (EditM.query_of_ok h) hs ((hq s hs).1 a h)
  | error e => exact .error (EditM.query_of_error h) hs ((hq s hs).2 e h)

theorem look {f : Forest C → α} (hf : ∀ s, I s → Q (f s.forest)) :
    Obeys I E Q (EditM.look f) := fun s hs =>
  .ok rfl hs (hf s hs)

theorem describe [Content C] (h : Handle) : Obeys I E Anything (EditM.describe (C := C) h) :=
  look fun _ _ => trivial

/-- A check that may fail before an edit. -/
theorem checked {p : Prop} [Decidable p] {x : EditM C α} {fault : Forest C → Error}
    (hfault : ∀ F, E (fault F)) (hx : Obeys I E Q x) :
    Obeys I E Q (if p then EditM.look fault >>= fun e => (MonadExcept.throw e : EditM C PUnit) >>=
      fun _ => x else x) := by
  split
  · refine bind (look (Q := E) fun s _ => hfault s.forest) fun e he => ?_
    exact bind (throw (Q := Anything) he) fun _ _ => hx
  · exact hx

end Obeys
end Grove
