import Grove.Edit.Link
import Grove.Proofs.Forest.Relink
import Grove.Proofs.Forest.Stand

/-!
# Runs

How a program with state and failure runs, step by step: what a sequence does once the outcome of its
first part is known, and, the other way, what the outcome of a sequence tells about its parts. The
small programs of `EditM` follow, each with the outcome it has.
-/

namespace Grove
set_option autoImplicit false

section Programs
variable {ε σ α β : Type} {s t : σ} {a : α} {b : β} {e : ε}

/-- The state in which a program ends, whether or not it fails. -/
def final (x : EStateM ε σ α) (s : σ) : σ :=
  match x s with
  | .ok _ t => t
  | .error _ t => t

theorem final_of_ok {x : EStateM ε σ α} (hx : x s = .ok a t) : final x s = t := by
  simp only [final, hx]

theorem final_of_error {x : EStateM ε σ α} (hx : x s = .error e t) : final x s = t := by
  simp only [final, hx]

theorem final_congr {x y : EStateM ε σ α} (h : x s = y t) : final x s = final y t := by
  simp only [final, h]

theorem bind_of_ok {x : EStateM ε σ α} (f : α → EStateM ε σ β) (hx : x s = .ok a t) :
    (x >>= f) s = f a t := by
  simp only [bind, EStateM.bind, hx]

theorem bind_of_error {x : EStateM ε σ α} (f : α → EStateM ε σ β) (hx : x s = .error e t) :
    (x >>= f) s = .error e t := by
  simp only [bind, EStateM.bind, hx]

theorem map_of_ok {x : EStateM ε σ α} (f : α → β) (hx : x s = .ok a t) :
    (f <$> x) s = .ok (f a) t := by
  simp only [Functor.map, EStateM.map, hx]

theorem map_of_error {x : EStateM ε σ α} (f : α → β) (hx : x s = .error e t) :
    (f <$> x) s = .error e t := by
  simp only [Functor.map, EStateM.map, hx]

theorem discard_of_ok {x : EStateM ε σ α} (hx : x s = .ok a t) : discard x s = .ok ⟨⟩ t :=
  map_of_ok (Function.const α PUnit.unit) hx

theorem discard_of_error {x : EStateM ε σ α} (hx : x s = .error e t) :
    discard x s = .error e t :=
  map_of_error (Function.const α PUnit.unit) hx

theorem final_map (f : α → β) (x : EStateM ε σ α) (s : σ) : final (f <$> x) s = final x s := by
  cases hx : x s with
  | ok a t => rw [final_of_ok hx, final_of_ok (map_of_ok f hx)]
  | error e t => rw [final_of_error hx, final_of_error (map_of_error f hx)]

theorem final_discard (x : EStateM ε σ α) (s : σ) : final (discard x) s = final x s :=
  final_map _ x s

theorem final_bind_pure (f : α → β) (x : EStateM ε σ α) (s : σ) :
    final (x >>= fun a => pure (f a)) s = final x s := final_map f x s

theorem tryCatch_of_ok {x : EStateM ε σ α} (handler : ε → EStateM ε σ α) (hx : x s = .ok a t) :
    tryCatch x handler s = .ok a t := by
  simp only [tryCatch, tryCatchThe, MonadExceptOf.tryCatch, EStateM.tryCatch, hx]

theorem tryCatch_of_error {x : EStateM ε σ α} (handler : ε → EStateM ε σ α)
    (hx : x s = .error e t) : tryCatch x handler s = handler e t := by
  simp only [tryCatch, tryCatchThe, MonadExceptOf.tryCatch, EStateM.tryCatch, hx]
  rfl

theorem bind_eq_ok {x : EStateM ε σ α} {f : α → EStateM ε σ β} :
    (x >>= f) s = .ok b t ↔ ∃ a u, x s = .ok a u ∧ f a u = .ok b t := by
  cases hx : x s with
  | ok a u =>
    rw [bind_of_ok f hx]
    simp
  | error e u =>
    rw [bind_of_error f hx]
    simp

theorem bind_eq_error {x : EStateM ε σ α} {f : α → EStateM ε σ β} :
    (x >>= f) s = .error e t ↔
      x s = .error e t ∨ ∃ a u, x s = .ok a u ∧ f a u = .error e t := by
  cases hx : x s with
  | ok a u =>
    rw [bind_of_ok f hx]
    simp
  | error e u =>
    rw [bind_of_error f hx]
    simp

end Programs

def Session.withForest {C : Type} (s : Session C) (F : Forest C) : Session C :=
  { s with forest := F }

@[simp] theorem Session.forest_withForest {C : Type} (s : Session C) (F : Forest C) :
    (s.withForest F).forest = F := rfl

@[simp] theorem Session.withForest_withForest {C : Type} (s : Session C) (F G : Forest C) :
    (s.withForest F).withForest G = s.withForest G := rfl

@[simp] theorem Session.withForest_self {C : Type} (s : Session C) :
    s.withForest s.forest = s := rfl

namespace EditM
variable {C α : Type} {s : Session C} {a : α} {e : Error} {h p : Handle}

theorem get_run (s : Session C) : (get : EditM C (Session C)) s = .ok s s := rfl

theorem query_of_ok {q : Forest C → Except Error α} (hq : q s.forest = .ok a) :
    query q s = .ok a s := by
  rw [query, bind_of_ok _ (get_run s), hq]
  rfl

theorem query_of_error {q : Forest C → Except Error α} (hq : q s.forest = .error e) :
    query q s = .error e s := by
  rw [query, bind_of_ok _ (get_run s), hq]
  rfl

theorem look_run (f : Forest C → α) (s : Session C) : look f s = .ok (f s.forest) s := rfl

theorem notify_run (n : Notice) (s : Session C) :
    notify n s = .ok () { s with notices := s.notices ++ [n] } := rfl

theorem throw_run (e : Error) (s : Session C) : (throw e : EditM C α) s = .error e s := rfl

theorem pure_run (a : α) (s : Session C) : (pure a : EditM C α) s = .ok a s := rfl

theorem onFailure_of_ok {x : EditM C α} {t : Session C} (cleanup : EditM C Unit)
    (hx : x s = .ok a t) : onFailure x cleanup s = .ok a t :=
  tryCatch_of_ok _ hx

theorem onFailure_of_error {x : EditM C α} {t u : Session C} {cleanup : EditM C Unit}
    (hx : x s = .error e t) (hc : cleanup t = .ok () u) :
    onFailure x cleanup s = .error e u := by
  rw [onFailure, tryCatch_of_error _ hx, bind_of_ok _ hc]
  rfl

theorem onFailure_eq_ok {t : Session C} {x : EditM C α} {cleanup : EditM C Unit} :
    onFailure x cleanup s = .ok a t ↔ x s = .ok a t := by
  cases hx : x s with
  | ok b u => rw [onFailure_of_ok cleanup hx]
  | error e u =>
    rw [onFailure, tryCatch_of_error _ hx]
    cases hc : cleanup u with
    | ok b v =>
      rw [bind_of_ok _ hc, throw_run]
      simp
    | error e' v =>
      rw [bind_of_error _ hc]
      simp

theorem query_eq_ok {t : Session C} {q : Forest C → Except Error α} :
    query q s = .ok a t ↔ q s.forest = .ok a ∧ t = s := by
  cases hq : q s.forest with
  | ok b =>
    rw [query_of_ok hq]
    simp [eq_comm]
  | error e =>
    rw [query_of_error hq]
    simp

theorem query_node (hh : s.forest.contains h = true) :
    ∃ n, s.forest.get? h = some n ∧ query (fun F => F.node h) s = .ok n s := by
  obtain ⟨n, hn⟩ := Forest.contains_iff.mp hh
  exact ⟨n, hn, query_of_ok (Forest.node_of_get? hn)⟩

theorem query_node_of_not_contains (hh : s.forest.contains h = false) :
    query (fun F => F.node h) s = .error (.invalidHandle h) s :=
  query_of_error (Forest.node_of_not_contains hh)

theorem query_parent (hh : s.forest.contains h = true) :
    query (fun F => F.parent h) s = .ok (s.forest.above? h) s :=
  query_of_ok (Forest.parent_of_contains hh)

theorem query_children (hh : s.forest.contains h = true) :
    query (fun F => F.children h) s = .ok (s.forest.below h) s :=
  query_of_ok (Forest.children_of_contains hh)

theorem query_numChildren (hh : s.forest.contains h = true) :
    query (fun F => F.numChildren h) s = .ok (s.forest.below h).length s :=
  query_of_ok (Forest.numChildren_of_contains hh)

theorem updateNode_of_contains (f : Node C → Node C) (hh : s.forest.contains h = true) :
    updateNode h f s = .ok () (s.withForest (s.forest.update h f)) := by
  obtain ⟨n, -, hq⟩ := query_node hh
  simp only [updateNode, bind_of_ok _ (discard_of_ok hq)]
  rfl

theorem editChildren_of_some {f : List Handle → Option (α × List Handle)} {l : List Handle}
    (hh : s.forest.contains h = true) (he : f (s.forest.below h) = some (a, l)) :
    editChildren h f s = .ok a (s.withForest (s.forest.setBelow h l)) := by
  simp only [editChildren, bind_of_ok _ (query_children hh), he,
    bind_of_ok _ (updateNode_of_contains _ hh)]
  rfl

theorem create_run (content : C) (s : Session C) :
    create content s =
      .ok (s.forest.plant content).1 (s.withForest (s.forest.plant content).2) := rfl

theorem setContent_of_contains (f : C → C) (hh : s.forest.contains h = true) :
    setContent h f s =
      .ok () (s.withForest (s.forest.update h fun n => { n with content := f n.content })) :=
  updateNode_of_contains _ hh

theorem setContent_of_not_contains (f : C → C) (hh : s.forest.contains h = false) :
    setContent h f s = .error (.invalidHandle h) s :=
  bind_of_error _ (discard_of_error (query_node_of_not_contains hh))

/-- A question about a handle that names no node fails and changes nothing. -/
theorem query_of_not_contains {q : Forest C → Except Error α} {k : Node C → Except Error α}
    (hq : q s.forest = s.forest.node h >>= k) (hh : s.forest.contains h = false) :
    query q s = .error (.invalidHandle h) s := by
  apply query_of_error
  rw [hq, Forest.node_of_not_contains hh]
  rfl

end EditM
end Grove
