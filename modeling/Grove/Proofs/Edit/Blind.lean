import Grove.Proofs.Edit.History
import Grove.Proofs.Edit.Swap
import Grove.Proofs.Edit.Transplant
import Grove.Sample.Label
import Grove.Sample.Plain

/-!
# Blind edits

An edit is blind to the settings if it does the same under other settings: it gives the same, fails
alike, and leaves the same nodes and notices. What settings decide is what is inserted for a node that
has a parent, so an insertion of a parentless node is blind, and so is everything that inserts nodes
only after it has detached them.
-/

namespace Grove
set_option autoImplicit false

section Programs
variable {ε σ α β : Type} {g : σ → σ} {s t : σ}

/-- The outcome with another final state. -/
def onState (g : σ → σ) : EStateM.Result ε σ α → EStateM.Result ε σ α
  | .ok a s => .ok a (g s)
  | .error e s => .error e (g s)

/-- The program does in `g s` what it does in `s`. -/
def Commutes (g : σ → σ) (x : EStateM ε σ α) (s : σ) : Prop := x (g s) = onState g (x s)

namespace Commutes

theorem of_ok {x : EStateM ε σ α} {a : α} (hx : x s = .ok a t) (hg : x (g s) = .ok a (g t)) :
    Commutes g x s := by
  rw [Commutes, hg, hx, onState]

theorem of_error {x : EStateM ε σ α} {e : ε} (hx : x s = .error e t)
    (hg : x (g s) = .error e (g t)) : Commutes g x s := by
  rw [Commutes, hg, hx, onState]

theorem run_of_ok {x : EStateM ε σ α} {a : α} (hg : Commutes g x s) (hx : x s = .ok a t) :
    x (g s) = .ok a (g t) := by
  rw [hg, hx, onState]

theorem run_of_error {x : EStateM ε σ α} {e : ε} (hg : Commutes g x s) (hx : x s = .error e t) :
    x (g s) = .error e (g t) := by
  rw [hg, hx, onState]

theorem final_eq {x : EStateM ε σ α} (hg : Commutes g x s) : final x (g s) = g (final x s) := by
  cases hx : x s with
  | ok a t => rw [final_of_ok (hg.run_of_ok hx), final_of_ok hx]
  | error e t => rw [final_of_error (hg.run_of_error hx), final_of_error hx]

theorem pure (a : α) : Commutes g (pure a : EStateM ε σ α) s := rfl

theorem throw (e : ε) : Commutes g (throw e : EStateM ε σ α) s := rfl

theorem bind {x : EStateM ε σ α} {f : α → EStateM ε σ β} (hx : Commutes g x s)
    (hf : ∀ a t, x s = .ok a t → Commutes g (f a) t) : Commutes g (x >>= f) s := by
  cases h : x s with
  | ok a t => rw [Commutes, bind_of_ok f (hx.run_of_ok h), bind_of_ok f h, hf a t h]
  | error e t => exact .of_error (bind_of_error f h) (bind_of_error f (hx.run_of_error h))

theorem map {x : EStateM ε σ α} (f : α → β) (hx : Commutes g x s) : Commutes g (f <$> x) s := by
  cases h : x s with
  | ok a t => exact .of_ok (map_of_ok f h) (map_of_ok f (hx.run_of_ok h))
  | error e t => exact .of_error (map_of_error f h) (map_of_error f (hx.run_of_error h))

theorem discard {x : EStateM ε σ α} (hx : Commutes g x s) : Commutes g (discard x) s := hx.map _

end Commutes
end Programs

namespace Forest
variable {C : Type}

/-- The same nodes under other settings. -/
def withSettings (settings : Settings) (F : Forest C) : Forest C := { F with settings }

variable (F : Forest C) (settings : Settings)

/-! A question that looks up a fixed number of nodes is the same by unfolding; walks take an
induction. -/

theorem ascend_withSettings (n : Nat) (start : Option Handle) :
    (F.withSettings settings).ascend n start = F.ascend n start := by
  induction n generalizing start with
  | zero => rfl
  | succ n ih =>
    cases start with
    | none => rfl
    | some h => exact congrArg (h :: ·) (ih (F.above? h))

theorem isAncestor_withSettings (h a : Handle) :
    (F.withSettings settings).isAncestor h a = F.isAncestor h a := by
  simp only [isAncestor, ascendants, lineage, ascend_withSettings]
  rfl

theorem preOrderFrom_withSettings (n : Nat) (pending : List Handle) :
    (F.withSettings settings).preOrderFrom n pending = F.preOrderFrom n pending := by
  induction n generalizing pending with
  | zero => rfl
  | succ n ih =>
    cases pending with
    | nil => rfl
    | cons h pending => exact congrArg (h :: ·) (ih (F.below h ++ pending))

theorem descendantsAndSelf_withSettings (h : Handle) :
    (F.withSettings settings).descendantsAndSelf h = F.descendantsAndSelf h := by
  simp only [descendantsAndSelf, preOrderFrom_withSettings]
  rfl

variable [Content C]

theorem ensureAcyclic_withSettings (p x : Handle) :
    (F.withSettings settings).ensureAcyclic p x = F.ensureAcyclic p x := by
  simp only [ensureAcyclic, isAncestor_withSettings]
  rfl

theorem ensureNotAbove_withSettings (base x : Handle) :
    (F.withSettings settings).ensureNotAbove base x = F.ensureNotAbove base x := by
  simp only [ensureNotAbove, isAncestor_withSettings]
  rfl

theorem follow_withSettings (root : Handle) (path : List Nat) :
    (F.withSettings settings).follow root path = F.follow root path := by
  induction path generalizing root with
  | nil => rfl
  | cons i path ih =>
    simp only [follow, ih]
    rfl

end Forest

/-- The same session under other settings. -/
def Session.withSettings {C : Type} (settings : Settings) (s : Session C) : Session C :=
  { s with forest := s.forest.withSettings settings }

namespace EditM
variable {C α β : Type} {s t : Session C}

/-- Under all other settings the edit does the same. -/
def Blind (x : EditM C α) (s : Session C) : Prop :=
  ∀ settings, Commutes (Session.withSettings settings) x s

namespace Blind

theorem pure (a : α) : Blind (pure a : EditM C α) s := fun _ => .pure a

theorem throw (e : Error) : Blind (throw e : EditM C α) s := fun _ => .throw e

theorem bind {x : EditM C α} {f : α → EditM C β} (hx : Blind x s)
    (hf : ∀ a t, x s = .ok a t → Blind (f a) t) : Blind (x >>= f) s := fun settings =>
  .bind (hx settings) fun a t h => hf a t h settings

theorem map {x : EditM C α} (f : α → β) (hx : Blind x s) : Blind (f <$> x) s := fun settings =>
  .map f (hx settings)

theorem discard {x : EditM C α} (hx : Blind x s) : Blind (discard x) s := hx.map _

/-- A question that does not look at the settings. -/
theorem query {q : Forest C → Except Error α}
    (hq : ∀ (F : Forest C) settings, q (F.withSettings settings) = q F) : Blind (query q) s := by
  intro settings
  have hforest : q (s.withSettings settings).forest = q s.forest := hq s.forest settings
  cases h : q s.forest with
  | ok a => exact .of_ok (query_of_ok h) (query_of_ok (hforest.trans h))
  | error e => exact .of_error (query_of_error h) (query_of_error (hforest.trans h))

/-- What comes after a failure is not asked for anything. -/
theorem fail {e : Error} {f : α → EditM C β} :
    Blind ((MonadExcept.throw e : EditM C α) >>= f) s := fun _ => rfl

theorem query_bind {q : Forest C → Except Error α} {f : α → EditM C β}
    (hq : ∀ (F : Forest C) settings, q (F.withSettings settings) = q F)
    (hf : ∀ a, q s.forest = .ok a → Blind (f a) s) : Blind (EditM.query q >>= f) s :=
  .bind (.query hq) fun a t h => by
    obtain ⟨ha, rfl⟩ := query_eq_ok.mp h
    exact hf a ha

theorem look {f : Forest C → α} (hf : ∀ (F : Forest C) settings, f (F.withSettings settings) = f F) :
    Blind (look f) s := fun settings =>
  .of_ok rfl (congrArg (fun a => EStateM.Result.ok a _) (hf s.forest settings))

theorem notify (n : Notice) : Blind (notify (C := C) n) s := fun _ => rfl

theorem modifyNodes (f : Store (Node C) → Store (Node C)) : Blind (modifyNodes f) s := fun _ => rfl

theorem create (content : C) : Blind (create content) s := fun _ => rfl

theorem updateNode (h : Handle) (f : Node C → Node C) : Blind (updateNode h f) s :=
  .bind (.discard (.query fun _ _ => rfl)) fun _ _ _ => .modifyNodes _

theorem editChildren (h : Handle) (edit : List Handle → Option (α × List Handle)) :
    Blind (editChildren h edit) s := by
  refine .query_bind (fun _ _ => rfl) fun cs _ => ?_
  cases edit cs with
  | none => exact .throw _
  | some acs => exact .bind (.updateNode _ _) fun _ _ _ => .pure _

theorem forM {f : α → EditM C PUnit} (l : List α) (hf : ∀ a ∈ l, ∀ t, Blind (f a) t) :
    Blind (l.forM f) s := by
  induction l generalizing s with
  | nil => exact .pure _
  | cons a l ih =>
    refine .bind (hf a List.mem_cons_self s) fun _ _ _ => ?_
    exact ih fun b hb => hf b (List.mem_cons_of_mem a hb)

variable [Content C]

theorem describe (h : Handle) : Blind (describe (C := C) h) s := .look fun _ _ => rfl

/-- A check that may fail before an edit. -/
theorem checked {p : Prop} [Decidable p] {x : EditM C α} (parent : Handle) (i : Nat)
    (hx : Blind x s) :
    Blind (if p then EditM.look (fun F => F.indexError parent i) >>= fun e =>
      (MonadExcept.throw e : EditM C PUnit) >>= fun _ => x else x) s := by
  split
  · exact .bind (.look fun _ _ => rfl) fun _ _ _ => .fail
  · exact hx

/-! ## Links -/

theorem removeParent (h : Handle) : Blind (removeParent (C := C) h) s := by
  refine .query_bind (fun _ _ => rfl) fun parent? _ => ?_
  cases parent? with
  | none => exact .bind (.describe _) fun _ _ _ => .throw _
  | some p => exact .bind (.updateNode _ _) fun _ _ _ => .pure _

theorem setAsParentOf (p x : Handle) : Blind (setAsParentOf (C := C) p x) s := by
  have hpoint : ∀ t : Session C, Blind (do
      EditM.query fun F => F.ensureAcyclic p x
      EditM.updateNode (C := C) x fun n => { n with parent := some p }) t := fun _ =>
    .query_bind (fun F _ => F.ensureAcyclic_withSettings _ p x) fun _ _ => .updateNode _ _
  refine .bind (.discard (.query fun _ _ => rfl)) fun _ _ _ => ?_
  refine .query_bind (fun _ _ => rfl) fun parent? _ => ?_
  cases parent? with
  | none => exact hpoint _
  | some q =>
    exact .bind (.describe _) fun _ _ _ => .bind (.describe _) fun _ _ _ => .fail

theorem attach (p : Handle) (i : Nat) (x : Handle) : Blind (attach (C := C) p i x) s :=
  .bind (.setAsParentOf p x) fun _ _ _ => .editChildren _ _

theorem attachLast (p x : Handle) : Blind (attachLast (C := C) p x) s :=
  .query_bind (fun _ _ => rfl) fun _ _ => .attach p _ x

/-! ## Removals -/

theorem removeChild (p : Handle) (i : Nat) : Blind (removeChild (C := C) p i) s := by
  have hremove : Blind (do
      let child ← EditM.editChildren (C := C) p fun cs => Position.erase? cs i
      Functor.discard (EditM.removeParent child)
      return child) s :=
    .bind (.editChildren _ _) fun c _ _ => .bind (.discard (.removeParent c)) fun _ _ _ => .pure _
  refine .query_bind (fun _ _ => rfl) fun len _ => ?_
  dsimp only
  split
  · exact .bind (.describe _) fun _ _ _ => .fail
  · exact .checked p i hremove

theorem removeChildNode (p c : Handle) : Blind (removeChildNode (C := C) p c) s := by
  refine .query_bind (fun _ _ => rfl) fun index? _ => ?_
  cases index? with
  | some i => exact .bind (.discard (.removeChild p i)) fun _ _ _ => .pure _
  | none => exact .bind (.describe _) fun _ _ _ => .bind (.notify _) fun _ _ _ => .pure _

theorem removeFirst (p : Handle) (n : Nat) : Blind (removeFirst (C := C) p n) s := by
  induction n generalizing s with
  | zero => exact .pure _
  | succ n ih => exact .bind (.removeChild p 0) fun _ _ _ => .bind ih fun _ _ _ => .pure _

theorem removeChildren (p : Handle) : Blind (removeChildren (C := C) p) s :=
  .query_bind (fun _ _ => rfl) fun n _ => .removeFirst p n

theorem removeSlice (p : Handle) (start n : Nat) :
    Blind (removeSlice (C := C) p start n) s := by
  induction n generalizing s with
  | zero => exact .pure _
  | succ n ih => exact .bind (.removeChild p _) fun _ _ _ => .bind ih fun _ _ _ => .pure _

theorem removeChildrenRange (p : Handle) (start stop : Nat) :
    Blind (removeChildrenRange (C := C) p start stop) s :=
  .query_bind (fun _ _ => rfl) fun _ _ =>
    .checked p start (.checked p stop (.removeSlice p _ _))

theorem removeOfKindFrom (p : Handle) (k : Kind C) (i : Nat) (cs : List Handle) :
    Blind (removeOfKindFrom (C := C) p k i cs) s := by
  induction cs generalizing i s with
  | nil => exact .pure _
  | cons c cs ih =>
    refine .query_bind (fun _ _ => rfl) fun kind _ => ?_
    split
    · exact .bind (.removeChild p i) fun _ _ _ => .bind (ih i) fun _ _ _ => .pure _
    · exact ih (i + 1)

theorem removeChildrenOfKind (p : Handle) (k : Kind C) :
    Blind (removeChildrenOfKind (C := C) p k) s :=
  .query_bind (fun _ _ => rfl) fun cs _ => .removeOfKindFrom p k 0 cs

theorem detach (h : Handle) : Blind (detach (C := C) h) s := by
  refine .query_bind (fun _ _ => rfl) fun parent? _ => ?_
  cases parent? with
  | none => exact .pure _
  | some p =>
    refine .query_bind (fun _ _ => rfl) fun index? _ => ?_
    cases index? with
    | some i => exact .discard (.removeChild p i)
    | none =>
      exact .bind (.describe _) fun _ _ _ => .bind (.describe _) fun _ _ _ =>
        .bind (.notify _) fun _ _ _ => .discard (.removeParent h)

theorem dispose (h : Handle) : Blind (dispose (C := C) h) s := by
  have hfree : Blind (do
      let subtree ← EditM.query (C := C) fun F => F.descendantsAndSelf h
      EditM.modifyNodes fun st => subtree.foldl Store.erase st
      return subtree.length) s :=
    .query_bind (fun F _ => F.descendantsAndSelf_withSettings _ h) fun ds _ =>
      .bind (.modifyNodes _) fun _ _ _ => .pure _
  refine .query_bind (fun _ _ => rfl) fun parent? _ => ?_
  cases parent? with
  | none => exact hfree
  | some p =>
    exact .bind (.describe _) fun _ _ _ => .bind (.describe _) fun _ _ _ => .fail

end Blind
end EditM

/-- Shallow copies that do not look at the settings. -/
class BlindCopy (C : Type) [ShallowCopy C] : Prop where
  copyShallow : ∀ (s : Session C) (h : Handle), (EditM.copyShallow h).Blind s

instance : BlindCopy Label where
  copyShallow s h := by
    refine .query_bind (fun _ _ => rfl) fun content _ => .bind (.create content) fun copy t _ => ?_
    dsimp only
    split
    · exact .bind (.create _) fun stray _ _ => .bind (.attachLast copy stray) fun _ _ _ => .pure _
    · exact .pure _

instance : BlindCopy Plain where
  copyShallow _ _ := .query_bind (fun _ _ => rfl) fun content _ => .create content

namespace EditM
variable {C α : Type} [ShallowCopy C] {s t : Session C}

theorem above?_of_detach (hF : s.forest.WellFormed) {h : Handle} (hrun : detach h s = .ok () t) :
    t.forest.above? h = none := by
  cases hh : s.forest.contains h with
  | false => exact nomatch (detach_of_not_contains hh).symm.trans hrun
  | true =>
    cases (detach_of_contains hF hh).symm.trans hrun
    rw [Session.forest_withForest, Forest.above?_cut, if_pos rfl]

namespace Blind
variable {p x : Handle}

theorem discardChildren (h : Handle) : Blind (discardChildren (C := C) h) s := by
  refine .query_bind (fun _ _ => rfl) fun b _ => ?_
  cases b with
  | false => exact .pure _
  | true =>
    exact .bind (.removeChildren h) fun _ _ _ => .bind (.describe _) fun _ _ _ => .notify _

theorem delete (base : Handle) : Blind (delete (C := C) base) s := by
  refine .query_bind (fun _ _ => rfl) fun parent? _ => ?_
  cases parent? with
  | none => exact .bind (.describe _) fun _ _ _ => .notify _
  | some p => exact .query_bind (fun _ _ => rfl) fun i _ => .discard (.removeChild p i)

/-! ## Insertions of parentless nodes -/

section
variable (hx : s.forest.above? x = none)
include hx

theorem sanitize : Blind (sanitize x) s := by
  refine .query_bind (fun _ _ => rfl) fun parent? hparent => ?_
  obtain ⟨-, habove⟩ := Forest.parent_eq_ok hparent
  cases hx.symm.trans habove
  exact .pure x

theorem insertChild (p : Handle) (i : Nat) : Blind (insertChild p i x) s :=
  .query_bind (fun _ _ => rfl) fun _ _ => .checked p i <|
    .bind (.sanitize hx) fun y _ _ => .bind (.attach p i y) fun _ _ _ => .pure _

theorem addChild (p : Handle) : Blind (addChild p x) s :=
  .query_bind (fun _ _ => rfl) fun i _ => .insertChild hx p i

theorem addChildLeftOf (p y : Handle) : Blind (addChildLeftOf p x y) s :=
  .query_bind (fun _ _ => rfl) fun i _ => .insertChild hx p i

theorem addChildRightOf (p y : Handle) : Blind (addChildRightOf p x y) s :=
  .query_bind (fun _ _ => rfl) fun i _ => .insertChild hx p (i + 1)

theorem setChild (p : Handle) (i : Nat) : Blind (setChild p i x) s := by
  have hset : Blind (do
      let inserted ← EditM.sanitize x
      EditM.setAsParentOf p inserted
      let previous ← EditM.editChildren p fun cs => Position.replace? cs i inserted
      Functor.discard (EditM.removeParent previous)
      return previous) s :=
    .bind (.sanitize hx) fun y _ _ => .bind (.setAsParentOf p y) fun _ _ _ =>
      .bind (.editChildren p _) fun c _ _ => .bind (.discard (.removeParent c)) fun _ _ _ => .pure _
  refine .query_bind (fun _ _ => rfl) fun len _ => ?_
  dsimp only
  split
  · exact .bind (.describe _) fun _ _ _ => .fail
  · exact .checked p i hset

theorem replaceChild (p old : Handle) : Blind (replaceChild p old x) s := by
  refine .query_bind (fun _ _ => rfl) fun index? _ => ?_
  cases index? with
  | some i => exact .setChild hx p i
  | none => exact .bind (.describe _) fun _ _ _ => .bind (.describe _) fun _ _ _ => .throw _

theorem setChildAndRemove (p : Handle) (start stop : Nat) :
    Blind (setChildAndRemove p x start stop) s := by
  refine .checked p start (.query_bind (fun _ _ => rfl) fun _ _ => .checked p stop ?_)
  refine .bind (.discard (.setChild hx p start)) fun _ _ _ => ?_
  refine .bind (.discard (.removeSlice p _ _)) fun _ _ _ => ?_
  exact .query fun _ _ => rfl

theorem setAtPath (root : Handle) (path : List Nat) : Blind (setAtPath root x path) s := by
  unfold EditM.setAtPath
  split
  · exact .pure _
  · exact .query_bind (fun F _ => F.follow_withSettings _ root _) fun p _ =>
      .map _ (.setChild hx p _)

end

/-! ## Edits beside a node -/

theorem insertBeside (hF : s.forest.WellFormed) (side : Side) (base : Handle) {move : Bool}
    (hx : move = true ∨ s.forest.above? x = none) : Blind (insertBeside side base x move) s := by
  have hinsert : ∀ (p : Handle) (u : Session C), u.forest.above? x = none → Blind (do
      let i ← EditM.query fun F => F.positionIn p base
      EditM.insertChild p (i + side.offset) x) u := fun p u hu =>
    .query_bind (fun _ _ => rfl) fun i _ => .insertChild hu p _
  refine .query_bind (fun _ _ => rfl) fun parent? _ => ?_
  cases parent? with
  | none => exact .bind (.describe _) fun _ _ _ => .bind (.notify _) fun _ _ _ => .pure _
  | some p =>
    cases move with
    | false => exact hinsert p s (hx.resolve_left Bool.false_ne_true)
    | true =>
      refine .query_bind (fun F _ => F.ensureNotAbove_withSettings _ base x) fun _ _ => ?_
      exact .bind (.detach x) fun _ u hu => hinsert p u (above?_of_detach hF hu)

theorem replace (hF : s.forest.WellFormed) (base : Handle) {move : Bool}
    (hx : move = true ∨ s.forest.above? x = none) : Blind (replace base x move) s := by
  have hset : ∀ (p : Handle) (u : Session C), u.forest.above? x = none → Blind (do
      let i ← EditM.query fun F => F.positionIn p base
      Functor.discard (EditM.setChild p i x)
      EditM.query fun F => F.child p i) u := fun p u hu =>
    .query_bind (fun _ _ => rfl) fun i _ => .bind (.discard (.setChild hu p i)) fun _ _ _ =>
      .query fun _ _ => rfl
  refine .query_bind (fun _ _ => rfl) fun parent? _ => ?_
  cases parent? with
  | none => exact .bind (.describe _) fun _ _ _ => .bind (.notify _) fun _ _ _ => .pure _
  | some p =>
    dsimp only
    split
    · exact .pure _
    · cases move with
      | false => exact hset p s (hx.resolve_left Bool.false_ne_true)
      | true =>
        refine .query_bind (fun _ _ => rfl) fun owned howned => ?_
        obtain ⟨-, howned⟩ := Forest.hasParent_eq_ok howned
        cases owned with
        | false => exact hset p s (by simpa using howned)
        | true =>
          refine .query_bind (fun F _ => F.ensureNotAbove_withSettings _ base x) fun _ _ => ?_
          exact .bind (.detach x) fun _ u hu => hset p u (above?_of_detach hF hu)

/-- The children that are handed over have been made roots before, and so has the node itself. -/
theorem addRoots {base : Handle} {cs : List Handle} (hs : s.forest.Handover p base x cs) :
    Blind (cs.forM fun c => Functor.discard (EditM.addChild x c)) s := by
  induction cs generalizing s with
  | nil => exact .pure _
  | cons c cs ih =>
    obtain ⟨hc, hroot, hne, -⟩ := hs.pending c List.mem_cons_self
    have hadd : EditM.addChild x c s =
        .ok c (s.withForest (s.forest.link x (s.forest.below x).length c)) := by
      rw [EditM.addChild, bind_of_ok _ (query_numChildren hs.contains)]
      exact insertChild_of_root hs.wellFormed hs.contains (Nat.le_refl _) hc hroot
        (Forest.not_covers_of_root hs.root hne)
    refine .bind (.discard (.addChild hroot x)) fun _ t ht => ?_
    cases (discard_of_ok hadd).symm.trans ht
    exact ih hs.link

theorem transplant (hF : s.forest.WellFormed) (base : Handle) : Blind (transplant base x) s := by
  refine .query_bind (fun _ _ => rfl) fun parent? hparent => ?_
  obtain ⟨hb, hp⟩ := Forest.parent_eq_ok hparent
  cases parent? with
  | none => exact .bind (.describe _) fun _ _ _ => .throw _
  | some p =>
    dsimp only
    split
    · exact .pure _
    · refine .query_bind (fun F _ => F.ensureNotAbove_withSettings _ base x) fun u hu => ?_
      refine .bind (.discardChildren x) fun _ t hdiscard => ?_
      cases hx : s.forest.contains x with
      | false =>
        have hkids := query_of_not_contains (q := fun F => F.hasChildren x) rfl hx
        exact nomatch (bind_of_error _ hkids).symm.trans hdiscard
      | true =>
        obtain ⟨s₁, s₂, s₃, hdiscard', hdetach', hremove', -, hhandover⟩ :=
          transplant_handover hF hp hx (hF.not_covers_of_ensureNotAbove hb hu)
        cases hdiscard'.symm.trans hdiscard
        refine .bind (.detach x) fun _ t hdetach => ?_
        cases hdetach'.symm.trans hdetach
        refine .bind (.removeChildren base) fun cs' t hremove => ?_
        cases hremove'.symm.trans hremove
        refine .bind (.addRoots hhandover) fun _ t hadd => ?_
        obtain ⟨G, hadd', hG, -⟩ := addRoots_run hhandover
        cases hadd'.symm.trans hadd
        refine .query_bind (fun _ _ => rfl) fun index? _ => ?_
        cases index? with
        | some i =>
          exact .bind (.discard (.setChild hG.root p i)) fun _ _ _ => .query fun _ _ => rfl
        | none =>
          exact .bind (.describe _) fun _ _ _ => .bind (.describe _) fun _ _ _ => .throw _

/-! ## Swaps -/

omit [ShallowCopy C] in
theorem swapPositions (a b : Handle) : Blind (swapPositions (C := C) a b) s :=
  .query_bind (fun _ _ => rfl) fun _ _ => .query_bind (fun _ _ => rfl) fun links _ =>
    .forM links fun _ _ _ => .updateNode _ _

variable [BlindCopy C] [SafeCopy C]

theorem swapSubtrees (hF : s.forest.WellFormed) (a b : Handle) :
    Blind (swapSubtrees (C := C) a b) s := by
  have hmove : ∀ {u v : Session C} {base y : Handle} {r : PUnit}, u.forest.WellFormed →
      Functor.discard (EditM.replace base y true) u = .ok r v → v.forest.WellFormed := by
    intro u v base y r hu hrun
    have hlaw := (editLaw_keepsWellFormed (C := C)).links u
    exact ((hlaw.replace trivial trivial true).discard.of_ok (refl_of KeepsWellFormed u) hrun).1 hu
  refine .query_bind (fun F _ => ?_) fun nested _ => ?_
  · simp only [Forest.isAncestor_withSettings]
  cases nested with
  | true =>
    exact .bind (.describe _) fun _ _ _ => .bind (.describe _) fun _ _ _ =>
      .bind (.notify _) fun _ _ _ => .pure _
  | false =>
    refine .query_bind (fun _ _ => rfl) fun owned _ => ?_
    cases owned with
    | false =>
      exact .bind (.describe _) fun _ _ _ => .bind (.describe _) fun _ _ _ =>
        .bind (.notify _) fun _ _ _ => .pure _
    | true =>
      refine .bind (BlindCopy.copyShallow s a) fun c s₁ hs₁ => ?_
      have hF₁ := (linkLaw_keepsWellFormed.copyShallow a).of_ok hs₁ hF
      refine .bind (.discard (.replace hF₁ a (Or.inl rfl))) fun _ s₂ hs₂ => ?_
      have hF₂ := hmove hF₁ hs₂
      refine .bind (.discard (.replace hF₂ b (Or.inl rfl))) fun _ s₃ hs₃ => ?_
      have hF₃ := hmove hF₂ hs₃
      refine .bind (.discard (.replace hF₃ c (Or.inl rfl))) fun _ s₄ _ => ?_
      exact .bind (.discard (.dispose c)) fun _ _ _ => .pure _

theorem swap (hF : s.forest.WellFormed) (a b : Handle) (subtrees : Bool) :
    Blind (swap (C := C) a b subtrees) s := by
  unfold EditM.swap
  split
  · exact .bind (.discard (.query fun _ _ => rfl)) fun _ _ _ => .pure _
  · cases subtrees with
    | true => exact .swapSubtrees hF a b
    | false => exact .bind (.swapPositions a b) fun _ _ _ => .pure _

end Blind
end EditM

/-! ## Cursors -/

namespace Cursor
variable {C : Type} (settings : Settings) (c : Cursor C)

/-- The cursor at the same place of the session under other settings. -/
def withSettings : Cursor C := { c with session := c.session.withSettings settings }

theorem previous_withSettings :
    (c.withSettings settings).previous = (c.previous.1, c.previous.2.withSettings settings) := by
  have hindex : (c.withSettings settings).previousIndex? = c.previousIndex? := rfl
  have hchildren : (c.withSettings settings).children = c.children := rfl
  simp only [previous, hindex, hchildren]
  cases c.previousIndex? with
  | none => rfl
  | some i =>
    dsimp only
    cases c.children[i]? with
    | none => rfl
    | some child => rfl

end Cursor

namespace CursorM
variable {C α : Type} {c : Cursor C}

/-- Under all other settings the call of a cursor does the same. -/
def Blind (x : CursorM C α) (c : Cursor C) : Prop :=
  ∀ settings, Commutes (Cursor.withSettings settings) x c

namespace Blind

theorem pure (a : α) : Blind (pure a : CursorM C α) c := fun _ => .pure a

theorem bind {β : Type} {x : CursorM C α} {f : α → CursorM C β} (hx : Blind x c)
    (hf : ∀ a d, x c = .ok a d → Blind (f a) d) : Blind (x >>= f) c := fun settings =>
  .bind (hx settings) fun a d h => hf a d h settings

theorem discard {x : CursorM C α} (hx : Blind x c) : Blind (discard x) c := fun settings =>
  .discard (hx settings)

theorem edit {x : EditM C α} (hx : x.Blind c.session) : Blind (edit x) c := by
  intro settings
  cases h : x c.session with
  | ok a s => exact .of_ok (edit_of_ok h) (edit_of_ok ((hx settings).run_of_ok h))
  | error e s => exact .of_error (edit_of_error h) (edit_of_error ((hx settings).run_of_error h))

theorem fail {β : Type} {e : Error} {f : α → CursorM C β} :
    Blind ((MonadExcept.throw e : CursorM C α) >>= f) c := fun _ => rfl

/-- A program may look at all of a cursor but its session. -/
theorem get_bind {f : Cursor C → CursorM C α}
    (hf : ∀ settings, f (c.withSettings settings) = f c) (h : Blind (f c) c) :
    Blind (get >>= f) c := by
  intro settings
  change f (c.withSettings settings) (c.withSettings settings) = onState _ (f c c)
  rw [hf settings]
  exact h settings

theorem modifyGet {f : Cursor C → α × Cursor C}
    (hf : ∀ settings, f (c.withSettings settings) = ((f c).1, (f c).2.withSettings settings)) :
    Blind (modifyGet f : CursorM C α) c := by
  intro settings
  have hrun : (MonadState.modifyGet f : CursorM C α) (c.withSettings settings) =
      .ok (f (c.withSettings settings)).1 (f (c.withSettings settings)).2 := rfl
  rw [hf] at hrun
  exact .of_ok rfl hrun

theorem previous : Blind (MonadState.modifyGet (Cursor.previous (C := C)) : CursorM C _) c :=
  .modifyGet c.previous_withSettings

theorem requireLast_bind {fault : CursorFault} {f : Nat → CursorM C α} (hf : ∀ i, Blind (f i) c) :
    Blind (requireLast fault >>= f) c := by
  rw [requireLast, bind_assoc]
  refine .get_bind (fun _ => rfl) ?_
  cases c.last with
  | some i => exact hf i
  | none => exact .fail

variable [ShallowCopy C]

theorem remove : Blind (remove (C := C)) c := by
  refine .requireLast_bind fun i => .get_bind (fun _ => rfl) ?_
  refine .bind (.edit (.removeChild _ i)) fun _ _ _ => ?_
  exact .bind (.modifyGet fun _ => rfl) fun _ _ _ => .pure _

theorem removeBack (n : Nat) : Blind (removeBack (C := C) n) c := by
  induction n generalizing c with
  | zero => exact .pure _
  | succ n ih =>
    refine .bind (.discard .remove) fun _ _ _ => .bind .previous fun child? _ _ => ?_
    cases child? with
    | none => exact .fail
    | some child => exact ih

theorem set {x : Handle} (hx : c.session.forest.above? x = none) : Blind (set x) c := by
  refine .requireLast_bind fun i => .get_bind (fun _ => rfl) ?_
  refine .bind (.discard (.edit (.setChild hx c.parent i))) fun _ _ _ => ?_
  exact .edit (.query fun _ _ => rfl)

theorem add {x : Handle} (hx : c.session.forest.above? x = none) : Blind (add x) c := by
  refine .get_bind (fun _ => rfl) ?_
  refine .bind (.edit (.insertChild hx c.parent c.position)) fun _ _ _ => ?_
  exact .bind (.modifyGet fun _ => rfl) fun _ _ _ => .pure _

theorem replace {x : Handle} (count : Nat)
    (hx : ∀ u d, CursorM.removeBack (count - 1) c = .ok u d → d.session.forest.above? x = none) :
    Blind (replace x count) c := by
  have hcollapse : Blind (do
      CursorM.removeBack (C := C) (count - 1)
      let inserted ← CursorM.set x
      let c ← MonadState.get
      if c.last.any fun index => decide (index < c.position) then
        Functor.discard (MonadState.modifyGet Cursor.previous)
      return inserted) c := by
    refine .bind (.removeBack _) fun u d hd => .bind (.set (hx u d hd)) fun inserted d' _ => ?_
    refine .get_bind (fun _ => rfl) ?_
    dsimp only
    split
    · exact .bind (.discard .previous) fun _ _ _ => .pure _
    · exact .pure _
  have hchecked : Blind (do
      let last ← CursorM.requireLast (C := C) .replaceUnmoved
      if last + 1 < count then MonadExcept.throw (.cursorState .replaceShort)
      CursorM.removeBack (C := C) (count - 1)
      let inserted ← CursorM.set x
      let c ← MonadState.get
      if c.last.any fun index => decide (index < c.position) then
        Functor.discard (MonadState.modifyGet Cursor.previous)
      return inserted) c := by
    refine .requireLast_bind fun last => ?_
    dsimp only
    split
    · exact .fail
    · exact hcollapse
  unfold CursorM.replace
  split
  · exact .fail
  · exact hchecked

end Blind
end CursorM
end Grove
