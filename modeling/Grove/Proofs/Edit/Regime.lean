import Grove.Proofs.Edit.Obey
import Grove.Transform

/-!
# Regimes

A regime consists of an invariant of sessions, of the nodes that may be worked on, and of the failures
that are put up with. If the linking edits, the insertions and the exchanges obey the invariant as long
as they work on admitted nodes, all edits do that are put together from them, since the nodes that they
come to on their way are linked to admitted ones.
-/

namespace Grove
set_option autoImplicit false

/-- The edits that write links between admitted nodes obey. Every failure is put up with but that of a
change at a position that a list does not have. -/
structure LinkRegime {C : Type} [ShallowCopy C] (I : Session C → Prop) (E : Error → Prop)
    (A : Handle → Prop) : Prop where
  tolerates : ∀ e, e ≠ .positionOutsideList → E e
  above : ∀ {s h p}, I s → A h → s.forest.above? h = some p → A p
  below : ∀ {s h c}, I s → A h → c ∈ s.forest.below h → A c
  notify : ∀ n, Obeys I E Anything (EditM.notify n)
  removeChild : ∀ {p} i, A p → Obeys I E A (EditM.removeChild p i)
  detach : ∀ {h}, A h → Obeys I E Anything (EditM.detach h)
  insertChild : ∀ {p x} i, A p → A x → Obeys I E A (EditM.insertChild p i x)
  setChild : ∀ {p x} i, A p → A x → Obeys I E A (EditM.setChild p i x)

/-- The exchanges of admitted nodes, and the copies of owned ones, obey as well. -/
structure EditRegime {C : Type} [ShallowCopy C] (I : Session C → Prop) (E : Error → Prop)
    (A : Handle → Prop) : Prop extends LinkRegime I E A where
  sanitize : ∀ {h}, A h → Obeys I E A (EditM.sanitize h)
  swapPositions : ∀ {a b}, A a → A b → Obeys I E Anything (EditM.swapPositions a b)
  swapSubtrees : ∀ {a b}, a ≠ b → A a → A b → Obeys I E Anything (EditM.swapSubtrees a b)

namespace LinkRegime
variable {C α : Type} [ShallowCopy C] {I : Session C → Prop} {E : Error → Prop}
  {A : Handle → Prop} {Q : α → Prop} (hI : LinkRegime I E A)
include hI

/-! ## Questions -/

theorem query {q : Forest C → Except Error α} (hquiet : ∀ F, Quiet (q F))
    (hQ : ∀ s a, I s → q s.forest = .ok a → Q a) : Obeys I E Q (EditM.query q) :=
  .query fun s hs => ⟨fun a ha => hQ s a hs ha, fun e he =>
    hI.tolerates e fun heq => hquiet s.forest (heq ▸ he)⟩

theorem ask {q : Forest C → Except Error α} (hquiet : ∀ F, Quiet (q F)) :
    Obeys I E Anything (EditM.query q) :=
  hI.query hquiet fun _ _ _ _ => trivial

theorem fail {e : Error} (he : e ≠ .positionOutsideList) :
    Obeys I E Q (throw e : EditM C α) :=
  .throw (hI.tolerates e he)

theorem checked {p : Prop} [Decidable p] {x : EditM C α} (parent : Handle) (i : Nat)
    (hx : Obeys I E Q x) :
    Obeys I E Q (if p then EditM.look (fun F => F.indexError parent i) >>= fun e =>
      (MonadExcept.throw e : EditM C PUnit) >>= fun _ => x else x) :=
  .checked (fun _ => hI.tolerates _ nofun) hx

theorem parent {h : Handle} (hh : A h) :
    Obeys I E (fun p? => ∀ p, p? = some p → A p) (EditM.query fun F => F.parent h) := by
  refine hI.query (fun F => F.quiet_parent h) fun s p? hs hp p hsome => ?_
  obtain ⟨-, hparent⟩ := Forest.parent_eq_ok hp
  exact hI.above hs hh (hparent.trans hsome)

theorem children {h : Handle} (hh : A h) :
    Obeys I E (fun cs => ∀ c ∈ cs, A c) (EditM.query fun F => F.children h) := by
  refine hI.query (fun F => F.quiet_children h) fun s cs hs hcs c hc => ?_
  exact hI.below hs hh ((Forest.children_eq_ok hcs).2 ▸ hc)

theorem child {p : Handle} (hp : A p) (i : Nat) :
    Obeys I E A (EditM.query fun F => F.child p i) := by
  refine hI.query (fun F => F.quiet_child p i) fun s c hs hc => ?_
  exact hI.below hs hp (List.mem_of_getElem? (Forest.getElem?_of_child hc))

theorem follow {root : Handle} (hroot : A root) (path : List Nat) :
    Obeys I E A (EditM.query fun F => F.follow root path) := by
  refine hI.query (fun F => F.quiet_follow root path) fun s h hs hh => ?_
  induction path generalizing root with
  | nil =>
    cases hh
    exact hroot
  | cons i path ih =>
    cases hcs : s.forest.children root with
    | error e =>
      rw [Forest.follow, hcs] at hh
      exact nomatch hh
    | ok cs =>
      rw [Forest.follow, hcs] at hh
      cases hc : cs[i]? with
      | none =>
        simp only [bind, Except.bind, hc] at hh
        exact nomatch hh
      | some c =>
        simp only [bind, Except.bind, hc] at hh
        have hmem := (Forest.children_eq_ok hcs).2 ▸ List.mem_of_getElem? hc
        exact ih (hI.below hs hroot hmem) hh

/-! ## Removals -/

variable {p x h base : Handle}

theorem removeChildNode (hp : A p) (c : Handle) :
    Obeys I E Anything (EditM.removeChildNode p c) := by
  refine .bind (hI.ask fun F => F.quiet_indexOfChild p c) fun index? _ => ?_
  cases index? with
  | some i => exact .bind (hI.removeChild i hp).discard fun _ _ => .pure trivial
  | none => exact .bind (.describe _) fun _ _ => .bind (hI.notify _) fun _ _ => .pure trivial

theorem removeFirst (hp : A p) (n : Nat) :
    Obeys I E (fun cs => ∀ c ∈ cs, A c) (EditM.removeFirst p n) := by
  induction n with
  | zero => exact .pure fun c hc => absurd hc List.not_mem_nil
  | succ n ih =>
    refine .bind (hI.removeChild 0 hp) fun c hc => .bind ih fun cs hcs => .pure fun d hd => ?_
    rcases List.mem_cons.mp hd with rfl | hd
    · exact hc
    · exact hcs d hd

theorem removeChildren (hp : A p) :
    Obeys I E (fun cs => ∀ c ∈ cs, A c) (EditM.removeChildren p) :=
  .bind (hI.ask fun F => F.quiet_numChildren p) fun n _ => hI.removeFirst hp n

theorem removeSlice (hp : A p) (start n : Nat) :
    Obeys I E Anything (EditM.removeSlice p start n) := by
  induction n with
  | zero => exact .pure trivial
  | succ n ih => exact .bind (hI.removeChild _ hp) fun _ _ => .bind ih fun _ _ => .pure trivial

theorem removeChildrenRange (hp : A p) (start stop : Nat) :
    Obeys I E Anything (EditM.removeChildrenRange p start stop) :=
  .bind (hI.ask fun F => F.quiet_numChildren p) fun _ _ =>
    hI.checked p start (hI.checked p stop (hI.removeSlice hp _ _))

theorem removeOfKindFrom (hp : A p) (k : Kind C) (i : Nat) (cs : List Handle) :
    Obeys I E Anything (EditM.removeOfKindFrom p k i cs) := by
  induction cs generalizing i with
  | nil => exact .pure trivial
  | cons c cs ih =>
    refine .bind (hI.ask fun F => F.quiet_kind c) fun kind _ => ?_
    split
    · exact .bind (hI.removeChild i hp) fun _ _ => .bind (ih i) fun _ _ => .pure trivial
    · exact ih (i + 1)

theorem removeChildrenOfKind (hp : A p) (k : Kind C) :
    Obeys I E Anything (EditM.removeChildrenOfKind p k) :=
  .bind (hI.ask fun F => F.quiet_children p) fun cs _ => hI.removeOfKindFrom hp k 0 cs

theorem delete (hb : A base) : Obeys I E Anything (EditM.delete base) := by
  refine .bind (hI.parent hb) fun parent? hparent => ?_
  cases parent? with
  | none => exact .bind (.describe _) fun _ _ => hI.notify _
  | some p =>
    refine .bind (hI.ask fun F => F.quiet_positionIn p base) fun i _ => ?_
    exact (hI.removeChild i (hparent p rfl)).discard

theorem discardChildren (hh : A h) : Obeys I E Anything (EditM.discardChildren h) := by
  refine .bind (hI.ask fun F => F.quiet_hasChildren h) fun b _ => ?_
  cases b with
  | false => exact .pure trivial
  | true =>
    exact .bind (hI.removeChildren hh) fun _ _ => .bind (.describe _) fun _ _ => hI.notify _

/-! ## Insertions -/

theorem addChild (hp : A p) (hx : A x) : Obeys I E A (EditM.addChild p x) :=
  .bind (hI.ask fun F => F.quiet_numChildren p) fun i _ => hI.insertChild i hp hx

theorem addChildLeftOf (hp : A p) (hx : A x) (y : Handle) :
    Obeys I E A (EditM.addChildLeftOf p x y) :=
  .bind (hI.ask fun F => F.quiet_siblingIndex p y) fun i _ => hI.insertChild i hp hx

theorem addChildRightOf (hp : A p) (hx : A x) (y : Handle) :
    Obeys I E A (EditM.addChildRightOf p x y) :=
  .bind (hI.ask fun F => F.quiet_siblingIndex p y) fun i _ => hI.insertChild (i + 1) hp hx

theorem addAll (hp : A p) {xs : List Handle} (hxs : ∀ x ∈ xs, A x) :
    Obeys I E Anything (xs.mapM (EditM.addChild p)) :=
  (Obeys.mapM xs fun x hx => hI.addChild hp (hxs x hx)).anything

theorem addChildren (hp : A p) {xs : List Handle} (hxs : ∀ x ∈ xs, A x) :
    Obeys I E Anything (EditM.addChildren p xs) := by
  unfold EditM.addChildren
  split
  · refine .bind (hI.ask fun F => F.quiet_children p) fun cs _ => ?_
    dsimp only
    split
    · exact .bind (.describe _) fun _ _ => .bind (hI.notify _) fun _ _ => hI.addAll hp hxs
    · exact hI.addAll hp hxs
  · exact hI.addAll hp hxs

theorem replaceChild (hp : A p) (old : Handle) (hx : A x) :
    Obeys I E Anything (EditM.replaceChild p old x) := by
  refine .bind (hI.ask fun F => F.quiet_indexOfChild p old) fun index? _ => ?_
  cases index? with
  | some i => exact (hI.setChild i hp hx).anything
  | none => exact .bind (.describe _) fun _ _ => .bind (.describe _) fun _ _ => hI.fail nofun

theorem setChildren (hp : A p) {xs : List Handle} (hxs : ∀ x ∈ xs, A x) :
    Obeys I E Anything (EditM.setChildren p xs) :=
  .bind (hI.removeChildren hp).discard fun _ _ => hI.addAll hp hxs

theorem setChildAndRemove (hp : A p) (hx : A x) (start stop : Nat) :
    Obeys I E Anything (EditM.setChildAndRemove p x start stop) := by
  refine hI.checked p start (.bind (hI.ask fun F => F.quiet_numChildren p) fun _ _ =>
    hI.checked p stop ?_)
  refine .bind (hI.setChild start hp hx).discard fun _ _ => ?_
  refine .bind (hI.removeSlice hp _ _).discard fun _ _ => ?_
  exact hI.ask fun F => F.quiet_child p start

theorem setAtPath {root : Handle} (hroot : A root) (hx : A x) (path : List Nat) :
    Obeys I E Anything (EditM.setAtPath root x path) := by
  unfold EditM.setAtPath
  split
  · exact .pure trivial
  · exact .bind (hI.follow hroot _) fun p hp => (hI.setChild _ hp hx).map fun _ _ => trivial

/-! ## Edits beside a node -/

theorem insertBeside (side : Side) (hb : A base) (hx : A x) (move : Bool) :
    Obeys I E Anything (EditM.insertBeside side base x move) := by
  refine .bind (hI.parent hb) fun parent? hparent => ?_
  cases parent? with
  | none =>
    exact .bind (.describe _) fun _ _ => .bind (hI.notify _) fun _ _ => .pure trivial
  | some p =>
    have hinsert : Obeys I E Anything (do
        let i ← EditM.query fun F => F.positionIn p base
        EditM.insertChild (C := C) p (i + side.offset) x) :=
      .bind (hI.ask fun F => F.quiet_positionIn p base) fun i _ =>
        (hI.insertChild _ (hparent p rfl) hx).anything
    cases move with
    | false => exact hinsert
    | true =>
      refine .bind (hI.ask fun F => F.quiet_ensureNotAbove base x) fun _ _ => ?_
      exact .bind (hI.detach hx) fun _ _ => hinsert

theorem replace (hb : A base) (hx : A x) (move : Bool) :
    Obeys I E Anything (EditM.replace base x move) := by
  refine .bind (hI.parent hb) fun parent? hparent => ?_
  cases parent? with
  | none =>
    exact .bind (.describe _) fun _ _ => .bind (hI.notify _) fun _ _ => .pure trivial
  | some p =>
    have hset : Obeys I E Anything (do
        let i ← EditM.query fun F => F.positionIn p base
        discard (EditM.setChild (C := C) p i x)
        EditM.query fun F => F.child p i) :=
      .bind (hI.ask fun F => F.quiet_positionIn p base) fun i _ =>
        .bind (hI.setChild i (hparent p rfl) hx).discard fun _ _ =>
          hI.ask fun F => F.quiet_child p i
    dsimp only
    split
    · exact .pure trivial
    · cases move with
      | false => exact hset
      | true =>
        refine .bind (hI.ask fun F => F.quiet_hasParent x) fun owned _ => ?_
        cases owned with
        | false => exact hset
        | true =>
          refine .bind (hI.ask fun F => F.quiet_ensureNotAbove base x) fun _ _ => ?_
          exact .bind (hI.detach hx) fun _ _ => hset

theorem transplant (hb : A base) (hx : A x) :
    Obeys I E Anything (EditM.transplant base x) := by
  refine .bind (hI.parent hb) fun parent? hparent => ?_
  cases parent? with
  | none => exact .bind (.describe _) fun _ _ => hI.fail nofun
  | some p =>
    dsimp only
    split
    · exact .pure trivial
    · refine .bind (hI.ask fun F => F.quiet_ensureNotAbove base x) fun _ _ => ?_
      refine .bind (hI.discardChildren hx) fun _ _ => .bind (hI.detach hx) fun _ _ => ?_
      refine .bind (hI.removeChildren hb) fun cs hcs => ?_
      refine .bind (.forM cs fun c hc => (hI.addChild hx (hcs c hc)).discard) fun _ _ => ?_
      refine .bind (hI.ask fun F => F.quiet_indexOfChild p base) fun index? _ => ?_
      cases index? with
      | some i =>
        exact .bind (hI.setChild i (hparent p rfl) hx).discard fun _ _ =>
          hI.ask fun F => F.quiet_child p i
      | none =>
        exact .bind (.describe _) fun _ _ => .bind (.describe _) fun _ _ => hI.fail nofun

/-! ## Swaps -/

/-- A swap of subtrees obeys if its placeholder may be worked on and be taken out again. -/
theorem swapSubtrees {a b : Handle} (ha : A a) (hb : A b)
    (hcopy : Obeys I E A (EditM.copyShallow (C := C) a))
    (hdispose : ∀ {h}, A h → Obeys I E Anything (EditM.dispose (C := C) h)) :
    Obeys I E Anything (EditM.swapSubtrees a b) := by
  have hnested : ∀ F : Forest C, Quiet (do
      if ← F.isAncestor a b then return true
      F.isAncestor b a) := by
    refine fun F => .bind (F.quiet_isAncestor a b) fun above => ?_
    cases above with
    | true => exact .pure _
    | false => exact F.quiet_isAncestor b a
  have howned : ∀ F : Forest C, Quiet (do
      if !(← F.hasParent a) then return false
      F.hasParent b) := by
    refine fun F => .bind (F.quiet_hasParent a) fun owned => ?_
    cases owned with
    | true => exact F.quiet_hasParent b
    | false => exact .pure _
  refine .bind (hI.ask hnested) fun nested _ => ?_
  cases nested with
  | true =>
    exact .bind (.describe _) fun _ _ => .bind (.describe _) fun _ _ =>
      .bind (hI.notify _) fun _ _ => .pure trivial
  | false =>
    refine .bind (hI.ask howned) fun owned _ => ?_
    cases owned with
    | false =>
      exact .bind (.describe _) fun _ _ => .bind (.describe _) fun _ _ =>
        .bind (hI.notify _) fun _ _ => .pure trivial
    | true =>
      refine .bind hcopy fun placeholder hplace => ?_
      refine .bind (hI.replace ha hplace true).discard fun _ _ => ?_
      refine .bind (hI.replace hb ha true).discard fun _ _ => ?_
      refine .bind (hI.replace hplace hb true).discard fun _ _ => ?_
      exact .bind (hdispose hplace).discard fun _ _ => .pure trivial

end LinkRegime

namespace EditRegime
variable {C : Type} [ShallowCopy C] {I : Session C → Prop} {E : Error → Prop}
  {A : Handle → Prop} (hI : EditRegime I E A)
include hI

theorem swap {a b : Handle} (ha : A a) (hb : A b) (subtrees : Bool) :
    Obeys I E Anything (EditM.swap a b subtrees) := by
  unfold EditM.swap
  split
  · exact .bind (hI.ask fun F => F.quiet_node a).discard fun _ _ => .pure trivial
  · rename_i hne
    cases subtrees with
    | true => exact hI.swapSubtrees hne ha hb
    | false => exact .bind (hI.swapPositions ha hb) fun _ _ => .pure trivial

theorem execute (t : Transform) (ht : ∀ h ∈ t.operands, A h) :
    Obeys I E Anything (t.execute (C := C)) := by
  cases t with
  | replace base x =>
    exact (hI.replace (ht base (by simp [TransformOn.operands]))
      (ht x (by simp [TransformOn.operands])) false).discard
  | moveBefore base x =>
    exact (hI.insertBeside .before (ht base (by simp [TransformOn.operands]))
      (ht x (by simp [TransformOn.operands])) true).discard
  | moveAfter base x =>
    exact (hI.insertBeside .after (ht base (by simp [TransformOn.operands]))
      (ht x (by simp [TransformOn.operands])) true).discard
  | delete x => exact hI.delete (ht x (by simp [TransformOn.operands]))
  | addChild p x i? =>
    have hp := ht p (by simp [TransformOn.operands])
    have hx := ht x (by simp [TransformOn.operands])
    cases i? with
    | none => exact (hI.addChild hp hx).discard
    | some i => exact (hI.insertChild i hp hx).discard
  | swap a b subtrees =>
    exact (hI.swap (ht a (by simp [TransformOn.operands]))
      (ht b (by simp [TransformOn.operands])) subtrees).discard

end EditRegime
end Grove
