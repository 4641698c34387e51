import Grove.Proofs.Edit.Branch
import Grove.Proofs.Edit.History

/-!
# Laws of the parts of edits

The edits of links are put together from parts that write one thing each: a list of children, the
parent link of one node, the slots of a tree that goes. A law that these parts follow is followed by
the edits that only take links away. If writing one end of a link follows it too, so do the edits of
links, and then all edits, as long as the copy hook and the exchange of two nodes do.

The children list and the parent link of a node that is attached are written one after the other, so
this way leads only to laws that hold in between, as KeepsBranching does not.
-/

namespace Grove
set_option autoImplicit false

/-- A law of the parts that write no parent link unless they clear it. -/
structure PartLaw {C : Type} [Content C] (R : Session C → Session C → Prop) : Prop
    extends IsPreorder (Session C) R where
  notify : ∀ n, Follows R (EditM.notify n)
  create : ∀ content, Follows R (EditM.create content)
  setContent : ∀ h f, Follows R (EditM.setContent h f)
  writeChildren : ∀ h cs, Follows R (EditM.updateNode h fun n => { n with children := cs })
  clearParent : ∀ h, Follows R (EditM.updateNode h fun n => { n with parent := none })
  erase : ∀ hs : List Handle, Follows R (EditM.modifyNodes fun st => hs.foldl Store.erase st)

/-- The edits that write no parent link unless they clear it. -/
inductive Edit.Severs {C : Type} [Content C] : Edit C → Prop where
  | create (content : C) : Severs (.create content)
  | setContent (h : Handle) (f : C → C) : Severs (.setContent h f)
  | dispose (h : Handle) : Severs (.dispose h)
  | detach (h : Handle) : Severs (.detach h)
  | removeChild (p : Handle) (i : Nat) : Severs (.removeChild p i)
  | removeChildNode (p c : Handle) : Severs (.removeChildNode p c)
  | removeChildren (p : Handle) : Severs (.removeChildren p)
  | removeChildrenRange (p : Handle) (start stop : Nat) : Severs (.removeChildrenRange p start stop)
  | removeChildrenOfKind (p : Handle) (k : Kind C) : Severs (.removeChildrenOfKind p k)
  | delete (base : Handle) : Severs (.delete base)

namespace PartLaw

/-! ## Taking links away -/

section
variable {C α : Type} [Content C] {R : Session C → Session C → Prop} (hR : PartLaw R)
include hR

theorem editChildren (h : Handle) (edit : List Handle → Option (α × List Handle)) :
    Follows R (EditM.editChildren h edit) := by
  have := hR.toIsPreorder
  refine .bind (.query _) fun cs => ?_
  cases edit cs with
  | none => exact .throw _
  | some al => exact .bind (hR.writeChildren h _) fun _ => .pure _

theorem removeParent (h : Handle) : Follows R (EditM.removeParent h) := by
  have := hR.toIsPreorder
  refine .bind (.query _) fun parent? => ?_
  cases parent? with
  | none => exact .bind (.describe _) fun _ => .throw _
  | some p => exact .bind (hR.clearParent h) fun _ => .pure _

theorem removeChild (p : Handle) (i : Nat) : Follows R (EditM.removeChild p i) := by
  have := hR.toIsPreorder
  have hremove : Follows R (do
      let child ← EditM.editChildren (C := C) p fun cs => Position.erase? cs i
      discard (EditM.removeParent child)
      return child) :=
    .bind (hR.editChildren p _) fun c => .bind (.discard (hR.removeParent c)) fun _ => .pure _
  refine .bind (.query _) fun len => ?_
  dsimp only
  split
  · exact .bind (.describe _) fun _ => .bind (.throw _) fun _ => .checked _ hremove
  · exact .checked _ hremove

theorem detach (h : Handle) : Follows R (EditM.detach h) := by
  have := hR.toIsPreorder
  refine .bind (.query _) fun parent? => ?_
  cases parent? with
  | none => exact .pure _
  | some p =>
    refine .bind (.query _) fun index? => ?_
    cases index? with
    | some i => exact .discard (hR.removeChild p i)
    | none =>
      exact .bind (.describe _) fun _ => .bind (.describe _) fun _ =>
        .bind (hR.notify _) fun _ => .discard (hR.removeParent h)

theorem dispose (h : Handle) : Follows R (EditM.dispose h) := by
  have := hR.toIsPreorder
  have hfree : Follows R (do
      let subtree ← EditM.query fun F : Forest C => F.descendantsAndSelf h
      EditM.modifyNodes fun st => subtree.foldl Store.erase st
      return subtree.length) :=
    .bind (.query _) fun ds => .bind (hR.erase ds) fun _ => .pure _
  refine .bind (.query _) fun parent? => ?_
  cases parent? with
  | none => exact hfree
  | some p =>
    exact .bind (.describe _) fun _ => .bind (.describe _) fun _ =>
      .bind (.throw _) fun _ => hfree

theorem removeChildNode (p c : Handle) : Follows R (EditM.removeChildNode p c) := by
  have := hR.toIsPreorder
  refine .bind (.query _) fun index? => ?_
  cases index? with
  | some i => exact .bind (.discard (hR.removeChild p i)) fun _ => .pure _
  | none => exact .bind (.describe _) fun _ => .bind (hR.notify _) fun _ => .pure _

theorem removeFirst (p : Handle) (n : Nat) : Follows R (EditM.removeFirst p n) := by
  have := hR.toIsPreorder
  induction n with
  | zero => exact .pure _
  | succ n ih => exact .bind (hR.removeChild p 0) fun _ => .bind ih fun _ => .pure _

theorem removeSlice (p : Handle) (start n : Nat) : Follows R (EditM.removeSlice p start n) := by
  have := hR.toIsPreorder
  induction n with
  | zero => exact .pure _
  | succ n ih => exact .bind (hR.removeChild p _) fun _ => .bind ih fun _ => .pure _

theorem removeOfKindFrom (p : Handle) (k : Kind C) (i : Nat) (cs : List Handle) :
    Follows R (EditM.removeOfKindFrom p k i cs) := by
  have := hR.toIsPreorder
  induction cs generalizing i with
  | nil => exact .pure _
  | cons c cs ih =>
    refine .bind (.query _) fun kind => ?_
    split
    · exact .bind (hR.removeChild p i) fun _ => .bind (ih i) fun _ => .pure _
    · exact ih (i + 1)

theorem removeChildrenRange (p : Handle) (start stop : Nat) :
    Follows R (EditM.removeChildrenRange p start stop) := by
  have := hR.toIsPreorder
  exact .bind (.query _) fun len => .checked _ (.checked _ (hR.removeSlice p _ _))

end

section
variable {C : Type} [ShallowCopy C] {R : Session C → Session C → Prop} (hR : PartLaw R)
include hR

theorem delete (base : Handle) : Follows R (EditM.delete base) := by
  have := hR.toIsPreorder
  refine .bind (.query _) fun parent? => ?_
  cases parent? with
  | none => exact .bind (.describe _) fun _ => hR.notify _
  | some p => exact .bind (.query _) fun i => .discard (hR.removeChild p i)

theorem run {e : Edit C} (he : e.Severs) : Follows R e.run := by
  have := hR.toIsPreorder
  cases he with
  | create content => exact .discard (hR.create content)
  | setContent h f => exact hR.setContent h f
  | dispose h => exact .discard (hR.dispose h)
  | detach h => exact hR.detach h
  | removeChild p i => exact .discard (hR.removeChild p i)
  | removeChildNode p c => exact .discard (hR.removeChildNode p c)
  | removeChildren p => exact .discard (.bind (.query _) fun n => hR.removeFirst p n)
  | removeChildrenRange p start stop => exact .discard (hR.removeChildrenRange p start stop)
  | removeChildrenOfKind p k =>
    exact .discard (.bind (.query _) fun cs => hR.removeOfKindFrom p k 0 cs)
  | delete base => exact hR.delete base

end

/-! ## Writing links -/

section
variable {C : Type} [Content C] {R : Session C → Session C → Prop} (hR : PartLaw R)
  (hpoint : ∀ p x, Follows R (EditM.setAsParentOf p x))
include hR hpoint

theorem attach (p : Handle) (i : Nat) (x : Handle) : Follows R (EditM.attach p i x) := by
  have := hR.toIsPreorder
  exact .bind (hpoint p x) fun _ => hR.editChildren p _

theorem hookLaw : HookLaw R where
  toIsPreorder := hR.toIsPreorder
  notify := hR.notify
  create := hR.create
  setContent := hR.setContent
  setAsParentOf := hpoint
  attach := hR.attach hpoint
  removeChild := hR.removeChild
  detach := hR.detach
  dispose := hR.dispose

end

section
variable {C : Type} [ShallowCopy C] {R : Session C → Session C → Prop} (hR : PartLaw R)
  (hpoint : ∀ p x, Follows R (EditM.setAsParentOf p x))
  (hcopy : ∀ h, Follows R (EditM.copyShallow (C := C) h))
include hR hpoint hcopy

theorem linkLaw : LinkLaw R where
  toIsPreorder := hR.toIsPreorder
  notify := hR.notify
  create := hR.create
  setContent := hR.setContent
  attachLast := (hR.hookLaw hpoint).attachLast
  removeChild := hR.removeChild
  detach := hR.detach
  dispose := hR.dispose
  copyShallow := hcopy

theorem editLaw (hswap : ∀ a b, Follows R (EditM.swapPositions (C := C) a b)) : EditLaw R := by
  have := hR.toIsPreorder
  have hlaw := hR.linkLaw hpoint hcopy
  exact
    { hlaw with
      insertChild := hlaw.insertChild (hR.attach hpoint)
      setChild := hlaw.setChild fun p i y => .bind (hpoint p y) fun _ =>
        .bind (hR.editChildren p _) fun c => .bind (.discard (hR.removeParent c)) fun _ => .pure _
      swapPositions := hswap }

end
end PartLaw
end Grove
