import Grove.Edit.Insert

/-!
# Edits beside a node

Insertion next to a node, replacement, deletion, and the transplant of children. The place is given
by a base node, whose parent is looked up. A base without parent is left alone with a notice, except
that a transplant refuses it.
-/

namespace Grove
set_option autoImplicit false

inductive Side where
  | before
  | after
  deriving DecidableEq, Repr

/-- The distance from the position of the base to the position of insertion. -/
def Side.offset : Side → Nat
  | .before => 0
  | .after => 1

namespace EditM
variable {C : Type} [ShallowCopy C]

/-- Inserts a node right before or after a base. With `move` the node itself is taken from where it
is. -/
def insertBeside (side : Side) (base new : Handle) (move : Bool) : EditM C Handle := do
  match ← query fun F => F.parent base with
  | none =>
    notify (.insertedNextToRoot (← describe base))
    return new
  | some parent =>
    if move then
      query fun F => F.ensureNotAbove base new
      detach new
    let index ← query fun F => F.positionIn parent base
    insertChild parent (index + side.offset) new

def insertBefore (base new : Handle) (move : Bool) : EditM C Handle :=
  insertBeside .before base new move

def insertAfter (base new : Handle) (move : Bool) : EditM C Handle :=
  insertBeside .after base new move

/-- Puts a node in the place of a base, which is left without parent. With `move` the node itself is
taken from where it is. -/
def replace (base new : Handle) (move : Bool) : EditM C Handle := do
  match ← query fun F => F.parent base with
  | none =>
    notify (.replacedRoot (← describe base))
    return new
  | some parent =>
    if new = base then return base
    if move then
      if ← query fun F => F.hasParent new then
        query fun F => F.ensureNotAbove base new
        detach new
    let index ← query fun F => F.positionIn parent base
    discard (setChild parent index new)
    query fun F => F.child parent index

def delete (base : Handle) : EditM C Unit := do
  match ← query fun F => F.parent base with
  | none => notify (.deletedRoot (← describe base))
  | some parent =>
    let index ← query fun F => F.positionIn parent base
    discard (removeChild parent index)

/-- Makes the children of a node roots, with a notice if there are any. -/
def discardChildren (h : Handle) : EditM C Unit := do
  if ← query fun F => F.hasChildren h then
    let discarded ← removeChildren h
    notify (.childrenDetached (← describe h) discarded)

/-- Puts a node in the place of a base and hands the children of the base over to it. Children that
the node has already become roots, like the base itself. -/
def transplant (base new : Handle) : EditM C Handle := do
  match ← query fun F => F.parent base with
  | none => throw (.noParent (← describe base))
  | some parent =>
    if new = base then return base
    query fun F => F.ensureNotAbove base new
    discardChildren new
    detach new
    (← removeChildren base).forM fun child => discard (addChild new child)
    match ← query fun F => F.indexOfChild parent base with
    | some index =>
      discard (setChild parent index new)
      query fun F => F.child parent index
    | none =>
      throw (.invariantViolation (.lostChild (← describe base) (← describe parent)))

end EditM
end Grove
