import Grove.Edit.Copy
import Grove.Forest.Path

/-!
# Insertion

Edits that put nodes among the children of a given parent. The node that really comes to stand there
is the one that `sanitize` gives for the node asked for.
-/

namespace Grove
set_option autoImplicit false

namespace EditM
variable {C : Type} [ShallowCopy C]

/-- Inserts a child at a position and tells which node was inserted. -/
def insertChild (parent : Handle) (index : Nat) (child : Handle) : EditM C Handle := do
  let len ← query fun F => F.numChildren parent
  if index > len then throw (← look fun F => F.indexError parent index)
  let inserted ← sanitize child
  attach parent index inserted
  return inserted

def addChild (parent child : Handle) : EditM C Handle := do
  insertChild parent (← query fun F => F.numChildren parent) child

def addChildLeftOf (parent child sibling : Handle) : EditM C Handle := do
  insertChild parent (← query fun F => F.siblingIndex parent sibling) child

def addChildRightOf (parent child sibling : Handle) : EditM C Handle := do
  insertChild parent ((← query fun F => F.siblingIndex parent sibling) + 1) child

/-- Inserts last children one after the other. A notice is raised if they are the children that the
parent has already. -/
def addChildren (parent : Handle) (children : List Handle) : EditM C (List Handle) := do
  if !children.isEmpty then
    if (← query fun F => F.children parent) = children then
      notify (.ownChildrenAdded (← describe parent))
  children.mapM (addChild parent)

/-- Puts a node in the place of the child at a position, and gives the former child. -/
def setChild (parent : Handle) (index : Nat) (new : Handle) : EditM C Handle := do
  let len ← query fun F => F.numChildren parent
  if len = 0 then throw (.noChildren (← describe parent) .set)
  if index ≥ len then throw (← look fun F => F.indexError parent index)
  let inserted ← sanitize new
  setAsParentOf parent inserted
  let previous ← editChildren parent fun cs => Position.replace? cs index inserted
  discard (removeParent previous)
  return previous

def replaceChild (parent old new : Handle) : EditM C Handle := do
  match ← query fun F => F.indexOfChild parent old with
  | some index => setChild parent index new
  | none => throw (.notFound (.child (← describe old) (← describe parent)))

def setChildren (parent : Handle) (children : List Handle) : EditM C (List Handle) := do
  discard (removeChildren parent)
  children.mapM (addChild parent)

/-- Puts a node in the place of the children from position `start` up to, but not including,
position `stop`, and tells which node was inserted. -/
def setChildAndRemove (parent new : Handle) (start stop : Nat) : EditM C Handle := do
  if stop ≤ start then throw (← look fun F => F.indexError parent start)
  if stop > (← query fun F => F.numChildren parent) then
    throw (← look fun F => F.indexError parent stop)
  discard (setChild parent start new)
  discard (removeSlice parent (start + 1) (stop - (start + 1)))
  query fun F => F.child parent start

/-- Puts a node in the place that a path leads to, and gives the node that was there. The empty path
changes nothing. -/
def setAtPath (root new : Handle) (path : List Nat) : EditM C (Option Handle) := do
  match path.getLast? with
  | none => return none
  | some index =>
    let parent ← query fun F => F.follow root path.dropLast
    some <$> setChild parent index new

end EditM
end Grove
