import Grove.Edit.Position
import Grove.Forest.Ancestry
import Grove.Forest.Walk
import Grove.Session

/-!
# Links

The edits that write links, from which all others are made: creating a node, setting and clearing
the parent of a node, attaching a parentless node at a position, removing children, detaching, and
disposing of a subtree.

A link has two ends, and every edit here but `setAsParentOf` and `removeParent` writes both.
-/

namespace Grove
set_option autoImplicit false

namespace EditM
variable {C : Type}

/-- Adds a parentless, childless node. -/
def create (content : C) : EditM C Handle :=
  modifyGet fun s =>
    let (h, nodes) := s.forest.nodes.insert { content }
    (h, { s with forest := { s.forest with nodes } })

def setContent (h : Handle) (f : C → C) : EditM C Unit :=
  updateNode h fun n => { n with content := f n.content }

variable [Content C]

def describe (h : Handle) : EditM C String := look fun F => F.describe h

/-- Clears the parent of a node and tells which one it was; the children of that parent stay as they
are. -/
def removeParent (h : Handle) : EditM C Handle := do
  match ← query fun F => F.parent h with
  | none => throw (.noParent (← describe h))
  | some parent =>
    updateNode h fun n => { n with parent := none }
    return parent

/-- Makes a parentless node point to `parent`; the children of `parent` stay as they are. -/
def setAsParentOf (parent child : Handle) : EditM C Unit := do
  discard (query fun F => F.node parent)
  if let some current ← query fun F => F.parent child then
    throw (.alreadyOwned (← describe child) (← describe current))
  query fun F => F.ensureAcyclic parent child
  updateNode child fun n => { n with parent := some parent }

/-- Links a parentless node as the child at a position. -/
def attach (parent : Handle) (index : Nat) (child : Handle) : EditM C Unit := do
  setAsParentOf parent child
  editChildren parent fun cs => Position.insert? cs index child

def attachLast (parent child : Handle) : EditM C Unit := do
  attach parent (← query fun F => F.numChildren parent) child

def removeChild (parent : Handle) (index : Nat) : EditM C Handle := do
  let len ← query fun F => F.numChildren parent
  if len = 0 then throw (.noChildren (← describe parent) .remove)
  if index ≥ len then throw (← look fun F => F.indexError parent index)
  let child ← editChildren parent fun cs => Position.erase? cs index
  discard (removeParent child)
  return child

/-- Removes a child and tells its position; a node that is no child is left alone, with a notice. -/
def removeChildNode (parent child : Handle) : EditM C (Option Nat) := do
  match ← query fun F => F.indexOfChild parent child with
  | some index =>
    discard (removeChild parent index)
    return some index
  | none =>
    notify (.childNotFound (← describe child))
    return none

def removeFirst (parent : Handle) : Nat → EditM C (List Handle)
  | 0 => return []
  | n + 1 => do
    let child ← removeChild parent 0
    return child :: (← removeFirst parent n)

def removeChildren (parent : Handle) : EditM C (List Handle) := do
  removeFirst parent (← query fun F => F.numChildren parent)

def removeSlice (parent : Handle) (start : Nat) : Nat → EditM C (List Handle)
  | 0 => return []
  | n + 1 => do
    let last ← removeChild parent (start + n)
    return (← removeSlice parent start n) ++ [last]

/-- Removes the children from position `start` up to, but not including, position `stop`. -/
def removeChildrenRange (parent : Handle) (start stop : Nat) : EditM C (List Handle) := do
  let len ← query fun F => F.numChildren parent
  if stop < start then throw (← look fun F => F.indexError parent start)
  if stop > len then throw (← look fun F => F.indexError parent stop)
  removeSlice parent start (stop - start)

/-- Removes those of the listed children that are of the given kind; `index` is the position of the
first of them. -/
def removeOfKindFrom (parent : Handle) (k : Kind C) : Nat → List Handle → EditM C (List Handle)
  | _, [] => return []
  | index, child :: rest => do
    if (← query fun F => F.kind child) = k then
      let removed ← removeChild parent index
      return removed :: (← removeOfKindFrom parent k index rest)
    else
      removeOfKindFrom parent k (index + 1) rest

def removeChildrenOfKind (parent : Handle) (k : Kind C) : EditM C (List Handle) := do
  removeOfKindFrom parent k 0 (← query fun F => F.children parent)

/-- Makes a node a root. If its parent does not list it, only the link of the node is cleared, with
a notice. -/
def detach (h : Handle) : EditM C Unit := do
  if let some parent ← query fun F => F.parent h then
    match ← query fun F => F.indexOfChild parent h with
    | some index => discard (removeChild parent index)
    | none =>
      notify (.parentCleared (← describe h) (← describe parent))
      discard (removeParent h)

/-- Takes a root and everything below it out of the forest, and tells how many nodes that were. -/
def dispose (h : Handle) : EditM C Nat := do
  if let some parent ← query fun F => F.parent h then
    throw (.alreadyOwned (← describe h) (← describe parent))
  let subtree ← query fun F => F.descendantsAndSelf h
  modifyNodes fun s => subtree.foldl Store.erase s
  return subtree.length

/-- What `select` picks from the siblings of a node; a root has none, and a notice says so. -/
def siblings (h : Handle) (select : List Handle → Nat → List Handle) : EditM C (List Handle) := do
  match ← query fun F => F.siblings? h select with
  | some hs => return hs
  | none =>
    notify (.siblingsOfRoot (← describe h))
    return []

def leftSiblings (h : Handle) : EditM C (List Handle) := siblings h fun cs i => cs.take i

def rightSiblings (h : Handle) : EditM C (List Handle) := siblings h fun cs i => cs.drop (i + 1)

end EditM
end Grove
