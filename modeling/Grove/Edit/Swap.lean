import Grove.Edit.Sibling

/-!
# Swaps

Two nodes trade places, either with everything below them or alone. In the second case the two
handles are renamed into each other in every link that mentions them, so each place keeps its parent
and its children.
-/

namespace Grove
set_option autoImplicit false

/-- The renaming of two handles into each other. -/
def Handle.exchange (first second h : Handle) : Handle :=
  if h = first then second else if h = second then first else h

namespace Forest
variable {C : Type}

/-- The two nodes and every node with a link to one of them. -/
def affectedBySwap (F : Forest C) (first second : Handle) : Except Error (List Handle) := do
  let a ← F.node first
  let b ← F.node second
  let around := a.parent.toList ++ a.children ++ b.parent.toList ++ b.children
  return ([first, second] ++ around).eraseDups

def renamedLinks (F : Forest C) (rename : Handle → Handle) (h : Handle) :
    Except Error (Handle × Option Handle × List Handle) := do
  let n ← F.node h
  return (rename h, n.parent.map rename, n.children.map rename)

end Forest

namespace EditM
variable {C : Type} [ShallowCopy C]

/-- Lets two nodes trade places; each place keeps its parent and its children. -/
def swapPositions (first second : Handle) : EditM C Unit := do
  let affected ← query fun F => F.affectedBySwap first second
  let links ← query fun F => affected.mapM (F.renamedLinks (Handle.exchange first second))
  links.forM fun (h, parent, children) =>
    updateNode h fun n => { n with parent, children }

/-- Lets two subtrees trade places, with a placeholder for the first one. Nodes of which one is
above the other, or of which one is a root, are left alone with a notice. -/
def swapSubtrees (first second : Handle) : EditM C Bool := do
  let nested ← query fun F => do
    if ← F.isAncestor first second then return true
    F.isAncestor second first
  if nested then
    notify (.swappedWithAncestor (← describe first) (← describe second))
    return false
  let owned ← query fun F => do
    if !(← F.hasParent first) then return false
    F.hasParent second
  if !owned then
    notify (.swappedRoot (← describe first) (← describe second))
    return false
  let placeholder ← copyShallow first
  discard (replace first placeholder true)
  discard (replace second first true)
  discard (replace placeholder second true)
  discard (dispose placeholder)
  return true

/-- Lets two nodes trade places, with everything below them if `subtrees` is set, and tells whether
anything has changed. -/
def swap (first second : Handle) (subtrees : Bool) : EditM C Bool := do
  if first = second then
    discard (query fun F => F.node first)
    return false
  if subtrees then swapSubtrees first second
  else
    swapPositions first second
    return true

end EditM
end Grove
