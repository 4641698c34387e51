import Grove.Edit.Link

/-!
# Copies

Deep copies are made node by node, each node by the shallow copy of its content type. A shallow copy
has to come without parent and children; one that does not is refused. A copy that fails half way is
taken out of the forest again.

`sanitize` decides what is inserted in the place of a node that already has a parent.
-/

namespace Grove
set_option autoImplicit false

class ShallowCopy (C : Type) extends Content C where
  /-- makes a new parentless and childless node like the given one -/
  copyShallow : Handle → EditM C Handle

namespace EditM
variable {C : Type}

/-- The plain shallow copy: a new node with the same content. -/
def copyContent (source : Handle) : EditM C Handle := do
  create (← query fun F => F.content source)

section
variable [Content C]

/-- Takes a subtree that never reached the caller out of the forest; that this fails is only worth
a notice. -/
def release (h : Handle) : EditM C Unit :=
  tryCatch (do detach h; discard (dispose h)) fun e => notify (.partialCopyKept h e)

end

variable [ShallowCopy C]

def copyShallow (source : Handle) : EditM C Handle := ShallowCopy.copyShallow source

/-- A shallow copy, refused if it came with a parent or with children. -/
def copyBare (source : Handle) : EditM C Handle := do
  let copy ← copyShallow source
  let node ← query fun F => F.node copy
  if node.parent.isSome || !node.children.isEmpty then
    let fault := Error.invariantViolation (.linkedCopy (← describe copy))
    release copy
    throw fault
  return copy

/-- Copies a pending list of nodes with everything below them, each below its own target. -/
def copyPending : Nat → List (Handle × Handle) → EditM C Unit
  | _, [] => return ()
  | 0, _ :: _ => throw .endlessWalk
  | n + 1, (source, target) :: pending => do
    let copy ← copyBare source
    onFailure (attachLast target copy) (release copy)
    let children ← query fun F => F.children source
    copyPending n (children.map (·, copy) ++ pending)

def copyBelow (source target : Handle) : EditM C Unit := do
  let children ← query fun F => F.children source
  copyPending (← look fun F => F.nodes.capacity) (children.map (·, target))

/-- A deep copy of a subtree; it has no parent. -/
def copy (source : Handle) : EditM C Handle := do
  let root ← copyBare source
  onFailure (copyBelow source root) (release root)
  return root

/-- The node to be linked when the given one is inserted: a parentless node stands for itself, for
an owned one the settings decide. -/
def sanitize (h : Handle) : EditM C Handle := do
  match ← query fun F => F.parent h with
  | none => return h
  | some parent =>
    match ← look fun F => F.settings.sanitize with
    | .copy => copy h
    | .reject => throw (.alreadyOwned (← describe h) (← describe parent))

end EditM
end Grove
