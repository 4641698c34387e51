import Grove.Error

/-!
# Notices

Remarks that an operation makes while it goes on: something was odd, but nothing failed.
-/

namespace Grove
set_option autoImplicit false

/-- The remarks, with the lines of the nodes that they are about. -/
inductive Notice where
  | ownChildrenAdded (parent : String)
  | childNotFound (child : String)
  | parentCleared (child parent : String)
  | partialCopyKept (copy : Handle) (reason : Error)
  | siblingsOfRoot (node : String)
  | insertedNextToRoot (node : String)
  | replacedRoot (node : String)
  | deletedRoot (node : String)
  | childrenDetached (node : String) (children : List Handle)
  | swappedWithAncestor (first second : String)
  | swappedRoot (first second : String)
  deriving DecidableEq, Repr

def Notice.text : Notice → String
  | .ownChildrenAdded parent => s!"Adding the children of '{parent}' to itself"
  | .childNotFound child => s!"Could not find child '{child}'"
  | .parentCleared child parent =>
    s!"'{child}' is not among the children of its parent '{parent}', clearing parent reference"
  | .partialCopyKept copy reason => s!"Could not free partial copy {copy}: {reason.message}"
  | .siblingsOfRoot node => s!"Asked for siblings of '{node}', which does not have a parent"
  | .insertedNextToRoot node =>
    s!"Tried to insert a node next to '{node}', which does not have a parent"
  | .replacedRoot node => s!"Tried to replace '{node}', which does not have a parent"
  | .deletedRoot node => s!"Tried to delete '{node}', which does not have a parent"
  | .childrenDetached node children =>
    s!"New node '{node}' had {children.length} children, detached as roots: [" ++
      ", ".intercalate (children.map Handle.longLabel) ++ "]"
  | .swappedWithAncestor first second =>
    s!"Cannot swap '{first}' and '{second}', one is an ancestor of the other"
  | .swappedRoot first second => s!"Cannot swap '{first}' and '{second}', both need a parent"

end Grove
