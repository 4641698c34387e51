import Grove.Handle

/-!
# Errors

Every way in which a query or an edit can fail, as a cause. Nodes appear by the line that stood for
them when the error arose, so an error stays readable after the forest has changed.

`Error.message` gives each cause its wording.
-/

namespace Grove
set_option autoImplicit false

/-- What cannot be done to a node without children. -/
inductive ChildAction where
  | get
  | remove
  | set
  deriving DecidableEq, Repr

inductive Missing where
  | kindAtIndex (kind : String) (index : Nat) (node found : String)
  | sibling (sibling parent : String)
  | child (child parent : String)
  | listedChild (child parent : String)
  | matchingAncestor (node : String)
  | ancestorOfKind (kind node : String)
  | withinScope (node scope : String)
  | named (text : String)
  deriving DecidableEq, Repr

/-- How a forest, or a copy hook, breaks what is promised of it. -/
inductive Violation where
  | linkedCopy (copy : String)
  | bypassedChildren (node : String) (count : Nat)
  | missingParent (node : String) (parent : Handle)
  | occurrences (node : String) (count : Nat) (parent : String)
  | missingChild (node : String) (child : Handle)
  | unconfirmedChild (child node : String)
  | lostChild (child parent : String)
  deriving DecidableEq, Repr

/-- A cursor operation at a moment when it has nothing to act on. -/
inductive CursorFault where
  | removeUnmoved
  | setUnmoved
  | replaceNone
  | replaceUnmoved
  | replaceShort
  deriving DecidableEq, Repr

inductive Error where
  | noChildren (node : String) (action : ChildAction)
  | indexOutOfBounds (node : String) (index len : Nat)
  | alreadyOwned (node parent : String)
  | noParent (node : String)
  | notFound (what : Missing)
  | invariantViolation (what : Violation)
  | cycleDetected (node : String)
  | invalidHandle (handle : Handle)
  | cursorState (fault : CursorFault)
  /-- a walk along links that never comes to an end -/
  | endlessWalk
  /-- a change at a position that a list does not have -/
  | positionOutsideList
  deriving DecidableEq, Repr

def ChildAction.text : ChildAction → String
  | .get => "get a child"
  | .remove => "remove a child"
  | .set => "set a child"

def Missing.text : Missing → String
  | .kindAtIndex kind index node found =>
    s!"wanted a {kind} at index {index} of '{node}', but it was '{found}'"
  | .sibling node parent => s!"sibling '{node}' is not a child of '{parent}'"
  | .child node parent => s!"'{node}' is not a child of '{parent}'"
  | .listedChild node parent => s!"'{node}' is not among the children of its parent '{parent}'"
  | .matchingAncestor node => s!"could not find a matching ancestor of '{node}'"
  | .ancestorOfKind kind node => s!"could not find ancestor of kind {kind} for '{node}'"
  | .withinScope node scope => s!"could not find '{node}' inside the scope of '{scope}'"
  | .named text => text

def Violation.text : Violation → String
  | .linkedCopy copy =>
    s!"node '{copy}' still has children or a parent after copy_shallow(), check implementation"
  | .bypassedChildren node count =>
    s!"expected only one child in bypassed node '{node}', found {count}"
  | .missingParent node parent => s!"'{node}' points to a missing parent {parent}"
  | .occurrences node count parent =>
    s!"'{node}' appears {count} times among the children of its parent '{parent}'"
  | .missingChild node child => s!"'{node}' has a missing child {child}"
  | .unconfirmedChild child node => s!"child '{child}' of '{node}' does not point back to it"
  | .lostChild child parent =>
    s!"could not find '{child}' among the children of its parent '{parent}'"

def CursorFault.text : CursorFault → String
  | .removeUnmoved => "remove() needs a preceding next() or previous()"
  | .setUnmoved => "set() needs a preceding next() or previous()"
  | .replaceNone => "replace() needs at least one previous node"
  | .replaceUnmoved => "replace() needs a preceding next() or previous()"
  | .replaceShort => "replace() ran out of previous nodes"

def Error.message : Error → String
  | .noChildren node action => s!"Node '{node}' does not have children, cannot {action.text}"
  | .indexOutOfBounds node index len =>
    s!"Index {index} out of bounds for node '{node}' with {len} children"
  | .alreadyOwned node parent => s!"Node '{node}' already has parent '{parent}'"
  | .noParent node => s!"Node '{node}' does not have a parent"
  | .notFound what => s!"Not found: {what.text}"
  | .invariantViolation what => s!"Invariant violation: {what.text}"
  | .cycleDetected node => s!"Cycle detected: '{node}' cannot become a descendant of itself"
  | .invalidHandle handle => s!"Invalid node handle: {handle}"
  | .cursorState fault => s!"Illegal iterator state: {fault.text}"
  | .endlessWalk => "The walk has no end"
  | .positionOutsideList => "The position lies outside the list"

end Grove
