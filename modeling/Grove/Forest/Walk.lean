import Grove.Forest.Basic

/-!
# Walks

The walks from a node down along children links. A walk keeps the handles it has still to meet in a
pending list; meeting a node puts its children at the head of that list. The first argument of a
walk bounds the number of its steps: a walk meets every node once, so the number of slots is enough.
-/

namespace Grove
set_option autoImplicit false

namespace Forest
variable {C : Type}

/-- The children links of a handle; none for a handle that names no node. -/
def below (F : Forest C) (h : Handle) : List Handle := (F.get? h).elim [] Node.children

def preOrderFrom (F : Forest C) : Nat → List Handle → List Handle
  | 0, _ => []
  | _ + 1, [] => []
  | n + 1, h :: pending => h :: F.preOrderFrom n (F.below h ++ pending)

/-- Children before their nodes, from a pending list in which a mark tells that the children of a
handle have been met. -/
def postOrderFrom (F : Forest C) : Nat → List (Handle × Bool) → List Handle
  | 0, _ => []
  | _ + 1, [] => []
  | n + 1, (h, true) :: pending => h :: F.postOrderFrom n pending
  | n + 1, (h, false) :: pending =>
    match F.get? h with
    | none => F.postOrderFrom n pending
    | some node =>
      F.postOrderFrom n (node.children.map (·, false) ++ (h, true) :: pending)

/-- The nodes that pass a test, before those among their descendants. With `prune`, nothing below a
node that passes is met. -/
def matchesFrom (F : Forest C) (P : Predicate C) (prune : Bool) : Nat → List Handle → List Handle
  | 0, _ => []
  | _ + 1, [] => []
  | n + 1, h :: pending =>
    match F.get? h with
    | none => F.matchesFrom P prune n pending
    | some node =>
      if P F h then
        h :: F.matchesFrom P prune n (if prune then pending else node.children ++ pending)
      else
        F.matchesFrom P prune n (node.children ++ pending)

/-- The largest level in a pending list of nodes with their levels and below them. -/
def heightFrom (F : Forest C) : Nat → List (Handle × Nat) → Nat → Except Error Nat
  | _, [], max => return max
  | 0, _ :: _, _ => throw .endlessWalk
  | n + 1, (h, level) :: pending, max => do
    let below ← F.children h
    F.heightFrom n (below.reverse.map (·, level + 1) ++ pending) (Nat.max max level)

/-- A node and its descendants, nodes before their children. -/
def descendantsAndSelf (F : Forest C) (h : Handle) : Except Error (List Handle) := do
  discard (F.node h)
  return F.preOrderFrom F.nodes.capacity [h]

def descendants (F : Forest C) (h : Handle) : Except Error (List Handle) := do
  return F.preOrderFrom F.nodes.capacity (← F.children h)

def postOrder (F : Forest C) (h : Handle) : Except Error (List Handle) := do
  discard (F.node h)
  return F.postOrderFrom (2 * F.nodes.capacity) [(h, false)]

/-- The descendants of a node that pass a test, nodes before their children; the node itself is not
tested. With `prune`, the descendants of a node that passes are left out. -/
def matchingDescendants (F : Forest C) (h : Handle) (P : Predicate C) (prune : Bool) :
    Except Error (List Handle) := do
  return F.matchesFrom P prune F.nodes.capacity (← F.children h)

/-- The number of levels of a subtree, 1 for a leaf. -/
def height (F : Forest C) (h : Handle) : Except Error Nat :=
  F.heightFrom F.nodes.capacity [(h, 1)] 0

def leaves (F : Forest C) (h : Handle) : Except Error (List Handle) := do
  (← F.descendantsAndSelf h).filterM fun d => do return !(← F.hasChildren d)

variable [Content C]

def descendantsOfKind (F : Forest C) (h : Handle) (k : Kind C) : Except Error (List Handle) := do
  return (← F.descendants h).filter (F.isKind k)

def descendantsAndSelfOfKind (F : Forest C) (h : Handle) (k : Kind C) :
    Except Error (List Handle) := do
  return (← F.descendantsAndSelf h).filter (F.isKind k)

def firstOfKind? (F : Forest C) (h : Handle) (k : Kind C) : Except Error (Option Handle) := do
  return (← F.descendantsAndSelf h).find? (F.isKind k)

end Forest
end Grove
