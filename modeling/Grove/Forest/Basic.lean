import Grove.Content
import Grove.Error
import Grove.Settings
import Grove.Store

/-!
# Forests

A forest keeps all its nodes in one store. Parent and children links are handles, so the store is
the only owner of the nodes, and any number of parentless nodes, the roots, live side by side.

The file supplies the nodes, their look-up, and the queries that read one node or the children of
one node. A query on a handle that names no node fails with `Error.invalidHandle`.
-/

namespace Grove
set_option autoImplicit false

/-- The content of a node with its links; the children stand in sibling order. -/
structure Node (C : Type) where
  content : C
  parent : Option Handle := none
  children : List Handle := []

/-- The nodes of all trees, with the settings that govern their edits. -/
structure Forest (C : Type) where
  nodes : Store (Node C) := Store.empty
  settings : Settings := {}

/-- A test on the nodes of a forest; it is only asked about handles that name a node. -/
abbrev Predicate (C : Type) : Type := Forest C → Handle → Bool

namespace Forest
variable {C : Type}

instance : Inhabited (Forest C) := ⟨{}⟩

def get? (F : Forest C) (h : Handle) : Option (Node C) := F.nodes.get? h

def contains (F : Forest C) (h : Handle) : Bool := F.nodes.contains h

def node (F : Forest C) (h : Handle) : Except Error (Node C) :=
  match F.get? h with
  | some n => .ok n
  | none => .error (.invalidHandle h)

def size (F : Forest C) : Nat := F.nodes.size

def isEmpty (F : Forest C) : Bool := F.size == 0

/-- The handles of all nodes, in the order of their slots. -/
def ids (F : Forest C) : List Handle := F.nodes.handles

def roots (F : Forest C) : List Handle :=
  (F.nodes.entries.filter fun e => e.2.parent.isNone).map Prod.fst

def content (F : Forest C) (h : Handle) : Except Error C := do return (← F.node h).content

def parent (F : Forest C) (h : Handle) : Except Error (Option Handle) := do
  return (← F.node h).parent

def hasParent (F : Forest C) (h : Handle) : Except Error Bool := do
  return (← F.node h).parent.isSome

def children (F : Forest C) (h : Handle) : Except Error (List Handle) := do
  return (← F.node h).children

def numChildren (F : Forest C) (h : Handle) : Except Error Nat := do
  return (← F.node h).children.length

def hasChildren (F : Forest C) (h : Handle) : Except Error Bool := do
  return !(← F.node h).children.isEmpty

/-- The parent of a node, if it has one and that one is still there. -/
def liveParent? (F : Forest C) (n : Node C) : Option Handle := n.parent.filter F.contains

def liveChildren (F : Forest C) (n : Node C) : List Handle := n.children.filter F.contains

def indexOfChild (F : Forest C) (parent child : Handle) : Except Error (Option Nat) := do
  return (← F.children parent).findIdx? (· == child)

/-- The position of a node among its siblings, none for a root. -/
def indexOfSelf (F : Forest C) (h : Handle) : Except Error (Option Nat) := do
  match ← F.parent h with
  | none => return none
  | some parent => F.indexOfChild parent h

variable [Content C]

def kind (F : Forest C) (h : Handle) : Except Error (Kind C) := do
  return Content.kind (← F.node h).content

def line (F : Forest C) (h : Handle) : Except Error String := do
  return Content.line (← F.node h).content

/-- A name for a handle in messages; it exists whether or not the handle names a node. -/
def describe (F : Forest C) (h : Handle) : String :=
  match F.get? h with
  | some n => Content.line n.content
  | none => s!"<invalid {h}>"

def isKind (F : Forest C) (k : Kind C) (h : Handle) : Bool :=
  match F.get? h with
  | some n => decide (Content.kind n.content = k)
  | none => false

/-- The error for a position that the children of a node do not have. -/
def indexError (F : Forest C) (h : Handle) (index : Nat) : Error :=
  .indexOutOfBounds (F.describe h) index ((F.get? h).elim 0 fun n => n.children.length)

def child (F : Forest C) (h : Handle) (index : Nat) : Except Error Handle := do
  let n ← F.node h
  if n.children.isEmpty then throw (.noChildren (F.describe h) .get)
  match n.children[index]? with
  | some c => return c
  | none => throw (F.indexError h index)

/-- The child at a position, if it is of the given kind. -/
def childOfKind? (F : Forest C) (h : Handle) (k : Kind C) (index : Nat) :
    Except Error (Option Handle) := do
  let c ← F.child h index
  return if (← F.kind c) = k then some c else none

/-- The child at a position, which has to be of the given kind. -/
def childOfKind (F : Forest C) (h : Handle) (k : Kind C) (index : Nat) : Except Error Handle := do
  match ← F.childOfKind? h k index with
  | some c => return c
  | none =>
    let found := (F.child h index).toOption.elim "" F.describe
    throw (.notFound (.kindAtIndex (Content.kindName k) index (F.describe h) found))

/-- The position of a sibling that a new child is to be put next to. -/
def siblingIndex (F : Forest C) (parent sibling : Handle) : Except Error Nat := do
  match ← F.indexOfChild parent sibling with
  | some i => return i
  | none => throw (.notFound (.sibling (F.describe sibling) (F.describe parent)))

/-- The position of a node among the children of the parent that it points to. -/
def positionIn (F : Forest C) (parent child : Handle) : Except Error Nat := do
  match ← F.indexOfChild parent child with
  | some i => return i
  | none => throw (.notFound (.listedChild (F.describe child) (F.describe parent)))

/-- What `select` picks from the siblings of a node, given its own position among them; nothing for
a root. -/
def siblings? (F : Forest C) (h : Handle) (select : List Handle → Nat → List Handle) :
    Except Error (Option (List Handle)) := do
  match ← F.parent h with
  | none => return none
  | some parent =>
    let index ← F.positionIn parent h
    return some (select (← F.children parent) index)

/-- The position of the first handle in a list whose node passes a test of its kind. -/
def firstIndexWhere (F : Forest C) (test : Kind C → Bool) :
    List (Handle × Nat) → Except Error (Option Nat)
  | [] => return none
  | (h, i) :: rest => do
    if test (← F.kind h) then return some i else F.firstIndexWhere test rest

def childIndexOfKind (F : Forest C) (parent : Handle) (k : Kind C) :
    Except Error (Option Nat) := do
  F.firstIndexWhere (fun k' => decide (k' = k)) (← F.children parent).zipIdx

def lastIndexOf (F : Forest C) (list : List Handle) (k : Kind C) : Except Error (Option Nat) :=
  F.firstIndexWhere (fun k' => decide (k' = k)) list.zipIdx.reverse

/-- The position of the last node in a list whose kind is not excluded. -/
def lastIndexExcept (F : Forest C) (list : List Handle) (excluded : List (Kind C)) :
    Except Error (Option Nat) :=
  F.firstIndexWhere (fun k => !excluded.contains k) list.zipIdx.reverse

def indexesOf (F : Forest C) (list : List Handle) (k : Kind C) : Except Error (List Nat) := do
  return (← list.zipIdx.filterM fun (h, _) => do return decide ((← F.kind h) = k)).map Prod.snd

def childrenOfKind (F : Forest C) (h : Handle) (k : Kind C) : Except Error (List Handle) := do
  return (← F.children h).filter (F.isKind k)

/-- Steps down through nodes of the bypassed kinds, each of which must have exactly one child, to
the first node of another kind. -/
def normalizeFrom (F : Forest C) (bypass : List (Kind C)) : Nat → Handle → Except Error Handle
  | 0, _ => throw .endlessWalk
  | n + 1, h => do
    if !bypass.contains (← F.kind h) then return h
    match ← F.children h with
    | [c] => F.normalizeFrom bypass n c
    | cs => throw (.invariantViolation (.bypassedChildren (F.describe h) cs.length))

@[inherit_doc normalizeFrom]
def normalize (F : Forest C) (h : Handle) (bypass : List (Kind C)) : Except Error Handle :=
  F.normalizeFrom bypass (F.nodes.capacity + 1) h

end Forest
end Grove
