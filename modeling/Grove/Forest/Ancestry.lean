import Grove.Forest.Basic

/-!
# Ancestry

The walk from a node up along parent links, and the questions that it answers: who is an ancestor,
which ancestor is the nearest that passes a test, where does the walk end.

A walk meets at most `F.size` nodes before it either ends or repeats itself, and possibly one handle
more that names no node any longer. `lineage` allows for two steps more than nodes, so a lineage
that uses up the allowance is one that has no end.
-/

namespace Grove
set_option autoImplicit false

namespace Forest
variable {C : Type}

/-- The parent that a handle points to; none for roots and for handles that name no node. -/
def above? (F : Forest C) (h : Handle) : Option Handle := (F.get? h).bind Node.parent

/-- The first `limit` handles on the way up from `start`, itself included. -/
def ascend (F : Forest C) : Nat → Option Handle → List Handle
  | 0, _ => []
  | _ + 1, none => []
  | limit + 1, some h => h :: F.ascend limit (F.above? h)

/-- All handles on the way up from `start`, itself included. -/
def lineage (F : Forest C) (start : Option Handle) : List Handle := F.ascend (F.size + 2) start

/-- Whether a lineage was cut off because the way up never ends. -/
def isCutOff (F : Forest C) (line : List Handle) : Bool := line.length == F.size + 2

/-- Fails unless a lineage ends at a root. -/
def ensureRooted (F : Forest C) (line : List Handle) : Except Error Unit := do
  if F.isCutOff line then throw .endlessWalk
  match line.getLast? with
  | none => return ()
  | some top => discard (F.node top)

def ascendants (F : Forest C) (h : Handle) : Except Error (List Handle) := do
  return F.lineage (← F.parent h)

def ascendantsAndSelf (F : Forest C) (h : Handle) : Except Error (List Handle) := do
  discard (F.node h)
  return F.lineage (some h)

def firstAscendants (F : Forest C) (h : Handle) (limit : Nat) : Except Error (List Handle) := do
  return F.ascend limit (← F.parent h)

def firstAscendantsAndSelf (F : Forest C) (h : Handle) (limit : Nat) :
    Except Error (List Handle) := do
  discard (F.node h)
  return F.ascend limit (some h)

/-- The uppermost ancestor of a node, or the node itself if it has no parent. -/
def rootOf (F : Forest C) (h : Handle) : Except Error Handle := do
  let line := F.lineage (some h)
  F.ensureRooted line
  return line.getLastD h

def isAncestor (F : Forest C) (h candidate : Handle) : Except Error Bool := do
  let line ← F.ascendants h
  if line.contains candidate then return true
  F.ensureRooted line
  return false

def depth (F : Forest C) (h : Handle) : Except Error Nat := do
  let line ← F.ascendants h
  if F.isCutOff line then throw .endlessWalk
  return line.length

def firstMatch (F : Forest C) (P : Predicate C) : List Handle → Except Error (Option Handle)
  | [] => return none
  | h :: rest => do
    discard (F.node h)
    if P F h then return some h else F.firstMatch P rest

def ancestor? (F : Forest C) (h : Handle) (P : Predicate C) : Except Error (Option Handle) := do
  let line ← F.ascendants h
  match ← F.firstMatch P line with
  | some a => return some a
  | none =>
    F.ensureRooted line
    return none

variable [Content C]

def ancestor (F : Forest C) (h : Handle) (P : Predicate C) : Except Error Handle := do
  match ← F.ancestor? h P with
  | some a => return a
  | none => throw (.notFound (.matchingAncestor (F.describe h)))

def ancestorOfKind? (F : Forest C) (h : Handle) (k : Kind C) : Except Error (Option Handle) :=
  F.ancestor? h fun F a => F.isKind k a

def ancestorOfKind (F : Forest C) (h : Handle) (k : Kind C) : Except Error Handle := do
  match ← F.ancestorOfKind? h k with
  | some a => return a
  | none => throw (.notFound (.ancestorOfKind (Content.kindName k) (F.describe h)))

def ascendantsAndSelfOfKind (F : Forest C) (h : Handle) (k : Kind C) :
    Except Error (List Handle) := do
  return (← F.ascendantsAndSelf h).filter (F.isKind k)

/-- Fails if attaching `child` below `parent` would make a node its own ancestor. A childless node
is nobody's ancestor, so the way up is only walked for a child that has children. -/
def ensureAcyclic (F : Forest C) (parent child : Handle) : Except Error Unit := do
  if parent == child then throw (.cycleDetected (F.describe child))
  if ← F.hasChildren child then
    if ← F.isAncestor parent child then throw (.cycleDetected (F.describe child))

/-- Fails if moving `node` next to `base` would take `base` along. -/
def ensureNotAbove (F : Forest C) (base node : Handle) : Except Error Unit := do
  if node == base then throw (.cycleDetected (F.describe node))
  if ← F.isAncestor base node then throw (.cycleDetected (F.describe node))

end Forest
end Grove
