import Grove.Forest.Ancestry

/-!
# Integrity

A check of the links of a whole forest, node by node in slot order: the parent of a node lists it
exactly once, every child points back, and the way up from a node neither returns to it nor goes on
for ever.
-/

namespace Grove
set_option autoImplicit false

namespace Forest
variable {C : Type} [Content C]

/-- The parent of a node, if any, is there and lists the node once. -/
def checkParent (F : Forest C) (h : Handle) (n : Node C) : Except Error Unit :=
  match n.parent with
  | none => return ()
  | some parent =>
    match F.get? parent with
    | none => throw (.invariantViolation (.missingParent (F.describe h) parent))
    | some p => do
      let count := p.children.count h
      if count != 1 then
        throw (.invariantViolation (.occurrences (F.describe h) count (F.describe parent)))

/-- A listed child is there and points back. -/
def checkChild (F : Forest C) (h child : Handle) : Except Error Unit :=
  match F.get? child with
  | none => throw (.invariantViolation (.missingChild (F.describe h) child))
  | some c => do
    if c.parent != some h then
      throw (.invariantViolation (.unconfirmedChild (F.describe child) (F.describe h)))

/-- The way up from a node ends without returning to it. -/
def checkLineage (F : Forest C) (h : Handle) (n : Node C) : Except Error Unit := do
  let line := F.lineage n.parent
  if line.contains h || F.isCutOff line then throw (.cycleDetected (F.describe h))

/-- Checks the links of every node and reports the first fault. -/
def verifyIntegrity (F : Forest C) : Except Error Unit :=
  F.nodes.entries.forM fun (h, n) => do
    F.checkParent h n
    n.children.forM (F.checkChild h)
    F.checkLineage h n

end Forest
end Grove
