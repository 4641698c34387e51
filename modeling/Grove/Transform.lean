import Grove.Edit.Swap

/-!
# Transforms

A transform is an edit that has been put down to be carried out later. It names the nodes it works
on by operands; an operand is a handle, or, before the transform is recorded, whatever stands for
one.
-/

namespace Grove
set_option autoImplicit false

inductive TransformOn (α : Type) where
  /-- puts `replacement`, or a copy of it if it is owned, in the place of `base` -/
  | replace (base replacement : α)
  /-- moves `node` right before `base` -/
  | moveBefore (base node : α)
  /-- moves `node` right after `base` -/
  | moveAfter (base node : α)
  | delete (node : α)
  /-- inserts a child, as the last one without a position -/
  | addChild (parent child : α) (position : Option Nat)
  | swap (first second : α) (subtrees : Bool)
  deriving DecidableEq, Repr

abbrev Transform : Type := TransformOn Handle

namespace TransformOn
variable {α β : Type}

def addChildHead (parent child : α) : TransformOn α := .addChild parent child (some 0)

def typeName : TransformOn α → String
  | .replace .. => "replace"
  | .moveBefore .. => "move-before"
  | .moveAfter .. => "move-after"
  | .delete .. => "delete"
  | .addChild .. => "add-child"
  | .swap .. => "swap"

def operands : TransformOn α → List α
  | .replace base replacement => [base, replacement]
  | .moveBefore base node => [base, node]
  | .moveAfter base node => [base, node]
  | .delete node => [node]
  | .addChild parent child _ => [parent, child]
  | .swap first second _ => [first, second]

def mapM {m : Type → Type} [Monad m] (f : α → m β) : TransformOn α → m (TransformOn β)
  | .replace base replacement => do return .replace (← f base) (← f replacement)
  | .moveBefore base node => do return .moveBefore (← f base) (← f node)
  | .moveAfter base node => do return .moveAfter (← f base) (← f node)
  | .delete node => do return .delete (← f node)
  | .addChild parent child position => do return .addChild (← f parent) (← f child) position
  | .swap first second subtrees => do return .swap (← f first) (← f second) subtrees

end TransformOn

namespace Transform

/-- The short form of a transform, as in `delete(#3v0)`. -/
def label (t : Transform) : String :=
  t.typeName ++ "(" ++ ", ".intercalate (t.operands.map Handle.label) ++ ")"

variable {C : Type} [ShallowCopy C]

def execute : Transform → EditM C Unit
  | .replace base replacement => discard (EditM.replace base replacement false)
  | .moveBefore base node => discard (EditM.insertBefore base node true)
  | .moveAfter base node => discard (EditM.insertAfter base node true)
  | .delete node => EditM.delete node
  | .addChild parent child none => discard (EditM.addChild parent child)
  | .addChild parent child (some i) => discard (EditM.insertChild parent i child)
  | .swap first second subtrees => discard (EditM.swap first second subtrees)

end Transform
end Grove
