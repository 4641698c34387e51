/-!
# Settings

The two choices that govern how a forest is edited: what happens to an owned node that is inserted
a second time, and the order in which rules walk a tree.
-/

namespace Grove
set_option autoImplicit false

/-- What becomes of a node that already has a parent when it is inserted elsewhere. -/
inductive SanitizePolicy where
  /-- a deep copy is inserted and the node stays where it is -/
  | copy
  /-- the insertion is refused -/
  | reject
  deriving DecidableEq, Repr, Inhabited

/-- The order in which a rule visits the nodes of a subtree. -/
inductive Traversal where
  /-- a node before its children; the rule may keep the walk from descending -/
  | preOrder
  /-- the children before their node; every node is visited -/
  | postOrder
  deriving DecidableEq, Repr, Inhabited

/-- A setting that is one of finitely many named choices. -/
class Choice (α : Type) where
  typeName : String
  /-- all choices, in the order in which they are listed to the user -/
  all : List α
  name : α → String

instance : Choice SanitizePolicy where
  typeName := "SanitizePolicy"
  all := [.copy, .reject]
  name
    | .copy => "copy"
    | .reject => "reject"

instance : Choice Traversal where
  typeName := "TraversalStrategy"
  all := [.preOrder, .postOrder]
  name
    | .preOrder => "pre_order"
    | .postOrder => "post_order"

def Choice.ofName? {α : Type} [Choice α] (s : String) : Option α :=
  (Choice.all (α := α)).find? fun a => Choice.name a == s

structure Settings where
  sanitize : SanitizePolicy := .copy
  traversal : Traversal := .preOrder
  deriving DecidableEq, Repr, Inhabited

end Grove
