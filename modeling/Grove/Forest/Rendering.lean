import Grove.Forest.Walk

/-!
# Rendering

A subtree as indented text: one line per node, each below the root led in by the strokes that
connect it to its parent. The tree of texts is put together from below, node by node.
-/

namespace Grove
set_option autoImplicit false

inductive TextTree where
  | node (text : String) (children : List TextTree)

namespace TextTree

/-- The stroke that leads in a node, by whether it is the last child of its parent. -/
def connector (last : Bool) : String := if last then "└── " else "├── "

/-- What a node contributes to the strokes of everything below it. -/
def rail (last : Bool) : String := if last then "    " else "│   "

mutual

/-- The lines of the nodes below `indent`, a sequence of siblings at a time. -/
def renderChildren (indent : String) : List TextTree → String
  | [] => ""
  | t :: rest => t.renderChild indent rest.isEmpty ++ renderChildren indent rest

/-- The lines of one child and everything below it. -/
def renderChild (indent : String) (last : Bool) : TextTree → String
  | node text children =>
    indent ++ connector last ++ text ++ "\n" ++ renderChildren (indent ++ rail last) children

end

def render : TextTree → String
  | node text children => text ++ "\n" ++ renderChildren "" children

/-- Trees that are finished, under the handles of their top nodes. Of several trees under one handle
the one that was put there last counts. -/
abbrev Finished : Type := List (Handle × TextTree)

namespace Finished

def put (built : Finished) (h : Handle) (tree : TextTree) : Finished := (h, tree) :: built

/-- Takes out the tree under a handle, if there is one. -/
def take (built : Finished) (h : Handle) : Option TextTree × Finished :=
  (built.lookup h, built.filter fun e => e.1 != h)

/-- Takes out the trees under several handles, one after the other; a handle without a tree is passed
over. -/
def takeAll (built : Finished) : List Handle → List TextTree × Finished
  | [] => ([], built)
  | h :: rest =>
    let (tree?, left) := built.take h
    let (trees, left) := takeAll left rest
    (tree?.toList ++ trees, left)

end Finished
end TextTree

namespace Forest
variable {C : Type} [Content C]

/-- Finishes the tree of a node, with the finished trees of its children. -/
def finish (F : Forest C) (built : TextTree.Finished) (h : Handle) :
    Except Error TextTree.Finished := do
  let text ← F.line h
  let (children, left) := built.takeAll (← F.children h)
  return left.put h (.node text children)

/-- The subtree of a node as a tree of texts. In the reversed walk every child is finished before its
parent. -/
def textTree (F : Forest C) (h : Handle) : Except Error TextTree := do
  let order ← F.descendantsAndSelf h
  let built ← order.reverse.foldlM F.finish []
  match (built.take h).1 with
  | some tree => return tree
  | none => throw (.invalidHandle h)

end Forest
end Grove
