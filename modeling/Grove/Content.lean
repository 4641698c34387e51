/-!
# Contents

A forest never interprets what its nodes hold. It asks for a kind when nodes are filtered, and for
strings when it reports problems or renders a tree.
-/

namespace Grove
set_option autoImplicit false

/-- What a forest needs to know of the contents of its nodes. -/
class Content (C : Type) where
  /-- the tag that tells the variants of a node apart -/
  Kind : Type
  decEqKind : DecidableEq Kind
  kindName : Kind → String
  kind : C → Kind
  /-- the name of a node, by default the word for its kind -/
  nodeName : C → String := fun c => kindName (kind c)
  /-- the text of a node, by default none -/
  contentString : C → String := fun _ => ""

abbrev Kind (C : Type) [Content C] : Type := Content.Kind C

instance {C : Type} [Content C] : DecidableEq (Kind C) := Content.decEqKind

/-- The line that stands for a node: its name, followed by its text if there is any. -/
def Content.line {C : Type} [Content C] (c : C) : String :=
  let text := Content.contentString c
  if text.isEmpty then Content.nodeName c else Content.nodeName c ++ ": " ++ text

end Grove
