import Grove.Forest.Basic

/-!
# Paths

A path is a list of child positions. Followed from a node, it leads to one of the nodes below.
-/

namespace Grove
set_option autoImplicit false

namespace Forest
variable {C : Type} [Content C]

/-- The node that a path leads to. -/
def follow (F : Forest C) : Handle → List Nat → Except Error Handle
  | h, [] => return h
  | h, index :: path => do
    match (← F.children h)[index]? with
    | some c => F.follow c path
    | none => throw (F.indexError h index)

end Forest
end Grove
