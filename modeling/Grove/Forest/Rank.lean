import Grove.Forest.Ancestry
import Grove.Forest.Walk

/-!
# Ranks

The rank of a node among the nodes that pass a test. Its first entry counts from 1 the place of the
node among the outermost passing nodes below its nearest passing ancestor; the next entry does the
same for that ancestor, and so on up to the outermost one.
-/

namespace Grove
set_option autoImplicit false

namespace Forest
variable {C : Type} [Content C]

def rankFrom (F : Forest C) (P : Predicate C) : Nat → Handle → Except Error (List Nat)
  | 0, _ => throw .endlessWalk
  | n + 1, h => do
    match ← F.ancestor? h P with
    | none => return []
    | some scope =>
      match (← F.matchingDescendants scope P true).findIdx? (· == h) with
      | none => throw (.notFound (.withinScope (F.describe h) (F.describe scope)))
      | some i => return (i + 1) :: (← F.rankFrom P n scope)

def rank (F : Forest C) (h : Handle) (P : Predicate C) : Except Error (List Nat) :=
  F.rankFrom P (F.size + 2) h

end Forest
end Grove
