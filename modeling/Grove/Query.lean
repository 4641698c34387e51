import Grove.Forest.Ancestry
import Grove.Forest.Walk
import Grove.Sample.Inscribed

/-!
# Queries

Tests on nodes, as data: a query is put together from tests of one node by negation, conjunction and
disjunction.
-/

namespace Grove
set_option autoImplicit false

/-- A test on nodes whose kinds are of type `K`. -/
inductive Query (K : Type) where
  | always (b : Bool)
  | ofKind (k : K)
  | ofKinds (ks : List K)
  | negation (q : Query K)
  | all (qs : List (Query K))
  | any (qs : List (Query K))
  | text (s : String)
  | line (s : String)
  | numChildren (n : Nat)
  | hasChildren (b : Bool)
  | hasParent (b : Bool)
  /-- the parent is there and of the given kind -/
  | parentOfKind (k : K)
  /-- some child is there and of the given kind -/
  | childOfKind (k : K)
  | depth (n : Nat)

namespace Query
variable {C : Type} [Inscribed C]

mutual

/-- Whether a query holds for a node. Of a handle that names no node nothing is known, so only what
holds of every node holds of it. -/
def holds (F : Forest C) (h : Handle) : Query (Kind C) → Bool
  | .always b => b
  | .ofKind k => F.isKind k h
  | .ofKinds ks => ks.any fun k => F.isKind k h
  | .negation q => !q.holds F h
  | .all qs => allHold F h qs
  | .any qs => anyHolds F h qs
  | .text s => Inscribed.textOf F h == s
  | .line s => F.describe h == s
  | .numChildren n => (F.below h).length == n
  | .hasChildren b => !(F.below h).isEmpty == b
  | .hasParent b => (F.above? h).isSome == b
  | .parentOfKind k => (F.above? h).any (F.isKind k)
  | .childOfKind k => (F.below h).any (F.isKind k)
  | .depth n => (F.depth h).toOption == some n

def allHold (F : Forest C) (h : Handle) : List (Query (Kind C)) → Bool
  | [] => true
  | q :: qs => q.holds F h && allHold F h qs

def anyHolds (F : Forest C) (h : Handle) : List (Query (Kind C)) → Bool
  | [] => false
  | q :: qs => q.holds F h || anyHolds F h qs

end

def predicate (q : Query (Kind C)) : Predicate C := fun F h => q.holds F h

end Query
end Grove
