import Grove.Edit.Insert
import Grove.Sample.Inscribed

/-!
# Sample shapes

The two extreme shapes of a tree: a chain, in which every node but the last has one child, and a
star, in which one node has all others as children.
-/

namespace Grove.Inscribed
set_option autoImplicit false

variable {C : Type} [Inscribed C]

/-- Puts `n` nodes one above the other on top of a node; `first` numbers the lowest of them. Gives
the topmost node. -/
def stack (kind : Kind C) : (n first : Nat) → Handle → EditM C Handle
  | 0, _, top => return top
  | n + 1, first, top => do
    let next ← EditM.create (inscribe kind s!"n{first}")
    discard (EditM.addChild next top)
    stack kind n (first + 1) next

/-- A chain of `n` nodes, or of one if `n` is zero, built from the bottom. Gives the bottom and the
top. -/
def chain (kind : Kind C) (n : Nat) : EditM C (Handle × Handle) := do
  let bottom ← EditM.create (inscribe kind "n0")
  return (bottom, ← stack kind (n - 1) 1 bottom)

def star (kind : Kind C) (n : Nat) : EditM C Handle := do
  let hub ← EditM.create (inscribe kind "hub")
  (List.range n).forM fun i => do
    discard (EditM.addChild hub (← EditM.create (inscribe kind s!"s{i}")))
  return hub

end Grove.Inscribed
