/-!
# Handles

A handle names one occupancy of one slot of a store. The generation tells the occupancies of a
slot apart, so a handle that outlives its value never comes to name another one.
-/

namespace Grove
set_option autoImplicit false

/-- A slot number together with the generation in which the slot was filled. -/
structure Handle where
  index : Nat
  generation : Nat
  deriving DecidableEq, Repr, Inhabited

namespace Handle

/-- The short form of a handle, as in `#3v0`. -/
def label (h : Handle) : String := s!"#{h.index}v{h.generation}"

/-- The long form of a handle, used where handles are listed in messages. -/
def longLabel (h : Handle) : String :=
  "NodeId(Index \x7b index: " ++ toString h.index ++ ", generation: " ++
    toString h.generation ++ " \x7d)"

instance : ToString Handle := ⟨label⟩

end Handle
end Grove
