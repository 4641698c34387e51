/-!
# Positions

Changes of a list at a position. Each gives nothing if the list does not have the position; the end
of a list is a position to insert at, but not one to take from.
-/

namespace Grove.Position
set_option autoImplicit false

variable {α : Type}

/-- Inserts before the element at a position. -/
def insert? (l : List α) (i : Nat) (a : α) : Option (Unit × List α) :=
  if i ≤ l.length then some ((), l.insertIdx i a) else none

def erase? (l : List α) (i : Nat) : Option (α × List α) :=
  l[i]?.map fun a => (a, l.eraseIdx i)

/-- Overwrites the element at a position, and gives the former one. -/
def replace? (l : List α) (i : Nat) (a : α) : Option (α × List α) :=
  l[i]?.map fun b => (b, l.set i a)

end Grove.Position
