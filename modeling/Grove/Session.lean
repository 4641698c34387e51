import Grove.Forest.Basic
import Grove.Notice

/-!
# Sessions

An editing session is a forest together with the notices raised so far. `EditM` is the monad of
operations on a session: an operation that fails keeps the changes it has made up to that point.
-/

namespace Grove
set_option autoImplicit false

/-- A forest that is being edited, and the notices raised so far, the first one first. -/
structure Session (C : Type) where
  forest : Forest C := {}
  notices : List Notice := []

instance {C : Type} : Inhabited (Session C) := ⟨{}⟩

abbrev EditM (C : Type) : Type → Type := EStateM Error (Session C)

namespace EditM
variable {C α : Type}

def query (q : Forest C → Except Error α) : EditM C α := do
  match q (← get).forest with
  | .ok a => return a
  | .error e => throw e

/-- Reads off the forest what cannot fail. -/
def look (f : Forest C → α) : EditM C α := do return f (← get).forest

def modifyNodes (f : Store (Node C) → Store (Node C)) : EditM C Unit :=
  modify fun s => { s with forest := { s.forest with nodes := f s.forest.nodes } }

def notify (n : Notice) : EditM C Unit :=
  modify fun s => { s with notices := s.notices ++ [n] }

/-- Runs `cleanup` if an operation fails, and fails with the error of the operation. -/
def onFailure (x : EditM C α) (cleanup : EditM C Unit) : EditM C α :=
  tryCatch x fun e => do
    cleanup
    throw e

def updateNode (h : Handle) (f : Node C → Node C) : EditM C Unit := do
  discard (query fun F => F.node h)
  modifyNodes fun s => s.modify h f

/-- Replaces the children list of a node by what `edit` makes of it; `edit` gives nothing for a
position outside the list. -/
def editChildren (h : Handle) (edit : List Handle → Option (α × List Handle)) : EditM C α := do
  match edit (← query fun F => F.children h) with
  | none => throw .positionOutsideList
  | some (a, children) =>
    updateNode h fun n => { n with children := children }
    return a

end EditM
end Grove
