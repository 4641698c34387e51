import Grove.Transform

/-!
# Queues

Transforms that wait to be carried out, in the order in which they were recorded. A workspace is a
session with such a queue. Applying the queue empties it, whether or not a transform fails; after
the first failure the remaining transforms are dropped.
-/

namespace Grove
set_option autoImplicit false

/-- Recorded transforms under the name of whoever recorded them. -/
structure Queue where
  id : String := ""
  transforms : List Transform := []
  deriving DecidableEq, Repr, Inhabited

namespace Queue

def push (q : Queue) (t : Transform) : Queue := { q with transforms := q.transforms ++ [t] }

def cleared (q : Queue) : Queue := { q with transforms := [] }

/-- The short forms of the transforms, in brackets. -/
def label (q : Queue) : String := "[" ++ ", ".intercalate (q.transforms.map Transform.label) ++ "]"

end Queue

structure Workspace (C : Type) extends Session C where
  queue : Queue := {}

abbrev WorkM (C : Type) : Type → Type := EStateM Error (Workspace C)

namespace WorkM
variable {C α : Type}

def edit (x : EditM C α) : WorkM C α := fun w =>
  match x w.toSession with
  | .ok a s => .ok a { w with toSession := s }
  | .error e s => .error e { w with toSession := s }

def record (t : Transform) : WorkM C Unit := modify fun w => { w with queue := w.queue.push t }

variable [ShallowCopy C]

/-- Empties the queue and carries out its transforms in the order that `arrange` puts them. -/
def applyArranged (arrange : List Transform → List Transform) : WorkM C Unit := do
  let pending := (← get).queue.transforms
  modify fun w => { w with queue := w.queue.cleared }
  (arrange pending).forM fun t => edit t.execute

def apply : WorkM C Unit := applyArranged id

def applyReverse : WorkM C Unit := applyArranged List.reverse

end WorkM
end Grove
