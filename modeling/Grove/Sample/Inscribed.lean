import Grove.Edit.Copy

/-!
# Inscribed contents

Contents that consist of a kind and a text, from which forests are built for trial.
-/

namespace Grove
set_option autoImplicit false

class Inscribed (C : Type) extends ShallowCopy C where
  kinds : List Kind
  inscribe : Kind → String → C
  inscription : C → String
  /-- a content with its fields spelled out -/
  fieldText : C → String

namespace Inscribed
variable {C : Type} [Inscribed C]

def kindOfName? (name : String) : Option (Kind C) :=
  (Inscribed.kinds (C := C)).find? fun k => Content.kindName k == name

/-- The text of a node, empty for a handle that names none. -/
def textOf (F : Forest C) (h : Handle) : String :=
  (F.get? h).elim "" fun n => inscription n.content

/-- A node with its handle and the fields of its content spelled out. -/
def nodeText (F : Forest C) (h : Handle) : Except Error String := do
  return "NodeRef \x7b id: " ++ h.longLabel ++ ", content: " ++
    fieldText (← F.content h) ++ " \x7d"

end Inscribed
end Grove
