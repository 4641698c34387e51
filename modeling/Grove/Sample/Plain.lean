import Grove.Sample.Inscribed
import Grove.Text.Quoted

/-!
# Plain contents

Contents that leave everything to the defaults: their text is not part of the line of a node.
-/

namespace Grove
set_option autoImplicit false

inductive PlainKind where
  | one
  | two
  | three
  deriving DecidableEq, Repr

/-- A kind and a text that no line shows. -/
structure Plain where
  kind : PlainKind
  text : String
  deriving DecidableEq, Repr

namespace Plain

def kindName : PlainKind → String
  | .one => "One"
  | .two => "Two"
  | .three => "Three"

instance : Content Plain where
  Kind := PlainKind
  decEqKind := inferInstance
  kindName := kindName
  kind := kind

instance : ShallowCopy Plain where
  copyShallow := EditM.copyContent

instance : Inscribed Plain where
  kinds := [.one, .two, .three]
  inscribe := Plain.mk
  inscription := text
  fieldText p :=
    "Plain \x7b kind: " ++ kindName p.kind ++ ", text: " ++ Text.quoted p.text ++ " \x7d"

end Plain
end Grove
