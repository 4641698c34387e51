import Grove.Edit.Insert
import Grove.Sample.Inscribed
import Grove.Text.Quoted

/-!
# Labels

Named nodes. A label of the kind `badCopy` breaks the promise of shallow copies: its copies come
with a child.
-/

namespace Grove
set_option autoImplicit false

inductive LabelKind where
  | block
  | leaf
  | wrapper
  | special
  | badCopy
  deriving DecidableEq, Repr

structure Label where
  kind : LabelKind
  name : String
  deriving DecidableEq, Repr

namespace Label

def kindName : LabelKind → String
  | .block => "Block"
  | .leaf => "Leaf"
  | .wrapper => "Wrapper"
  | .special => "Special"
  | .badCopy => "BadCopy"

instance : Content Label where
  Kind := LabelKind
  decEqKind := inferInstance
  kindName := kindName
  kind := kind
  contentString := name

/-- Copies the label; a bad copy gets a stray leaf. -/
def copyShallow (source : Handle) : EditM Label Handle := do
  let content ← EditM.query fun F => F.content source
  let copy ← EditM.create content
  if content.kind = .badCopy then
    let stray ← EditM.create ⟨.leaf, "stray"⟩
    EditM.attachLast copy stray
  return copy

instance : ShallowCopy Label where
  copyShallow := copyShallow

instance : Inscribed Label where
  kinds := [.block, .leaf, .wrapper, .special, .badCopy]
  inscribe := Label.mk
  inscription := name
  fieldText l :=
    "Label \x7b kind: " ++ kindName l.kind ++ ", name: " ++ Text.quoted l.name ++ " \x7d"

end Label

/-- The nodes of the sample tree `a(b(c, d), e)`. -/
structure SampleTree where
  a : Handle
  b : Handle
  c : Handle
  d : Handle
  e : Handle
  deriving DecidableEq, Repr

/-- Builds the sample tree, with blocks `a` and `b` and leaves `c`, `d` and `e`. -/
def SampleTree.build : EditM Label SampleTree := do
  let a ← EditM.create ⟨.block, "a"⟩
  let b ← EditM.create ⟨.block, "b"⟩
  let c ← EditM.create ⟨.leaf, "c"⟩
  let d ← EditM.create ⟨.leaf, "d"⟩
  let e ← EditM.create ⟨.leaf, "e"⟩
  discard (EditM.addChildren b [c, d])
  discard (EditM.addChildren a [b, e])
  return { a, b, c, d, e }

end Grove
