import Grove.Sample.Inscribed
import Grove.Text.Quoted

/-!
# Probes

Contents whose shallow copies try out everything that a copy hook may do: copy, change the text,
hang the copy below a host, fail, or hand back the source itself.
-/

namespace Grove
set_option autoImplicit false

inductive ProbeKind where
  | alpha
  | beta
  | prime
  | owned
  | fail
  | same
  deriving DecidableEq, Repr

structure Probe where
  kind : ProbeKind
  text : String
  deriving DecidableEq, Repr

namespace Probe

def kindName : ProbeKind → String
  | .alpha => "Alpha"
  | .beta => "Beta"
  | .prime => "Prime"
  | .owned => "Owned"
  | .fail => "Fail"
  | .same => "Same"

instance : Content Probe where
  Kind := ProbeKind
  decEqKind := inferInstance
  kindName := kindName
  kind := kind
  nodeName p := "<" ++ kindName p.kind ++ ">"
  contentString := text

/-- Copies a probe the way its kind says. -/
def copyShallow (source : Handle) : EditM Probe Handle := do
  let content ← EditM.query fun F => F.content source
  match content.kind with
  | .alpha | .beta => EditM.create content
  | .prime => EditM.create { content with text := content.text ++ "'" }
  | .owned =>
    let copy ← EditM.create content
    let host ← EditM.create ⟨.alpha, "host"⟩
    EditM.attachLast host copy
    return copy
  | .fail => throw (.notFound (.named ("no copy of " ++ content.text)))
  | .same => return source

instance : ShallowCopy Probe where
  copyShallow := copyShallow

instance : Inscribed Probe where
  kinds := [.alpha, .beta, .prime, .owned, .fail, .same]
  inscribe := Probe.mk
  inscription := text
  fieldText p :=
    "Probe \x7b kind: " ++ kindName p.kind ++ ", text: " ++ Text.quoted p.text ++ " \x7d"

end Probe
end Grove
