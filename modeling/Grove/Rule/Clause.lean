import Grove.Query
import Grove.Rule

/-!
# Clauses

Rules as data. A clause names the nodes it applies to by a query, and says which transforms are
recorded there, whether the walk stops, and whether the rule fails. A rule goes through all of its
clauses at every node.
-/

namespace Grove
set_option autoImplicit false

/-- A node named from the node that a rule is at. -/
inductive Operand (K : Type) where
  | node (h : Handle)
  | visited
  | parent
  | root
  | firstChild
  /-- a new node, in whose text a dollar sign stands for the text of the visited node -/
  | fresh (kind : K) (text : String)
  | copyOf (operand : Operand K)

structure Clause (K : Type) where
  condition : Query K
  transforms : List (TransformOn (Operand K)) := []
  failure : Option String := none
  stop : Bool := false

namespace Operand
variable {C : Type} [Inscribed C]

def eval (h : Handle) : Operand (Kind C) → RuleM C Handle
  | .node n => return n
  | .visited => return h
  | .parent => do
    match ← RuleM.query fun F => F.parent h with
    | some p => return p
    | none => throw (.noParent "@parent")
  | .root => RuleM.query fun F => F.rootOf h
  | .firstChild => RuleM.query fun F => F.child h 0
  | .fresh kind text => do
    let visited ← RuleM.query fun F => return Inscribed.textOf F h
    RuleM.newNode (Inscribed.inscribe kind (text.replace "$" visited))
  | .copyOf operand => do RuleM.copyOf (← operand.eval h)

end Operand

namespace Clause
variable {C : Type} [Inscribed C]

/-- Applies a clause to a node, and tells whether the walk may go on below it. -/
def apply (clause : Clause (Kind C)) (h : Handle) : RuleM C Bool := do
  discard (RuleM.query fun F => F.node h)
  if ← RuleM.query fun F => return clause.condition.holds F h then
    clause.transforms.forM fun t => do RuleM.push (← t.mapM (Operand.eval h))
    if let some text := clause.failure then throw (.notFound (.named text))
    return !clause.stop
  else
    return true

/-- Applies clauses one after the other; the walk goes on below a node unless one of them stops
it. -/
def applyAll (h : Handle) : List (Clause (Kind C)) → RuleM C Bool
  | [] => return true
  | clause :: rest => do
    let descend ← clause.apply h
    return descend && (← applyAll h rest)

def rule (name : String) (strategy : Option Traversal) (clauses : List (Clause (Kind C))) :
    Rule C Unit where
  name := name
  strategy := strategy
  apply h _ := do return (← applyAll h clauses, ())

end Clause
end Grove
