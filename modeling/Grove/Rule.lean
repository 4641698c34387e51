import Grove.Queue

/-!
# Rules

A rule inspects a tree node by node and records transforms, which are carried out when the walk is
over. While the tree is walked a rule may look at the forest, add new parentless nodes, copy
subtrees and record transforms; `RuleM` offers nothing else, so the walk never sees a link change.

`Traversal.survey` walks a subtree with a rule; `Traversal.apply` also carries out what the rule has
recorded.
-/

namespace Grove
set_option autoImplicit false

inductive RuleM (C : Type) (α : Type) where
  | done (a : α)
  | fail (e : Error)
  | look (k : Forest C → RuleM C α)
  | create (content : C) (k : Handle → RuleM C α)
  | copy (h : Handle) (k : Except Error Handle → RuleM C α)
  | record (t : Transform) (k : RuleM C α)

namespace RuleM
variable {C α β : Type}

def bind : RuleM C α → (α → RuleM C β) → RuleM C β
  | .done a, f => f a
  | .fail e, _ => .fail e
  | .look k, f => .look fun F => (k F).bind f
  | .create content k, f => .create content fun h => (k h).bind f
  | .copy h k, f => .copy h fun r => (k r).bind f
  | .record t k, f => .record t (k.bind f)

instance : Monad (RuleM C) where
  pure := .done
  bind := bind

/-- A program that goes on with `handler` where another one fails. -/
def recover : RuleM C α → (Error → RuleM C α) → RuleM C α
  | .done a, _ => .done a
  | .fail e, handler => handler e
  | .look k, handler => .look fun F => (k F).recover handler
  | .create content k, handler => .create content fun h => (k h).recover handler
  | .copy h k, handler => .copy h fun r => (k r).recover handler
  | .record t k, handler => .record t (k.recover handler)

instance : MonadExceptOf Error (RuleM C) where
  throw := .fail
  tryCatch := recover

def ofExcept : Except Error α → RuleM C α
  | .ok a => .done a
  | .error e => .fail e

def query (q : Forest C → Except Error α) : RuleM C α := .look fun F => ofExcept (q F)

def newNode (content : C) : RuleM C Handle := .create content .done

/-- Makes a deep copy; the program fails if the copy does. -/
def copyOf (h : Handle) : RuleM C Handle := .copy h ofExcept

def push (t : Transform) : RuleM C Unit := .record t (.done ())

def attempt (x : EditM C α) : WorkM C (Except Error α) :=
  tryCatch (do return .ok (← WorkM.edit x)) fun e => return .error e

variable [ShallowCopy C]

def run : RuleM C α → WorkM C α
  | .done a => return a
  | .fail e => throw e
  | .look k => do (k (← get).forest).run
  | .create content k => do (k (← WorkM.edit (EditM.create content))).run
  | .copy h k => do (k (← attempt (EditM.copy h))).run
  | .record t k => do
    WorkM.record t
    k.run

end RuleM

/-- A rule with a memory of type `σ`. At each node it tells whether a walk that meets nodes before
their children should go on to the children. -/
structure Rule (C : Type) (σ : Type) where
  /-- the id of the queues that the rule fills -/
  name : String
  /-- the walk of the rule; the settings decide for a rule that has none -/
  strategy : Option Traversal := none
  apply : Handle → σ → RuleM C (Bool × σ)

/-- A workspace in which a rule is at work: the nodes it has been applied to, and its memory. -/
structure Survey (C : Type) (σ : Type) extends Workspace C where
  visited : List Handle := []
  memory : σ

abbrev SurveyM (C : Type) (σ : Type) : Type → Type := EStateM Error (Survey C σ)

namespace SurveyM
variable {C σ α : Type}

def work (x : WorkM C α) : SurveyM C σ α := fun s =>
  match x s.toWorkspace with
  | .ok a w => .ok a { s with toWorkspace := w }
  | .error e w => .error e { s with toWorkspace := w }

variable [ShallowCopy C]

def applyAt (rule : Rule C σ) (h : Handle) : SurveyM C σ Bool := do
  modify fun s => { s with visited := s.visited ++ [h] }
  let (descend, memory) ← work (rule.apply h (← get).memory).run
  modify fun s => { s with memory }
  return descend

/-- Applies a rule to a node and then to everything below it, as far as the rule wants to go on; at
most `n` levels. -/
def preOrder (rule : Rule C σ) : Nat → Handle → SurveyM C σ Unit
  | 0, _ => throw .endlessWalk
  | n + 1, h => do
    if ← applyAt rule h then
      (← work (WorkM.edit (EditM.query fun F => F.children h))).forM (preOrder rule n)

/-- Applies a rule to everything below a node and then to the node; at most `n` levels. -/
def postOrder (rule : Rule C σ) : Nat → Handle → SurveyM C σ Unit
  | 0, _ => throw .endlessWalk
  | n + 1, h => do
    (← work (WorkM.edit (EditM.query fun F => F.children h))).forM (postOrder rule n)
    discard (applyAt rule h)

end SurveyM

/-- The survey of a rule that has not been applied to any node yet. -/
def Survey.start {C σ : Type} (s : Session C) (rule : Rule C σ) (memory : σ) : Survey C σ :=
  { toSession := s, queue := { id := rule.name }, memory }

namespace Traversal
variable {C σ : Type} [ShallowCopy C]

/-- Walks a subtree with a rule and records its transforms. -/
def survey (t : Traversal) (rule : Rule C σ) (root : Handle) : SurveyM C σ Unit := do
  let levels := (← get).forest.nodes.capacity + 1
  match t with
  | .preOrder => SurveyM.preOrder rule levels root
  | .postOrder => SurveyM.postOrder rule levels root

/-- Walks a subtree with a rule and carries out what it has recorded. -/
def apply (t : Traversal) (rule : Rule C σ) (root : Handle) : SurveyM C σ Unit := do
  t.survey rule root
  SurveyM.work WorkM.apply

end Traversal

/-- Walks a subtree the way the rule wants to, or else the way the settings say, and carries out
what the rule has recorded. -/
def Rule.visit {C σ : Type} [ShallowCopy C] (rule : Rule C σ) (root : Handle) :
    SurveyM C σ Unit := do
  (rule.strategy.getD (← get).forest.settings.traversal).apply rule root

end Grove
