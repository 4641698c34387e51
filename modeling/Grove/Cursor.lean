import Grove.Edit.Insert

/-!
# Cursors

A cursor sits between two children of one node, or before the first or after the last of them. It
moves in both directions, and edits the list of children where it is: `remove` and `set` act on the
child that was passed last, `add` acts right before the cursor.

A cursor holds the session that it edits while it lives, so an edit that fails half way leaves
behind what it has done so far.
-/

namespace Grove
set_option autoImplicit false

/-- A position among the children of `parent`, and the position of the child passed last, as long as
that one may still be edited. -/
structure Cursor (C : Type) where
  session : Session C
  parent : Handle
  position : Nat := 0
  last : Option Nat := none

abbrev CursorM (C : Type) : Type → Type := EStateM Error (Cursor C)

namespace Cursor
variable {C : Type}

def start (s : Session C) (parent : Handle) : Except Error (Cursor C) := do
  discard (s.forest.node parent)
  return { session := s, parent }

def children (c : Cursor C) : List Handle := c.session.forest.below c.parent

def hasNext (c : Cursor C) : Bool := decide (c.position < c.children.length)

def hasPrevious (c : Cursor C) : Bool := decide (0 < c.position)

def previousIndex? (c : Cursor C) : Option Nat :=
  if c.position = 0 then none else some (c.position - 1)

/-- The child passed last, as long as it may still be edited. -/
def lastReturned? (c : Cursor C) : Option Handle := c.last.bind fun i => c.children[i]?

def next (c : Cursor C) : Option Handle × Cursor C :=
  match c.children[c.position]? with
  | some child => (some child, { c with position := c.position + 1, last := some c.position })
  | none => (none, c)

def previous (c : Cursor C) : Option Handle × Cursor C :=
  match c.previousIndex? with
  | none => (none, c)
  | some i =>
    match c.children[i]? with
    | some child => (some child, { c with position := i, last := some i })
    | none => (none, c)

/-- Repeats a movement until it passes nothing any more, at most the given number of times, and
gives the child passed last. -/
def repeatMove (step : Cursor C → Option Handle × Cursor C) :
    Nat → Option Handle → Cursor C → Option Handle × Cursor C
  | 0, visited, c => (visited, c)
  | n + 1, visited, c =>
    match step c with
    | (some child, c') => repeatMove step n (some child) c'
    | (none, c') => (visited, c')

/-- Moves back by up to `amount` children. -/
def back (amount : Nat) (c : Cursor C) : Option Handle × Cursor C :=
  repeatMove previous amount none c

/-- Moves by up to `amount` children, backwards for a negative amount. No movement gives the child
passed last. -/
def moveBy (amount : Int) (c : Cursor C) : Option Handle × Cursor C :=
  if amount = 0 then (c.lastReturned?, c)
  else repeatMove (if 0 < amount then next else previous) amount.natAbs none c

def nextMatchingFrom (P : Predicate C) : Nat → Cursor C → Option Handle × Cursor C
  | 0, c => (none, c)
  | n + 1, c =>
    match c.next with
    | (none, c') => (none, c')
    | (some child, c') =>
      if c'.session.forest.contains child && P c'.session.forest child then (some child, c')
      else nextMatchingFrom P n c'

def nextMatching (P : Predicate C) (c : Cursor C) : Option Handle × Cursor C :=
  nextMatchingFrom P (c.children.length + 1) c

def restFrom : Nat → Cursor C → List Handle × Cursor C
  | 0, c => ([], c)
  | n + 1, c =>
    match c.next with
    | (none, c') => ([], c')
    | (some child, c') =>
      let (rest, c'') := restFrom n c'
      (child :: rest, c'')

def rest (c : Cursor C) : List Handle × Cursor C := restFrom (c.children.length + 1) c

section
variable [Content C]

def nextOfKind (k : Kind C) : Cursor C → Option Handle × Cursor C :=
  nextMatching fun F h => F.isKind k h

def nextNotOfKind (k : Kind C) : Cursor C → Option Handle × Cursor C :=
  nextMatching fun F h => !F.isKind k h

end
end Cursor

namespace CursorM
variable {C α : Type}

def edit (x : EditM C α) : CursorM C α := fun c =>
  match x c.session with
  | .ok a s => .ok a { c with session := s }
  | .error e s => .error e { c with session := s }

def requireLast (fault : CursorFault) : CursorM C Nat := do
  match (← get).last with
  | some i => return i
  | none => throw (.cursorState fault)

variable [ShallowCopy C]

def remove : CursorM C Handle := do
  let index ← requireLast .removeUnmoved
  let removed ← edit (EditM.removeChild (← get).parent index)
  modify fun c =>
    { c with
      position := if index < c.position then c.position - 1 else c.position
      last := none }
  return removed

/-- Puts a node in the place of the child passed last, and tells which node was inserted. -/
def set (new : Handle) : CursorM C Handle := do
  let index ← requireLast .setUnmoved
  let parent := (← get).parent
  discard (edit (EditM.setChild parent index new))
  edit (EditM.query fun F => F.child parent index)

/-- Inserts a node right before the cursor, and tells which node was inserted. -/
def add (new : Handle) : CursorM C Handle := do
  let c ← get
  let inserted ← edit (EditM.insertChild c.parent c.position new)
  modify fun c => { c with position := c.position + 1, last := none }
  return inserted

/-- Removes the child passed last and passes the one before it, as often as told. -/
def removeBack : Nat → CursorM C Unit
  | 0 => return ()
  | n + 1 => do
    discard remove
    if (← modifyGet Cursor.previous).isNone then throw (.cursorState .replaceShort)
    removeBack n

/-- Collapses `count` children, the last of which is the child passed last, into one node, and tells
which node was inserted. Afterwards the cursor sits right before it. -/
def replace (new : Handle) (count : Nat) : CursorM C Handle := do
  if count = 0 then throw (.cursorState .replaceNone)
  let last ← requireLast .replaceUnmoved
  if last + 1 < count then throw (.cursorState .replaceShort)
  removeBack (count - 1)
  let inserted ← set new
  let c ← get
  if c.last.any fun index => decide (index < c.position) then
    discard (modifyGet Cursor.previous)
  return inserted

end CursorM
end Grove
