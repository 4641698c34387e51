import Grove.Settings.Document
import Grove.Settings.Folder
import Grove.Text.LowerCase

/-!
# Layered settings

Settings put together from layers: the defaults, a global file, a file named by the caller, and
environment variables. A later layer wins over an earlier one, key by key: a table merges with a
table, anything else replaces what was there. Keys are compared without regard to case, and only the
merged value is checked.
-/

namespace Grove
set_option autoImplicit false

/-- A value that layers are merged into. -/
inductive LayerValue where
  /-- nothing has been set here -/
  | unset
  | scalar (v : Toml.Scalar)
  | array (items : List LayerValue)
  | table (entries : List (String × LayerValue))

instance : Inhabited LayerValue := ⟨.unset⟩

inductive PathStep where
  | key (name : String)
  | index (i : Int)
  deriving DecidableEq, Repr

inductive LayerError where
  /-- a text that was given is no TOML document -/
  | notToml
  | fileNotFound (name : String)
  /-- a text that gives a string instead of a table -/
  | wantedRoot (found place : String)
  | unknownChoice (type given : String)
  | wantedChoice (type : String)
  | wantedSection (found name : String)
  deriving DecidableEq, Repr

namespace LayerValue

mutual

/-- The data of a document; dates and times count as strings. -/
def ofDatum : Toml.Datum → LayerValue
  | .scalar (.datetime d) => scalar (.string d.text)
  | .scalar v => scalar v
  | .array items => array (ofItems items)
  | .table entries => table (ofEntries entries)

def ofItems : List Toml.Datum → List LayerValue
  | [] => []
  | item :: rest => ofDatum item :: ofItems rest

def ofEntries : List (String × Toml.Datum) → List (String × LayerValue)
  | [] => []
  | (key, v) :: rest => (key, ofDatum v) :: ofEntries rest

end

def entries : LayerValue → List (String × LayerValue)
  | table es => es
  | _ => []

def items : LayerValue → List LayerValue
  | array vs => vs
  | _ => []

/-- The value of a key, in any case. -/
def get (v : LayerValue) (key : String) : LayerValue :=
  (v.entries.lookup (Text.lowerCase key)).getD unset

/-- Puts a value under a key; what is not a table becomes one. -/
def put (v : LayerValue) (key : String) (new : LayerValue) : LayerValue :=
  let key := Text.lowerCase key
  if v.entries.any (·.1 == key) then
    table (v.entries.map fun e => if e.1 == key then (key, new) else e)
  else
    table (v.entries ++ [(key, new)])

mutual

def merge (root : LayerValue) (key : String) : LayerValue → LayerValue
  | table incoming =>
    let target :=
      if root.entries.any (·.1 == Text.lowerCase key) then root.get key else table []
    root.put key (mergeAll target incoming)
  | new => root.put key new

def mergeAll (target : LayerValue) : List (String × LayerValue) → LayerValue
  | [] => target
  | (key, v) :: rest => mergeAll (target.merge key v) rest

end

/-- Items up to an index, and the position that the index means; a negative index counts from the
end. -/
def extended (vs : List LayerValue) (i : Int) : List LayerValue × Nat :=
  if 0 ≤ i then (vs ++ List.replicate (i.toNat + 1 - vs.length) unset, i.toNat)
  else if i.natAbs ≤ vs.length then (vs, vs.length - i.natAbs)
  else (List.replicate (i.natAbs - vs.length) unset ++ vs, 0)

/-- Changes the value that a step leads to; what cannot be entered is replaced by what can. -/
def modifyStep (f : LayerValue → LayerValue) (v : LayerValue) : PathStep → LayerValue
  | .key name => v.put name (f (v.get name))
  | .index i =>
    let (vs, position) := extended v.items i
    array (vs.modify position f)

def modifyPath (f : LayerValue → LayerValue) : LayerValue → List PathStep → LayerValue
  | v, [] => f v
  | v, step :: path => v.modifyStep (fun inner => modifyPath f inner path) step

/-- Merges a value into the one that a path leads to; an item of an array is replaced. -/
def setPath (root : LayerValue) (path : List PathStep) (new : LayerValue) : LayerValue :=
  match path.getLast? with
  | none => root
  | some (.key name) => root.modifyPath (fun v => v.merge name new) path.dropLast
  | some (.index i) =>
    root.modifyPath (fun v => v.modifyStep (fun _ => new) (.index i)) path.dropLast

end LayerValue

namespace PathStep

def isNameChar (c : Char) : Bool := c.isAlphanum || c == ' ' || c == '_' || c == '-'

def takeName (cs : List Char) : Option (PathStep × List Char) :=
  let name := cs.takeWhile isNameChar
  if name.isEmpty then none else some (.key (String.ofList name), cs.dropWhile isNameChar)

def isBlank (c : Char) : Bool := c == ' ' || c == '\t'

def takeIndex (cs : List Char) : Option (PathStep × List Char) :=
  let cs := cs.dropWhile isBlank
  let (negative, cs) := match cs with
    | '-' :: rest => (true, rest)
    | _ => (false, cs)
  let digits := cs.takeWhile Char.isDigit
  let n := digits.foldl (fun n c => n * 10 + (c.toNat - '0'.toNat)) 0
  match (cs.dropWhile Char.isDigit).dropWhile isBlank with
  | ']' :: rest =>
    if digits.isEmpty || n > 9223372036854775807 then none
    else some (.index (if negative then -(n : Int) else n), rest)
  | _ => none

/-- The steps behind the first name, at most `n` of them. -/
def takeSteps : Nat → List Char → Option (List PathStep)
  | _, [] => some []
  | 0, _ => none
  | n + 1, '.' :: cs => do
    let (step, rest) ← takeName cs
    return step :: (← takeSteps n rest)
  | n + 1, '[' :: cs => do
    let (step, rest) ← takeIndex cs
    return step :: (← takeSteps n rest)
  | _, _ => none

/-- The path that a text stands for: names joined by points, and indexes in brackets. A text of any
other form is one name. -/
def pathOf (text : String) : List PathStep :=
  let path := do
    let (first, rest) ← takeName text.toList
    return first :: (← takeSteps rest.length rest)
  path.getD [.key text]

end PathStep

structure LayerSources where
  files : Folder := {}
  /-- the name of the global file, which need not exist -/
  globalName : String
  /-- the name of the file that the caller wants, which has to exist -/
  localName : Option String := none
  environment : List (String × String) := []
  /-- what the names of the variables start with, in lower case -/
  variableStem : String

namespace Settings

def defaultLayer : LayerValue :=
  let s : Settings := {}
  .table [
    ("tree", .table [("sanitize", .scalar (.string (Choice.name s.sanitize)))]),
    ("transform", .table [("traversal", .scalar (.string (Choice.name s.traversal)))])]

def withoutMark (text : String) : String :=
  match text.toList with
  | '\ufeff' :: rest => String.ofList rest
  | _ => text

def documentValue? (text : String) : Option LayerValue := do
  return LayerValue.ofDatum (← Toml.Datum.ofTable? (← Toml.parse? text))

/-- Puts the document of the file with the given name on top of the layers below it. -/
def addDocument (name text : String) (below : LayerValue) : Except LayerError LayerValue :=
  match documentValue? (withoutMark text) with
  | none => .error .notToml
  | some (.scalar v) => .error (.wantedRoot v.described ("/".intercalate (Folder.partsOf name)))
  | some v =>
    .ok (v.entries.foldl (fun below (key, new) => below.setPath (PathStep.pathOf key) new) below)

/-- Puts an environment variable on top of the layers below it, if its name starts the right way.
Two underscores in the rest of its name lead into a table. -/
def addVariable (stem : String) (below : LayerValue) (entry : String × String) : LayerValue :=
  let name := Text.lowerCase entry.1
  if stem.toList.isPrefixOf name.toList then
    let rest := String.ofList (name.toList.drop stem.length)
    below.setPath (PathStep.pathOf (rest.replace "__" ".")) (.scalar (.string entry.2))
  else below

section
variable {α : Type}

def choiceOfFoldedName [Choice α] (name : String) : Except LayerError α :=
  match (Choice.all (α := α)).find? fun a =>
    Text.lowerCase (Choice.name a) == Text.lowerCase name with
  | some a => .ok a
  | none => .error (.unknownChoice (Choice.typeName α) name)

def choiceOfValue [Choice α] : LayerValue → Except LayerError α
  | .scalar (.string s) => choiceOfFoldedName s
  | .table [(key, _)] => choiceOfFoldedName key
  | _ => .error (.wantedChoice (Choice.typeName α))

/-- A section: a table with the choice under its key, or an array with the choice as its first
item. -/
def sectionOfValue [SettingsSection α] : LayerValue → Except LayerError α
  | .table entries =>
    match entries.lookup (SettingsSection.field α) with
    | some v => choiceOfValue v
    | none => .ok (SettingsSection.fallback)
  | .array (v :: _) => choiceOfValue v
  | .array [] => .ok (SettingsSection.fallback)
  | .scalar v => .error (.wantedSection v.described (SettingsSection.sectionName α))
  | .unset => .error (.wantedSection "unit value" (SettingsSection.sectionName α))

end

def ofLayers (v : LayerValue) : Except LayerError Settings := do
  let sanitize ← sectionOfValue (v.get "tree")
  let traversal ← sectionOfValue (v.get "transform")
  return { sanitize, traversal }

/-- The name and the text of the file that the caller wants: the one with the very name, or else
with the usual ending appended. -/
def localFile (sources : LayerSources) (name : String) : Except LayerError (String × String) :=
  let found := do
    let other ← Folder.withEnding? ".toml" name
    return (other, ← sources.files.text? other)
  match sources.files.text? name, found with
  | some text, _ => .ok (name, text)
  | none, some file => .ok file
  | none, none => .error (.fileNotFound name)

def mergedLayers (sources : LayerSources) : Except LayerError LayerValue := do
  let mut v := defaultLayer
  if let some text := sources.files.text? sources.globalName then
    v ← addDocument sources.globalName text v
  if let some wanted := sources.localName then
    let (name, text) ← localFile sources wanted
    v ← addDocument name text v
  return sources.environment.foldl (addVariable sources.variableStem) v

/-- The settings that the sources give. A failure is put down to a text that is no TOML document, if
there is any such text among the files. -/
def load (sources : LayerSources) : Except LayerError Settings :=
  match mergedLayers sources >>= ofLayers with
  | .ok s => .ok s
  | .error e =>
    if sources.files.texts.any fun (_, text) => (documentValue? text).isNone then .error .notToml
    else .error e

end Settings

def LayerError.message (e : LayerError) : String :=
  "Config error: " ++
    match e with
    | .notToml => "not a TOML document"
    | .fileNotFound name => "configuration file \"" ++ name ++ "\" not found"
    | .wantedRoot found place =>
      "invalid type: " ++ found ++ ", expected a map in " ++ place ++ " in " ++ place
    | .unknownChoice type given =>
      "enum " ++ type ++ " does not have variant constructor " ++ given
    | .wantedChoice type =>
      "value of enum " ++ type ++
        " should be represented by either string or table with exactly one key"
    | .wantedSection found name => "invalid type: " ++ found ++ ", expected struct " ++ name

end Grove
