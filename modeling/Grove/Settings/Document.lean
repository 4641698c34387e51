import Grove.Settings
import Grove.Text.Quoted
import Grove.Toml.Datum
import Grove.Toml.Document

/-!
# Settings documents

Settings read from and written as a TOML document with a table `tree` and a table `transform`.
Missing keys keep their defaults and unknown keys are passed over; a value of the wrong shape is an
error, which points to the place in the document.
-/

namespace Grove
set_option autoImplicit false

inductive ShapeFault where
  | unknownChoice (given : String) (expected : List String)
  | wantedChoice
  | emptyChoice
  | severalChoices
  | wantedEmptyTable
  | wantedEmptyArray
  | wantedTable (found : String)
  | wantedSection (found : String) (name : String)
  deriving DecidableEq, Repr

/-- A fault of shape, with the place in the document as far as it is known. -/
structure Misshapen where
  fault : ShapeFault
  span : Option Toml.Span := none
  deriving DecidableEq, Repr

inductive DocumentError where
  | notToml
  | misshapen (text : String) (what : Misshapen)
  deriving DecidableEq, Repr

namespace ShapeFault

def text : ShapeFault → String
  | unknownChoice given expected =>
    "unknown variant `" ++ given ++ "`, expected " ++
      " or ".intercalate (expected.map fun e => "`" ++ e ++ "`")
  | wantedChoice => "wanted string or table"
  | emptyChoice => "wanted exactly 1 element, found 0 elements"
  | severalChoices => "wanted exactly 1 element, more than 1 element"
  | wantedEmptyTable => "expected empty table"
  | wantedEmptyArray => "expected empty array"
  | wantedTable found => "expected table, found " ++ found
  | wantedSection found name => "invalid type: " ++ found ++ ", expected struct " ++ name

end ShapeFault

/-- A value as it is named in a message. -/
def Toml.Scalar.described : Toml.Scalar → String
  | .string s => "string " ++ Text.quoted s
  | .integer i => "integer `" ++ toString i ++ "`"
  | .float x => "floating point `" ++ x.text ++ "`"
  | .boolean b => "boolean `" ++ toString b ++ "`"
  | .datetime d => "string " ++ Text.quoted d.text

/-- A part of the settings that holds one choice, stored in a table of its own. -/
class SettingsSection (α : Type) extends Choice α where
  field : String
  sectionName : String
  /-- the choice made where none is written -/
  fallback : α

instance : SettingsSection SanitizePolicy where
  field := "sanitize"
  sectionName := "TreeSettings"
  fallback := .copy

instance : SettingsSection Traversal where
  field := "traversal"
  sectionName := "TransformSettings"
  fallback := .preOrder

namespace Settings

abbrev Shaped (α : Type) : Type := Except Misshapen α

/-- Adds a place to a fault that has none yet. -/
def locate {α : Type} (span : Option Toml.Span) (x : Shaped α) : Shaped α :=
  x.mapError fun m => { m with span := m.span.or span }

section
variable {α : Type}

def choiceOfName [Choice α] (name : String) (span : Option Toml.Span) : Shaped α :=
  match Choice.ofName? name with
  | some a => .ok a
  | none =>
    .error { fault := .unknownChoice name ((Choice.all (α := α)).map Choice.name), span }

/-- What stands behind the name of a choice has to be empty. -/
def checkEmpty : Toml.Item → Shaped Unit
  | .scalar v span => .error { fault := .wantedTable v.typeName, span := some span }
  | .array items span =>
    if items.isEmpty then .ok () else .error { fault := .wantedEmptyTable, span := some span }
  | .table t =>
    if t.entries.isEmpty then .ok () else .error { fault := .wantedEmptyTable, span := t.span? }
  | .tables ts span =>
    if ts.isEmpty then .ok () else .error { fault := .wantedEmptyArray, span }

/-- A choice: its name, or a table with its name as the only key. -/
def choiceOfItem [Choice α] (item : Toml.Item) : Shaped α :=
  locate item.span? <|
    match item with
    | .scalar (.string s) _ => choiceOfName s none
    | .table t =>
      match t.entries with
      | [] => .error { fault := .emptyChoice }
      | [(key, inner)] => do
        let a ← choiceOfName key.name (some key.span)
        checkEmpty inner
        return a
      | _ => .error { fault := .severalChoices }
    | _ => .error { fault := .wantedChoice }

def choiceOfEntries [SettingsSection α] : List (Toml.Key × Toml.Item) → Shaped α
  | [] => .ok (SettingsSection.fallback)
  | (key, item) :: rest =>
    if key.name == SettingsSection.field α then
      locate (item.span?.or (some key.span)) (choiceOfItem item)
    else choiceOfEntries rest

def choiceOfItems [SettingsSection α] : List Toml.Item → Shaped α
  | [] => .ok (SettingsSection.fallback)
  | item :: _ => choiceOfItem item

/-- A section: a table with the choice under its key, or an array with the choice as its first
item. -/
def sectionOfItem [SettingsSection α] (item : Toml.Item) : Shaped α :=
  locate item.span? <|
    match item with
    | .table t => choiceOfEntries t.entries
    | .array items _ => choiceOfItems items
    | .tables ts _ => choiceOfItems (ts.map Toml.Item.table)
    | .scalar (.datetime _) _ => .ok (SettingsSection.fallback)
    | .scalar v _ =>
      .error { fault := .wantedSection v.described (SettingsSection.sectionName α) }

end

def ofEntries : Settings → List (Toml.Key × Toml.Item) → Shaped Settings
  | s, [] => .ok s
  | s, (key, item) :: rest => do
    let s ←
      locate (item.span?.or (some key.span)) <|
        if key.name == "tree" then (fun a => { s with sanitize := a }) <$> sectionOfItem item
        else if key.name == "transform" then
          (fun a => { s with traversal := a }) <$> sectionOfItem item
        else .ok s
    ofEntries s rest

/-- The settings that a text gives. A fault of shape is reported only if the document also gives
plain data. -/
def ofText (text : String) : Except DocumentError Settings :=
  match Toml.parse? text with
  | none => .error .notToml
  | some root =>
    (ofEntries {} root.entries).mapError fun what =>
      if (Toml.Datum.ofTable? root).isSome then .misshapen text what else .notToml

def toText (s : Settings) : String :=
  "[tree]\nsanitize = \"" ++ Choice.name s.sanitize ++ "\"\n\n[transform]\ntraversal = \"" ++
    Choice.name s.traversal ++ "\"\n"

end Settings

namespace DocumentError

/-- The characters within the first `n` bytes. -/
def takeBytes : Nat → List Char → List Char
  | _, [] => []
  | n, c :: rest => if c.utf8Size ≤ n then c :: takeBytes (n - c.utf8Size) rest else []

/-- The number and the text of the line with a given position, and the number of characters on it
before that position; lines and characters are counted from 0. -/
def lineAt (text : String) (position : Nat) : Nat × String × Nat :=
  let before := takeBytes position text.toList
  let number := before.count '\n'
  let column := (before.reverse.takeWhile (· != '\n')).length
  (number, (text.splitOn "\n").getD number "", column)

/-- A place in a text, shown as its line underlined with carets: one for each byte, but, however far
the place reaches, no more than the bytes of the line less the characters before the place. -/
def excerpt (text : String) (span : Toml.Span) : String :=
  let (number, line, column) := lineAt text span.start
  let label := toString (number + 1)
  let margin := "".pushn ' ' (label.length + 1)
  let carets := max 1 (min (span.stop - span.start) (line.utf8ByteSize - column))
  "TOML parse error at line " ++ label ++ ", column " ++ toString (column + 1) ++ "\n" ++
    margin ++ "|\n" ++ label ++ " | " ++ line ++ "\n" ++
    margin ++ "|" ++ "".pushn ' ' (column + 1) ++ "".pushn '^' carets ++ "\n"

def message : DocumentError → String
  | notToml => "Config error: parse settings: not a TOML document"
  | misshapen text what =>
    "Config error: parse settings: " ++ what.span.elim "" (excerpt text) ++ what.fault.text ++ "\n"

end DocumentError
end Grove
