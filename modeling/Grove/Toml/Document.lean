import Grove.Toml.Scalar

/-!
# TOML documents

Arrays, inline tables, and whole documents. A document is read line by line: a header opens a table,
and a line with a key adds to the table that was opened last. A key may be set once, and a table may
be opened once; a table that so far was only named on the way to another one may still be opened.

Tables, arrays and dotted keys may be nested less than 80 deep.
-/

namespace Grove.Toml
set_option autoImplicit false

/-- Nesting has to stay below this number of levels. -/
def nestingLimit : Nat := 80

namespace Table

/-- Changes the table that a path leads to. Tables that the path names for the first time come into
being; they, and only they, may be entered by a dotted key. Within an array of tables the path leads
on from the last one. -/
def update (origin : TableOrigin) (change : Table → Option Table) :
    List Key → Table → Option Table
  | [], t => change t
  | key :: path, t =>
    match t.find? key.name with
    | none => do
      let child ← update origin change path (.mk origin none [])
      return t.push key (.table child)
    | some (.table child) => do
      if origin.dotted && !child.origin.implicit then none
      if child.origin.inline && !origin.inline then none
      return t.replace key.name (.table (← update origin change path child))
    | some (.tables ts span) => do
      let last ← update origin change path (← ts.getLast?)
      return t.replace key.name (.tables (ts.dropLast ++ [last]) span)
    | some _ => none

/-- Sets a dotted key, whose front part is `path`. -/
def define (inline : Bool) (path : List Key) (key : Key) (item : Item) (t : Table) : Option Table :=
  let dotted := !path.isEmpty
  t.update { implicit := dotted, dotted, inline }
    (fun target =>
      if target.origin.dotted != dotted then none
      else if (target.find? key.name).isSome then none
      else some (target.push key item))
    path

end Table

namespace Reader

def isBareKeyChar (c : Char) : Bool := c.isAlphanum || c == '_' || c == '-'

def simpleKey : Reader Key := do
  let start ← position
  let name ←
    match ← peek? with
    | some '"' => basicString
    | some '\'' => literalString
    | _ => String.ofList <$> takeWhile1 isBareKeyChar
  return { name, span := ⟨start, ← position⟩ }

def keyPart : Reader Key := do
  blanks
  let key ← simpleKey
  blanks
  return key

def dottedKey : Reader (List Key × Key) := do
  let first ← keyPart
  let more ← many do
    if (← peek?) == some '.' then
      char '.'
      some <$> keyPart
    else
      return none
  let parts := first :: more
  if parts.length < nestingLimit then return (parts.dropLast, parts.getLastD first) else failure

def arrayItem (value : Reader Item) : Reader Item := do
  let start ← position
  char '['
  let items ← many do
    gap
    if (← peek?) == some ']' then return none
    let item ← value
    gap
    if (← peek?) != some ']' then char ','
    return some item
  gap
  char ']'
  return .array items ⟨start, ← position⟩

def inlineEntry (value : Reader Item) : Reader (List Key × Key × Item) := do
  let (path, key) ← dottedKey
  char '='
  blanks
  let item ← value
  blanks
  return (path, key, item)

def inlineTable (value : Reader Item) : Reader Item := do
  let start ← position
  char '{'
  blanks
  let entries ←
    if (← peek?) == some '}' then pure []
    else do
      let first ← inlineEntry value
      let more ← many do
        if (← peek?) == some ',' then
          char ','
          some <$> inlineEntry value
        else
          return none
      pure (first :: more)
  char '}'
  let stop ← position
  let table ← entries.foldlM (fun t (path, key, item) => t.define true path key item)
    (Table.mk { inline := true } none [])
  return .table (table.withSpan (some ⟨start, stop⟩))

/-- A value with arrays and inline tables nested at most `levels` deep. -/
def value : (levels : Nat) → Reader Item
  | 0 => scalarItem
  | levels + 1 => do
    match ← peek? with
    | some '[' => arrayItem (value levels)
    | some '{' => inlineTable (value levels)
    | _ => scalarItem
where
  scalarItem : Reader Item := do
    let start ← position
    let scalar ← scalarValue
    return .scalar scalar ⟨start, ← position⟩

end Reader

structure Header where
  path : List Key
  key : Key
  /-- between double brackets: one more table under the same key -/
  repeated : Bool

/-- A document that is being read: the finished tables, and the table opened last with its
header. -/
structure Draft where
  root : Table := default
  current : Table := .mk {} (some ⟨0, 0⟩) []
  header : Option Header := none

namespace Draft

/-- Tables named on the way to the table of a header. -/
def passed : TableOrigin := { implicit := true }

/-- The place of an array of tables, from its first to its last table. -/
def spanOf (ts : List Table) : Option Span := do
  let first ← (← ts.head?).span?
  let last ← (← ts.getLast?).span?
  return ⟨first.start, last.stop⟩

def finish (d : Draft) : Option Table :=
  match d.header with
  | none => some d.current
  | some h =>
    d.root.update passed (fun parent =>
      match parent.find? h.key.name, h.repeated with
      | some (.tables ts _), true =>
        let ts := ts ++ [d.current]
        some (parent.replace h.key.name (.tables ts (spanOf ts)))
      | none, false => some (parent.push h.key (.table d.current))
      | _, _ => none) h.path

def openTable (d : Draft) (h : Header) (span : Span) : Option Draft := do
  let root ← d.finish
  let opened (t : Table) : Table := (t.withOrigin {}).withSpan (some span)
  if h.repeated then
    let root ← root.update passed (fun parent =>
      match parent.find? h.key.name with
      | none => some (parent.push h.key (.tables [] none))
      | some (.tables ..) => some parent
      | some _ => none) h.path
    return { root, current := opened default, header := some h }
  else
    let found ← existing root h
    let root ← root.update passed (fun parent => some (parent.remove h.key.name)) h.path
    return { root, current := opened found, header := some h }
where
  /-- The table of a header that was named before, if it may still be opened. -/
  existing (root : Table) (h : Header) : Option Table :=
    match lookUp root h.path with
    | none => some default
    | some parent =>
      match parent.find? h.key.name with
      | none => some default
      | some (.table t) => if t.origin.implicit && !t.origin.dotted then some t else none
      | some _ => none
  lookUp : Table → List Key → Option Table
    | t, [] => some t
    | t, key :: path =>
      match t.find? key.name with
      | some (.table child) => lookUp child path
      | some (.tables ts _) => ts.getLast?.bind fun last => lookUp last path
      | _ => none

/-- Adds a line with a key to the table opened last. -/
def define (d : Draft) (path : List Key) (key : Key) (item : Item) : Option Draft := do
  let span :=
    match d.current.span?, item.span? with
    | some old, some new => some ⟨old.start, new.stop⟩
    | old, _ => old
  return { d with current := (← d.current.define false path key item).withSpan span }

end Draft

namespace Reader

def header : Reader (Header × Span) := do
  let start ← position
  let repeated ← looksAt "[["
  word (if repeated then "[[" else "[")
  let (path, key) ← dottedKey
  word (if repeated then "]]" else "]")
  return ({ path, key, repeated }, ⟨start, ← position⟩)

/-- A line of a document, added to what has been read so far. -/
def line (d : Draft) : Reader Draft := do
  match ← peek? with
  | some '#' => do
    comment
    lineEnd
    return d
  | some '[' => do
    let (h, span) ← header
    lineTrailing
    d.openTable h span
  | some '\n' | some '\r' => do
    newline
    return d
  | _ => do
    let (path, key) ← dottedKey
    char '='
    blanks
    let item ← value (nestingLimit - 1)
    lineTrailing
    d.define path key item

def lines : Nat → Draft → Reader Draft
  | 0, _ => failure
  | n + 1, d => do
    blanks
    if ← atEnd then return d
    lines n (← line d)

/-- A whole document. A byte order mark at its start is skipped. -/
def document : Reader Table := do
  discard (option (char '\ufeff'))
  let d ← lines ((← get).rest.length + 1) {}
  d.finish

end Reader

def parse? (text : String) : Option Table :=
  (Reader.document.run { rest := text.toList }).map Prod.fst

end Grove.Toml
