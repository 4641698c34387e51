import Grove.Toml.Reader

/-!
# Strings of TOML documents

The four ways to write a string: between double or single quotes, on one line or on several. Between
double quotes a backslash starts an escape, between single quotes every character stands for itself.
-/

namespace Grove.Toml.Reader
set_option autoImplicit false

def isHexDigit (c : Char) : Bool :=
  c.isDigit || ('a' ≤ c && c ≤ 'f') || ('A' ≤ c && c ≤ 'F')

def digitValue (c : Char) : Nat :=
  if c.isDigit then c.toNat - '0'.toNat
  else if 'a' ≤ c then c.toNat - 'a'.toNat + 10
  else c.toNat - 'A'.toNat + 10

def numberOf (base : Nat) (digits : List Char) : Nat :=
  digits.foldl (fun n c => n * base + digitValue c) 0

def exactly (test : Char → Bool) : Nat → Reader (List Char)
  | 0 => return []
  | n + 1 => do
    let c ← satisfy test
    return c :: (← exactly test n)

/-- The character with the number written by exactly `n` hexadecimal digits. -/
def hexEscape (n : Nat) : Reader Char := do
  let code := numberOf 16 (← exactly isHexDigit n)
  if code.isValidChar then return Char.ofNat code else failure

/-- The character that an escape stands for; the backslash has been read. -/
def escapedChar : Reader Char := do
  match ← satisfy fun _ => true with
  | 'b' => return '\x08'
  | 't' => return '\t'
  | 'n' => return '\n'
  | 'f' => return '\x0c'
  | 'r' => return '\r'
  | '"' => return '"'
  | '\\' => return '\\'
  | 'u' => hexEscape 4
  | 'U' => hexEscape 8
  | _ => failure

def isLiteralChar (c : Char) : Bool :=
  c == '\t' || (' ' ≤ c && c ≤ '~' && c != '\'') || '\u0080' ≤ c

def isBasicChar (c : Char) : Bool :=
  c == '\t' || (' ' ≤ c && c ≤ '~' && c != '"' && c != '\\') || '\u0080' ≤ c

def basicString : Reader String := do
  char '"'
  let parts ← many do
    match ← peek? with
    | some '"' => return none
    | some '\\' => do
      char '\\'
      return some [← escapedChar]
    | _ => some <$> takeWhile1 isBasicChar
  char '"'
  return String.ofList parts.flatten

def literalString : Reader String := do
  char '\''
  let text ← takeWhile isLiteralChar
  char '\''
  return String.ofList text

/-- The end of a line inside a string, which always counts as a line feed. -/
def stringNewline : Reader (List Char) := do
  newline
  return ['\n']

/-- A backslash that joins lines: it takes all blanks and line ends after it away, and at least one
line end. -/
def lineJoin : Reader (List Char) := do
  char '\\'
  blanks
  newline
  discard (many do
    match ← peek? with
    | some ' ' | some '\t' => some <$> blanks
    | some '\n' | some '\r' => option newline
    | _ => return none)
  return []

/-- The quotes at a place in a string on several lines: up to two belong to the text, three end it,
and up to two may stand right before the three that end it. Gives nothing at the end of the text. -/
def innerQuotes (quote : Char) : Reader (Option (List Char)) := do
  let s ← get
  let run := (s.rest.takeWhile (· == quote)).length
  if run < 3 then some <$> exactly (· == quote) run
  else return none

/-- The end of a string on several lines, with the quotes of the text right before it. -/
def closingQuotes (quote : Char) : Reader (List Char) := do
  let quotes ← takeWhile (· == quote)
  if 3 ≤ quotes.length ∧ quotes.length ≤ 5 then return quotes.drop 3 else failure

/-- A string between three quotes each; `part` reads what is not a quote. -/
def multilineString (quote : Char) (part : Reader (List Char)) : Reader String := do
  discard (exactly (· == quote) 3)
  discard (option newline)
  let parts ← many do
    if (← peek?) == some quote then innerQuotes quote else some <$> part
  return String.ofList (parts.flatten ++ (← closingQuotes quote))

def basicPart : Reader (List Char) := do
  match ← peek? with
  | some '\\' => lineJoin <|> (do
      char '\\'
      return [← escapedChar])
  | some '\n' | some '\r' => stringNewline
  | _ => takeWhile1 isBasicChar

def literalPart : Reader (List Char) := do
  match ← peek? with
  | some '\n' | some '\r' => stringNewline
  | _ => takeWhile1 isLiteralChar

def stringValue : Reader String := do
  if ← looksAt "\"\"\"" then multilineString '"' basicPart
  else if ← looksAt "'''" then multilineString '\'' literalPart
  else if (← peek?) == some '"' then basicString
  else literalString

end Grove.Toml.Reader
