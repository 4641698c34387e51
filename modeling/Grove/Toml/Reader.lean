/-!
# Readers

A reader takes characters off the front of a text and keeps count of the bytes that it has passed.
It either gives a result or refuses the text; a refusal carries no reason.
-/

namespace Grove.Toml
set_option autoImplicit false

/-- The characters still to be read, and the number of bytes read so far. -/
structure Source where
  rest : List Char
  position : Nat := 0

abbrev Reader : Type → Type := StateT Source Option

namespace Reader
variable {α : Type}

def position : Reader Nat := do return (← get).position

def peek? : Reader (Option Char) := do return (← get).rest.head?

def looksAt (text : String) : Reader Bool := do
  return text.toList.isPrefixOf (← get).rest

def atEnd : Reader Bool := do return (← get).rest.isEmpty

def satisfy (test : Char → Bool) : Reader Char := fun s =>
  match s.rest with
  | [] => none
  | c :: rest => if test c then some (c, { rest, position := s.position + c.utf8Size }) else none

def char (c : Char) : Reader Unit := discard (satisfy (· == c))

def word (text : String) : Reader Unit := text.toList.forM char

def takeWhile (test : Char → Bool) : Reader (List Char) := do
  let s ← get
  let taken := s.rest.takeWhile test
  set ({ rest := s.rest.dropWhile test,
         position := taken.foldl (fun n c => n + c.utf8Size) s.position } : Source)
  return taken

def takeWhile1 (test : Char → Bool) : Reader (List Char) := do
  let c ← satisfy test
  return c :: (← takeWhile test)

def option (p : Reader α) : Reader (Option α) := (some <$> p) <|> pure none

def manyFrom (p : Reader (Option α)) : Nat → Reader (List α)
  | 0 => failure
  | n + 1 => do
    match ← p with
    | none => return []
    | some a => return a :: (← manyFrom p n)

/-- Repeats a reader until it gives nothing. Every round before that has to read something, so there
are no more rounds than characters. -/
def many (p : Reader (Option α)) : Reader (List α) := do
  manyFrom p ((← get).rest.length + 1)

def blanks : Reader Unit := discard (takeWhile fun c => c == ' ' || c == '\t')

def newline : Reader Unit := word "\n" <|> word "\r\n"

def lineEnd : Reader Unit := do
  if !(← atEnd) then newline

def isCommentChar (c : Char) : Bool := c == '\t' || (' ' ≤ c && c ≤ '~') || '\u0080' ≤ c

def comment : Reader Unit := do
  char '#'
  discard (takeWhile isCommentChar)

/-- What may follow on a line behind its contents. -/
def lineTrailing : Reader Unit := do
  blanks
  if (← peek?) == some '#' then comment
  lineEnd

def gap : Reader Unit := do
  discard (many do
    match ← peek? with
    | some ' ' | some '\t' => some <$> blanks
    | some '\n' | some '\r' => some <$> newline
    | some '#' => some <$> comment
    | _ => return none)

end Reader
end Grove.Toml
