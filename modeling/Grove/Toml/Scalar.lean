import Grove.Toml.Text
import Grove.Toml.Value

/-!
# Scalars of TOML documents

Numbers, dates and times, truth values and strings as they are written.
-/

namespace Grove.Toml.Reader
set_option autoImplicit false

/-- Digits of a kind, between any two of which an underscore may stand; the underscores are left
out. -/
def digitGroup (test : Char → Bool) : Reader (List Char) := do
  let first ← satisfy test
  let rest ← many do
    match ← peek? with
    | some '_' => do
      char '_'
      some <$> satisfy test
    | some c => if test c then some <$> satisfy test else return none
    | none => return none
  return first :: rest

/-- Whether a minus stands here; a plus is passed over. -/
def sign : Reader Bool := do
  match ← peek? with
  | some '-' => do
    char '-'
    return true
  | some '+' => do
    char '+'
    return false
  | _ => return false

def decimalDigits : Reader (List Char) := do
  if (← peek?) == some '0' then
    char '0'
    return ['0']
  else
    digitGroup Char.isDigit

/-- A whole number in 64 bits. -/
def inRange (i : Int) : Reader Scalar :=
  if -9223372036854775808 ≤ i ∧ i ≤ 9223372036854775807 then return .integer i else failure

/-- A whole number, to base 16, 8 or 2 after a mark. -/
def integerValue : Reader Scalar := do
  if ← looksAt "0x" then
    word "0x"
    inRange (numberOf 16 (← digitGroup isHexDigit))
  else if ← looksAt "0o" then
    word "0o"
    inRange (numberOf 8 (← digitGroup fun c => '0' ≤ c && c ≤ '7'))
  else if ← looksAt "0b" then
    word "0b"
    inRange (numberOf 2 (← digitGroup fun c => c == '0' || c == '1'))
  else
    let negative ← sign
    let magnitude : Int := numberOf 10 (← decimalDigits)
    inRange (if negative then -magnitude else magnitude)

/-- The fraction and the exponent behind the whole part of a number; one of them has to be there. -/
def fractionAndExponent : Reader (List Char × Int) := do
  let fraction ← option (do
    char '.'
    digitGroup Char.isDigit)
  let exponent ← option (do
    discard (satisfy fun c => c == 'e' || c == 'E')
    let negative ← sign
    let magnitude : Int := numberOf 10 (← digitGroup Char.isDigit)
    return if negative then -magnitude else magnitude)
  if fraction.isNone && exponent.isNone then failure
  return (fraction.getD [], exponent.getD 0)

/-- A number with a fraction or an exponent. One that is too large is refused, one that is too small
below zero counts as infinite. -/
def finiteFloat : Reader FloatValue := do
  let negative ← sign
  let whole ← decimalDigits
  let (fraction, exponent) ← fractionAndExponent
  let decimal : Decimal.Numeral :=
    ⟨numberOf 10 (whole ++ fraction), exponent - (fraction.length : Int)⟩
  match decimal.toBinary? with
  | some magnitude => return .finite negative magnitude
  | none => if negative then return .infinity true else failure

def specialFloat : Reader FloatValue := do
  let negative ← sign
  (do
    word "inf"
    return .infinity negative) <|> (do
    word "nan"
    return .nan)

def floatValue : Reader Scalar := do return .float (← finiteFloat <|> specialFloat)

def fixedNumber (width low high : Nat) : Reader Nat := do
  let n := numberOf 10 (← exactly Char.isDigit width)
  if low ≤ n ∧ n ≤ high then return n else failure

def dateValue : Reader Date := do
  let year ← fixedNumber 4 0 9999
  char '-'
  let month ← fixedNumber 2 1 12
  char '-'
  let day ← fixedNumber 2 1 31
  if day ≤ daysInMonth year month then return { year, month, day } else failure

/-- A fraction of a second in nanoseconds; further digits are cut off. -/
def secondFraction : Reader Nat := do
  char '.'
  let digits := (← takeWhile1 Char.isDigit).take 9
  return numberOf 10 digits * Nat.pow 10 (9 - digits.length)

def clockTime : Reader TimeOfDay := do
  let hour ← fixedNumber 2 0 23
  char ':'
  let minute ← fixedNumber 2 0 59
  char ':'
  let second ← fixedNumber 2 0 60
  return { hour, minute, second, nanosecond := (← option secondFraction).getD 0 }

/-- Hours and minutes in minutes, less than a day. -/
def hoursAndMinutes : Reader Nat := do
  let hours ← fixedNumber 2 0 23
  char ':'
  return hours * 60 + (← fixedNumber 2 0 59)

def timeOffset : Reader TimeOffset := do
  match ← satisfy fun c => c == 'Z' || c == 'z' || c == '+' || c == '-' with
  | '+' => return .minutes (← hoursAndMinutes)
  | '-' => return .minutes (-(← hoursAndMinutes))
  | _ => return .utc

def datetimeValue : Reader Datetime :=
  (do
    let date ← dateValue
    let moment ← option (do
      discard (satisfy fun c => c == 'T' || c == 't' || c == ' ')
      return (← clockTime, ← option timeOffset))
    return { date := some date, time := moment.map Prod.fst, offset := moment.bind Prod.snd }) <|>
  (do return { time := some (← clockTime) })

def scalarValue : Reader Scalar := do
  match ← peek? with
  | some '"' | some '\'' => return .string (← stringValue)
  | some 't' => do
    word "true"
    return .boolean true
  | some 'f' => do
    word "false"
    return .boolean false
  | some 'i' | some 'n' => floatValue
  | some c =>
    if c == '+' || c == '-' || c.isDigit then
      (Scalar.datetime <$> datetimeValue) <|> floatValue <|> integerValue
    else failure
  | none => failure

end Grove.Toml.Reader
