/-!
# Dates and times

The dates and times of TOML documents: a date, a time of day, both, or both with an offset.
-/

namespace Grove.Toml
set_option autoImplicit false

structure Date where
  year : Nat
  month : Nat
  day : Nat
  deriving DecidableEq, Repr

structure TimeOfDay where
  hour : Nat
  minute : Nat
  second : Nat
  nanosecond : Nat
  deriving DecidableEq, Repr

inductive TimeOffset where
  | utc
  | minutes (n : Int)
  deriving DecidableEq, Repr

/-- A date, a time, or both, with or without an offset. -/
structure Datetime where
  date : Option Date := none
  time : Option TimeOfDay := none
  offset : Option TimeOffset := none
  deriving DecidableEq, Repr

def daysInMonth (year month : Nat) : Nat :=
  if month = 2 then
    if year % 4 = 0 ∧ (year % 100 ≠ 0 ∨ year % 400 = 0) then 29 else 28
  else if month = 4 ∨ month = 6 ∨ month = 9 ∨ month = 11 then 30
  else 31

def zeroPadded (width n : Nat) : String :=
  let digits := toString n
  "".pushn '0' (width - digits.length) ++ digits

def Date.text (d : Date) : String :=
  zeroPadded 4 d.year ++ "-" ++ zeroPadded 2 d.month ++ "-" ++ zeroPadded 2 d.day

/-- The digits after the point of a fraction of a second, without trailing zeros. -/
def fractionText (nanosecond : Nat) : String :=
  String.ofList ((zeroPadded 9 nanosecond).toList.reverse.dropWhile (· == '0')).reverse

def TimeOfDay.text (t : TimeOfDay) : String :=
  zeroPadded 2 t.hour ++ ":" ++ zeroPadded 2 t.minute ++ ":" ++ zeroPadded 2 t.second ++
    (if t.nanosecond = 0 then "" else "." ++ fractionText t.nanosecond)

def TimeOffset.text : TimeOffset → String
  | .utc => "Z"
  | .minutes n =>
    (if n < 0 then "-" else "+") ++ zeroPadded 2 (n.natAbs / 60) ++ ":" ++
      zeroPadded 2 (n.natAbs % 60)

def Datetime.text (d : Datetime) : String :=
  d.date.elim "" Date.text ++ (if d.date.isSome && d.time.isSome then "T" else "") ++
    d.time.elim "" TimeOfDay.text ++ d.offset.elim "" TimeOffset.text

end Grove.Toml
