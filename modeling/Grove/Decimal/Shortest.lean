/-!
# Shortest decimals

Binary fractions with 53 significant bits, the one nearest to a given decimal, and the decimal with
the fewest digits that leads back to the same binary fraction. All in exact arithmetic on natural
numbers.
-/

namespace Grove.Decimal
set_option autoImplicit false

/-- The number `mantissa * 2 ^ exponent`. -/
structure Binary where
  mantissa : Nat
  exponent : Int
  deriving DecidableEq, Repr

/-- The number `digits * 10 ^ exponent`. -/
structure Numeral where
  digits : Nat
  exponent : Int
  deriving DecidableEq, Repr

/-- The least mantissa that uses all 53 bits. -/
def leastMantissa : Nat := 4503599627370496

/-- A quotient rounded to the nearest number, a tie to the even one. -/
def roundQuotient (n d : Nat) : Nat :=
  let q := n / d
  let r := n % d
  if 2 * r < d then q else if 2 * r = d ∧ q % 2 = 0 then q else q + 1

/-- A fraction scaled by a power of `base`: numerator and denominator. -/
def scale (base : Nat) (n d : Nat) (e : Int) : Nat × Nat :=
  if 0 ≤ e then (n * base.pow e.toNat, d) else (n, d * base.pow (-e).toNat)

/-- The exponent of the highest power of two that a positive fraction reaches. -/
def binaryOrder (n d : Nat) : Int :=
  let guess : Int := (n.log2 : Int) - (d.log2 : Int)
  let (a, b) := scale 2 n d (-guess)
  if a < b then guess - 1 else guess

/-- The nearest binary fraction to `n / d`; none if it lies beyond the largest one. -/
def Binary.nearest? (n d : Nat) : Option Binary :=
  if n = 0 then some ⟨0, 0⟩
  else
    let q := max (binaryOrder n d - 52) (-1074)
    let (a, b) := scale 2 n d (-q)
    let m := roundQuotient a b
    let (m, q) := if m = 2 * leastMantissa then (leastMantissa, q + 1) else (m, q)
    if q > 971 then none else some ⟨m, q⟩

/-- The nearest binary fraction to a decimal; none if it lies beyond the largest one. -/
def Numeral.toBinary? (x : Numeral) : Option Binary :=
  let order : Int := (Nat.toDigits 10 x.digits).length + x.exponent
  if x.digits = 0 ∨ order < -400 then some ⟨0, 0⟩
  else if order > 400 then none
  else
    let (n, d) := scale 10 x.digits 1 x.exponent
    Binary.nearest? n d

/-- The exponent of the highest power of ten that a positive fraction reaches. -/
def decimalOrder (n d : Nat) : Int :=
  if d ≤ n then ((Nat.toDigits 10 (n / d)).length : Int) - 1
  else
    let guess : Int := ((Nat.toDigits 10 n).length : Int) - (Nat.toDigits 10 d).length
    let (a, b) := scale 10 n d (-guess)
    if a < b then guess - 1 else guess

/-- The decimal of at most `k` digits nearest to a positive binary fraction, the larger of two that
are equally near, if it lies among the numbers that round to that fraction. The fraction is counted
in quarters of its last bit, so that the ends of that interval are whole numbers too. -/
def withDigits? (x : Binary) (k : Nat) : Option Numeral :=
  let (n, d) := scale 2 1 4 x.exponent
  let p : Int := decimalOrder (4 * x.mantissa * n) d - k + 1
  let (quarter, unit) := scale 10 n d (-p)
  let value := 4 * x.mantissa * quarter
  let lower := if x.mantissa = leastMantissa ∧ x.exponent > -1074 then quarter else 2 * quarter
  let upper := 2 * quarter
  let inside (c : Nat) : Bool :=
    if x.mantissa % 2 = 0 then value ≤ c * unit + lower ∧ c * unit ≤ value + upper
    else value < c * unit + lower ∧ c * unit < value + upper
  let floor := value / unit
  let (near, far) :=
    if 2 * (value % unit) < unit then (floor, floor + 1) else (floor + 1, floor)
  if near ≠ 0 ∧ inside near then some ⟨near, p⟩
  else if far ≠ 0 ∧ inside far then some ⟨far, p⟩
  else none

/-- The decimal with the fewest digits that rounds to a positive binary fraction. -/
def shortest (x : Binary) : Numeral :=
  ((List.range 17).findSome? fun k => withDigits? x (k + 1)).getD ⟨x.mantissa, 0⟩

/-- Digits behind a point: no zeros at the end, but at least one digit. -/
def fractionText (digits : List Char) : String :=
  match digits.reverse.dropWhile (· == '0') with
  | [] => "0"
  | rest => String.ofList rest.reverse

/-- A decimal without exponent, with at least one digit on either side of the point. -/
def Numeral.positional (x : Numeral) : String :=
  let digits := toString x.digits
  if 0 ≤ x.exponent then digits ++ "".pushn '0' x.exponent.toNat ++ ".0"
  else
    let places := (-x.exponent).toNat
    let padded := ("".pushn '0' (places + 1 - digits.length) ++ digits).toList
    String.ofList (padded.take (padded.length - places)) ++ "." ++
      fractionText (padded.drop (padded.length - places))

/-- The shortest text without exponent that leads back to a binary fraction. -/
def Binary.text (x : Binary) : String :=
  if x.mantissa = 0 then "0.0" else (shortest x).positional

end Grove.Decimal
