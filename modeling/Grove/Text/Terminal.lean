import Grove.Text.Quoted

/-!
# Text for a terminal

A text that is shown on a terminal must not steer it. So the control characters that can start a
command to a terminal are written out; tabs and line ends stay.
-/

namespace Grove.Text
set_option autoImplicit false

/-- The control characters below 128 that a terminal may act on: bell, backspace, form feed, escape
and delete. -/
def steeringChars : List Char := ['\x07', '\x08', '\x0c', '\x1b', '\x7f']

/-- A character as it is shown: a control character is replaced by its number. -/
def harmlessChar (c : Char) : List Char :=
  if steeringChars.contains c then
    ['\\', 'x', Nat.digitChar (c.toNat / 16), Nat.digitChar (c.toNat % 16)]
  else if 0x80 ≤ c.toNat && c.toNat ≤ 0x9f then
    ("\\u\x7b" ++ hexDigits c.toNat ++ "\x7d").toList
  else [c]

/-- A text with its control characters written out. -/
def harmless (s : String) : String := String.ofList (s.toList.flatMap harmlessChar)

end Grove.Text
