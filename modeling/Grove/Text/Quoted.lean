import Grove.Text.Unprintable

/-!
# Quoted text

A text between double quotes, in which quotes, backslashes and characters without a mark of their
own are written as escapes. A single quote is not escaped.
-/

namespace Grove.Text
set_option autoImplicit false

def hexDigits (n : Nat) : String := String.ofList (Nat.toDigits 16 n)

def escape (c : Char) : String :=
  if c == '"' then "\\\""
  else if c == '\\' then "\\\\"
  else if c == '\n' then "\\n"
  else if c == '\r' then "\\r"
  else if c == '\t' then "\\t"
  else if c == '\x00' then "\\0"
  else if isUnprintable c then "\\u\x7b" ++ hexDigits c.toNat ++ "\x7d"
  else c.toString

def quoted (s : String) : String := "\"" ++ String.join (s.toList.map escape) ++ "\""

end Grove.Text
