import Grove.Notice
import Grove.Text.Terminal

/-!
# Notices in a log

A log holds a record of each notice: a stamp with the time, the level, and the wording made fit for
a terminal. Since the wording holds texts of nodes, a record can go over several lines. The lines
are what remains when the stamps are left out, so they say the same at any time.
-/

namespace Grove.Notice
set_option autoImplicit false

def level : String := "WARN"

/-- The record of a notice, without its stamp. -/
def record (n : Notice) : String := level ++ " " ++ Text.harmless n.text

def withoutReturn (line : String) : String :=
  match line.toList.reverse with
  | '\r' :: rest => String.ofList rest.reverse
  | _ => line

/-- The form of a stamp, in which a zero stands for any digit. -/
def stampForm : List Char := "0000-00-00T00:00:00.000000Z  ".toList

/-- Whether a text begins with a stamp, followed by the level. -/
def startsWithStamp (cs : List Char) : Bool :=
  cs.length ≥ stampForm.length &&
    (List.zip stampForm cs).all (fun (f, c) => if f == '0' then c.isDigit else c == f) &&
    (level ++ " ").toList.isPrefixOf (cs.drop stampForm.length)

/-- A line without the stamp at its front. A text inside a record can bring in a line that looks
stamped; then that is left out too, since nothing sets it apart. -/
def withoutStamp (line : String) : String :=
  if startsWithStamp line.toList then String.ofList (line.toList.drop stampForm.length) else line

def lines (n : Notice) : List String :=
  (n.record.splitOn "\n").map fun line => withoutStamp (withoutReturn line)

end Grove.Notice
