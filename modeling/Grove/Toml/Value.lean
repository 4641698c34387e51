import Grove.Decimal.Shortest
import Grove.Toml.Datetime

/-!
# Values of TOML documents

What a document says, with the place where it says so. Tables keep their entries in the order in
which they came up, and remember how they came about, because that decides whether they may be
extended.
-/

namespace Grove.Toml
set_option autoImplicit false

/-- A range of byte positions of a document; `stop` is the first position after it. -/
structure Span where
  start : Nat
  stop : Nat
  deriving DecidableEq, Repr, Inhabited

inductive FloatValue where
  | nan
  | infinity (negative : Bool)
  | finite (negative : Bool) (magnitude : Decimal.Binary)
  deriving DecidableEq, Repr

/-- The shortest text that leads back to a number, without exponent. -/
def FloatValue.text : FloatValue → String
  | .nan => "NaN"
  | .infinity negative => if negative then "-inf" else "inf"
  | .finite negative magnitude => (if negative then "-" else "") ++ magnitude.text

inductive Scalar where
  | string (s : String)
  | integer (i : Int)
  | float (x : FloatValue)
  | boolean (b : Bool)
  | datetime (d : Datetime)
  deriving DecidableEq, Repr

def Scalar.typeName : Scalar → String
  | .string _ => "string"
  | .integer _ => "integer"
  | .float _ => "float"
  | .boolean _ => "boolean"
  | .datetime _ => "datetime"

structure Key where
  name : String
  span : Span
  deriving DecidableEq, Repr, Inhabited

structure TableOrigin where
  /-- only named on the way to another table -/
  implicit : Bool := false
  /-- named by the front part of a dotted key -/
  dotted : Bool := false
  /-- written between braces -/
  inline : Bool := false
  deriving DecidableEq, Repr, Inhabited

mutual

/-- What stands under a key or in an array. -/
inductive Item where
  | scalar (value : Scalar) (span : Span)
  | array (items : List Item) (span : Span)
  | table (table : Table)
  /-- tables that share one header between double brackets -/
  | tables (tables : List Table) (span : Option Span)

/-- Entries in the order in which they came up. -/
inductive Table where
  | mk (origin : TableOrigin) (span : Option Span) (entries : List (Key × Item))

end

instance : Inhabited Table := ⟨.mk {} none []⟩

namespace Table

def origin : Table → TableOrigin
  | mk origin _ _ => origin

def span? : Table → Option Span
  | mk _ span _ => span

def entries : Table → List (Key × Item)
  | mk _ _ entries => entries

def withOrigin (origin : TableOrigin) : Table → Table
  | mk _ span entries => mk origin span entries

def withSpan (span : Option Span) : Table → Table
  | mk origin _ entries => mk origin span entries

def withEntries (entries : List (Key × Item)) : Table → Table
  | mk origin span _ => mk origin span entries

def find? (t : Table) (name : String) : Option Item :=
  (t.entries.find? fun e => e.1.name == name).map Prod.snd

def push (t : Table) (key : Key) (item : Item) : Table := t.withEntries (t.entries ++ [(key, item)])

def replace (t : Table) (name : String) (item : Item) : Table :=
  t.withEntries (t.entries.map fun e => if e.1.name == name then (e.1, item) else e)

def remove (t : Table) (name : String) : Table :=
  t.withEntries (t.entries.filter fun e => e.1.name != name)

end Table

/-- The place of an item, if it has one of its own. -/
def Item.span? : Item → Option Span
  | .scalar _ span => some span
  | .array _ span => some span
  | .table t => t.span?
  | .tables _ span => span

end Grove.Toml
