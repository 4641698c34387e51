import Grove.Toml.Scalar

/-!
# Data of TOML documents

What a document says, without the places where it says so. A table whose first key is `dateKey`
stands for the date that is written under that key; the rest of such a table does not count.
-/

namespace Grove.Toml
set_option autoImplicit false

inductive Datum where
  | scalar (v : Scalar)
  | array (items : List Datum)
  | table (entries : List (String × Datum))

instance : Inhabited Datum := ⟨.table []⟩

/-- The first key of a table that stands for a date. -/
def dateKey : String := "$__toml_private_datetime"

def Datetime.ofText? (text : String) : Option Datetime :=
  match Reader.datetimeValue.run { rest := text.toList } with
  | some (d, state) => if state.rest.isEmpty then some d else none
  | none => none

/-- The date that is written under `dateKey`. -/
def Item.writtenDate? : Item → Option Datetime
  | .scalar (.string s) _ => Datetime.ofText? s
  | _ => none

namespace Datum

mutual

/-- The data of an item; none if a date in it is not written as one. -/
def ofItem? : Item → Option Datum
  | .scalar v _ => some (.scalar v)
  | .array items _ => array <$> ofItems? items
  | .table t => ofTable? t
  | .tables ts _ => array <$> ofTables? ts

def ofItems? : List Item → Option (List Datum)
  | [] => some []
  | item :: rest => do return (← ofItem? item) :: (← ofItems? rest)

def ofTable? : Table → Option Datum
  | .mk _ _ [] => some (.table [])
  | .mk _ _ ((key, item) :: rest) =>
    if key.name == dateKey then (fun d => scalar (.datetime d)) <$> item.writtenDate?
    else do return .table ((key.name, ← ofItem? item) :: (← ofEntries? rest))

def ofTables? : List Table → Option (List Datum)
  | [] => some []
  | t :: rest => do return (← ofTable? t) :: (← ofTables? rest)

def ofEntries? : List (Key × Item) → Option (List (String × Datum))
  | [] => some []
  | (key, item) :: rest => do return (key.name, ← ofItem? item) :: (← ofEntries? rest)

end

end Datum
end Grove.Toml
