import JsonbAlgebra.Document.Basic

/-!
# TOML values

The values that a TOML text assigns to keys, and their form as documents.  A
date or time is kept as its text.
-/

namespace JsonbAlgebra.Toml

inductive Value where
  | string (value : String)
  | integer (value : Int64)
  | float (value : Numeric)
  | boolean (value : Bool)
  | time (text : String)
  | array (items : List Value)
  | table (entries : List (String × Value))

/-- The key that a date or time is put under in a document. -/
def timeKey : String :=
  "$__toml_private_datetime"

namespace Value

mutual

/-- The document of a value.  A number that no document holds becomes null,
and a date or time an object with its text. -/
def toDocument : Value → Document
  | .string value => .string value
  | .integer value => .ofWord value
  | .float (.finite value) => .number (.real value)
  | .float _ => .null
  | .boolean value => .boolean value
  | .time text => .object [(timeKey, .string text)]
  | .array items => .array (itemDocuments items)
  | .table entries => .object (Keyed.ofList (entryDocuments entries))

def itemDocuments : List Value → List Document
  | [] => []
  | item :: items => toDocument item :: itemDocuments items

def entryDocuments : List (String × Value) → List (String × Document)
  | [] => []
  | (key, value) :: entries => (key, toDocument value) :: entryDocuments entries

end

end Value

/-! ## Trees of tables

While a TOML text is read, its tables form a tree in which every table knows
where it comes from.  A table that a header names is complete and cannot be
opened again; one that only stands above such a table can still get its own
header; one made by a dotted key can be extended by dotted keys alone.
-/

inductive Origin where
  | header
  | above
  | dotted
  deriving DecidableEq, Repr

inductive Tree where
  | value (value : Value)
  | table (origin : Origin) (entries : List (String × Tree))
  | tables (elements : List (List (String × Tree)))

abbrev Entries :=
  List (String × Tree)

/-- Changes the entries at the end of a path of keys.  Tables that are
missing on the way are made, with the given origin; an array of tables is
entered by its last element.  A dotted key does not enter what a header
named.  The change is told the origin of the table that it is made in. -/
def Entries.changeAt (origin : Origin) (change : Origin → Entries → Option Entries) :
    List String → Origin → Entries → Option Entries
  | [], here, entries => change here entries
  | key :: path, _, entries =>
    match Keyed.find? entries key with
    | none => do
      let inner ← changeAt origin change path origin []
      return Keyed.insert entries key (.table origin inner)
    | some (.value _) => none
    | some (.tables elements) => do
      let inner ← changeAt origin change path .header (elements.getLast?.getD [])
      return Keyed.insert entries key (.tables (elements.dropLast ++ [inner]))
    | some (.table found inner) =>
      if origin = .dotted ∧ found = .header then none
      else do
        let inner ← changeAt origin change path found inner
        return Keyed.insert entries key (.table found inner)

def Entries.add (key : String) (value : Value) (entries : Entries) : Option Entries :=
  match Keyed.find? entries key with
  | none => some (Keyed.insert entries key (.value value))
  | some _ => none

/-- Assigns a value to a key of some parts.  If there are parts before the
last, they must lead to a table of dotted keys. -/
def Entries.assign (path : List String) (key : String) (value : Value)
    (entries : Entries) : Option Entries :=
  changeAt .dotted
    (fun origin entries =>
      if path = [] ∨ origin = .dotted then add key value entries else none)
    path .header entries

def Entries.openTable (path : List String) (key : String) (entries : Entries) :
    Option Entries :=
  changeAt .above
    (fun _ entries =>
      match Keyed.find? entries key with
      | none => some (Keyed.insert entries key (.table .header []))
      | some (.table .above inner) => some (Keyed.insert entries key (.table .header inner))
      | some _ => none)
    path .header entries

/-- Opens a new element of an array of tables. -/
def Entries.openElement (path : List String) (key : String) (entries : Entries) :
    Option Entries :=
  changeAt .above
    (fun _ entries =>
      match Keyed.find? entries key with
      | none => some (Keyed.insert entries key (.tables [[]]))
      | some (.tables elements) =>
        some (Keyed.insert entries key (.tables (elements ++ [[]])))
      | some _ => none)
    path .header entries

mutual

def Tree.toValue : Tree → Value
  | .value value => value
  | .table _ entries => .table (Entries.toValues entries)
  | .tables elements => .array (elementValues elements)

def Entries.toValues : List (String × Tree) → List (String × Value)
  | [] => []
  | (key, tree) :: entries => (key, Tree.toValue tree) :: Entries.toValues entries

def elementValues : List (List (String × Tree)) → List Value
  | [] => []
  | element :: elements => .table (Entries.toValues element) :: elementValues elements

end

end JsonbAlgebra.Toml
