import JsonbAlgebra.Document.Printer

/-!
# Data

A datum is a SQL value: what a column of a row holds and what an expression
evaluates to.  SQL NULL is a datum of its own and differs from the document
null.
-/

namespace JsonbAlgebra

inductive Datum where
  | null
  | json (value : Document)
  | text (value : String)
  | integer (value : Int64)
  | number (value : Numeric)
  | boolean (value : Bool)
  | array (items : List Document)

/-- The data of one row, by column name; a column without a value is NULL. -/
abbrev Row :=
  String → Datum

namespace Datum

inductive Kind where
  | null
  | json
  | text
  | integer
  | number
  | boolean
  | array
  deriving DecidableEq, Repr

def kind : Datum → Kind
  | .null => .null
  | .json _ => .json
  | .text _ => .text
  | .integer _ => .integer
  | .number _ => .number
  | .boolean _ => .boolean
  | .array _ => .array

def Kind.name : Kind → String
  | .null => "null"
  | .json => "jsonb"
  | .text => "text"
  | .integer => "integer"
  | .number => "numeric"
  | .boolean => "boolean"
  | .array => "array"

def isNull : Datum → Bool
  | .null => true
  | _ => false

/-- The document of a datum; NULL and what no document number can hold become
the document null. -/
def toDocument : Datum → Document
  | .null => .null
  | .json value => value
  | .text value => .string value
  | .integer value => .ofWord value
  | .number (.finite value) => .number (.real value)
  | .number _ => .null
  | .boolean value => .boolean value
  | .array items => .array items

/-- A datum as text: texts bare, documents in their JSON text, and arrays in
braces. -/
def plainText : Datum → String
  | .null => "NULL"
  | .json value => value.text
  | .text value => value
  | .integer value => toString value.toInt
  | .number value => String.ofList value.write
  | .boolean true => "true"
  | .boolean false => "false"
  | .array items =>
    "\x7b" ++ ",".intercalate (items.map Document.plainText) ++ "\x7d"

end Datum

/-- The row with the given values and NULL elsewhere; of two values for one
column the later stays. -/
def Row.ofList (values : List (String × Datum)) : Row :=
  fun column => ((Keyed.ofList values).find? column).getD .null

end JsonbAlgebra
