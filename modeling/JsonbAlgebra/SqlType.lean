import JsonbAlgebra.Document.Basic

/-!
# Tags and SQL types

A tag is the coarse class of a value: what an operator asks of its operands
and what an expression is known to produce.  The tag `null` belongs to an
untyped null, which fits wherever a single value is expected.

A SQL type is what columns are declared with and parameters are bound as.  It
has a SQL name, a tag, and a written form as a document.
-/

namespace JsonbAlgebra

inductive Tag where
  | null
  | json
  | text
  | integer
  | number
  | boolean
  | textArray
  | array
  | valueList
  deriving DecidableEq, Repr

namespace Tag

def all : List Tag :=
  [.null, .json, .text, .integer, .number, .boolean, .textArray, .array, .valueList]

def name : Tag → String
  | .null => "null"
  | .json => "json"
  | .text => "text"
  | .integer => "integer"
  | .number => "number"
  | .boolean => "boolean"
  | .textArray => "text array"
  | .array => "array"
  | .valueList => "value list"

def named? (name : String) : Option Tag :=
  all.find? fun tag => tag.name == name

/-- Whether a value of the first tag may stand where the second is expected:
null for anything but a value list, an integer for a number, and a text array
for an array. -/
def fits : Tag → Tag → Bool
  | .null, expected => expected != .valueList
  | .integer, .number => true
  | .textArray, .array => true
  | tag, expected => tag == expected

def isArray : Tag → Bool
  | .textArray | .array => true
  | _ => false

end Tag

/-! ## SQL types -/

inductive SqlType where
  | jsonb
  | text
  | integer
  | bigint
  | double
  | numeric
  | boolean
  | array (element : SqlType)
  deriving DecidableEq, Repr

namespace SqlType

def name : SqlType → String
  | .jsonb => "jsonb"
  | .text => "text"
  | .integer => "integer"
  | .bigint => "bigint"
  | .double => "double precision"
  | .numeric => "numeric"
  | .boolean => "boolean"
  | .array element => element.name ++ "[]"

def tag : SqlType → Tag
  | .jsonb => .json
  | .text => .text
  | .integer | .bigint => .integer
  | .double | .numeric => .number
  | .boolean => .boolean
  | .array .text => .textArray
  | .array _ => .array

def element? : SqlType → Option SqlType
  | .array element => some element
  | _ => none

def isArray (type : SqlType) : Bool :=
  type.element?.isSome

theorem tag_ne_valueList (type : SqlType) : type.tag ≠ .valueList := by
  cases type with
  | array element => cases element <;> exact nofun
  | _ => exact nofun

/-- The types that are no arrays, each with its name in a document. -/
def scalars : List (String × SqlType) :=
  [("jsonb", .jsonb), ("text", .text), ("integer", .integer), ("big_int", .bigint),
    ("double", .double), ("numeric", .numeric), ("boolean", .boolean)]

/-- The written form of a type: a name, or the form of the element under the
key `array`. -/
def toDocument : SqlType → Document
  | .jsonb => .string "jsonb"
  | .text => .string "text"
  | .integer => .string "integer"
  | .bigint => .string "big_int"
  | .double => .string "double"
  | .numeric => .string "numeric"
  | .boolean => .string "boolean"
  | .array element => .object [("array", element.toDocument)]

/-- The type a document stands for.  A name may also stand as the only key of
an object, above null. -/
def ofDocument? : Document → Option SqlType
  | .string name => Keyed.find? scalars name
  | .object [("array", element)] => (ofDocument? element).map .array
  | .object [(name, .null)] => Keyed.find? scalars name
  | _ => none

theorem ofDocument?_toDocument (type : SqlType) :
    ofDocument? type.toDocument = some type := by
  induction type with
  | array element ih => simp [toDocument, ofDocument?, ih]
  | _ => rfl

end SqlType

end JsonbAlgebra
