import JsonbAlgebra.SqlType

/-!
# The operator catalog

The closed set of operators that expressions are built from.  The contract of
an operator says how many operands it takes, which tags each slot accepts and
which tag the result has; it knows nothing about SQL text.
-/

namespace JsonbAlgebra

inductive Operator where
  | get
  | getText
  | contains
  | containsKey
  | concat
  | size
  | keys
  | elements
  | typeOf
  | buildObject
  | set
  | deleteKey
  | deleteIndex
  | deletePath
  | castText
  | castInteger
  | castBigint
  | castNumeric
  | castBoolean
  | eq
  | ne
  | and
  | or
  | not
  | isNull
  | isNotNull
  | inList
  | coalesce
  | caseWhen
  deriving DecidableEq, Repr

/-- An operand slot; one that names no tags accepts all of them. -/
structure Slot where
  name : String
  accepted : List Tag
  deriving DecidableEq, Repr

inductive ResultRule where
  | fixed (tag : Tag)
  | sameAsSubject
  | sameAsOperand (index : Nat)
  deriving DecidableEq, Repr

structure Contract where
  name : String
  description : String
  slots : List Slot
  result : ResultRule
  least : Nat
  /-- The greatest number of operands, if there is one. -/
  most : Option Nat
  deriving DecidableEq, Repr

namespace Slot

def accepts (slot : Slot) (tag : Tag) : Bool :=
  slot.accepted.isEmpty || slot.accepted.any tag.fits

/-- The accepted tags, as a list of alternatives. -/
def expectation (slot : Slot) : String :=
  if slot.accepted.isEmpty then "any"
  else " or ".intercalate (slot.accepted.map Tag.name)

def any (name : String) : Slot :=
  ⟨name, []⟩

def json (name : String) : Slot :=
  ⟨name, [.json]⟩

def text (name : String) : Slot :=
  ⟨name, [.text]⟩

def condition : Slot :=
  ⟨"condition", [.boolean]⟩

def key : Slot :=
  ⟨"key", [.text, .integer, .textArray]⟩

def path : Slot :=
  ⟨"path", [.textArray]⟩

def collection (name : String) : Slot :=
  ⟨name, [.json, .array]⟩

end Slot

namespace Contract

def exact (name description : String) (slots : List Slot) (result : Tag) : Contract :=
  ⟨name, description, slots, .fixed result, slots.length, some slots.length⟩

def isVariadic (contract : Contract) : Bool :=
  contract.most.isNone

/-- The slot of the operand at an index.  Operands beyond the last slot start
over with the first one if their number is not limited. -/
def slotAt (contract : Contract) (index : Nat) : Option Slot :=
  if index < contract.slots.length then contract.slots[index]?
  else if contract.isVariadic then contract.slots[index % contract.slots.length]?
  else none

def admits (contract : Contract) (count : Nat) : Bool :=
  contract.least ≤ count && contract.most.all fun most => count ≤ most

/-- The admitted numbers of operands, in words. -/
def arity (contract : Contract) : String :=
  match contract.most with
  | some most =>
    if most = contract.least then toString most
    else toString contract.least ++ " to " ++ toString most
  | none => "at least " ++ toString contract.least

/-- The tag of the result over operands of some tags; an operand that is
missing counts as null. -/
def resultTag (contract : Contract) (operands : List Tag) : Tag :=
  match contract.result with
  | .fixed tag => tag
  | .sameAsSubject => operands[0]?.getD .null
  | .sameAsOperand index => operands[index]?.getD .null

end Contract

namespace Operator

def all : List Operator :=
  [.get, .getText, .contains, .containsKey, .concat, .size, .keys, .elements, .typeOf,
    .buildObject, .set, .deleteKey, .deleteIndex, .deletePath, .castText, .castInteger,
    .castBigint, .castNumeric, .castBoolean, .eq, .ne, .and, .or, .not, .isNull,
    .isNotNull, .inList, .coalesce, .caseWhen]

def contract : Operator → Contract
  | .get =>
    .exact "GET" "Value at a key, index or path" [.json "subject", .key] .json
  | .getText =>
    .exact "GET_TEXT" "Value at a key, index or path, as text"
      [.json "subject", .key] .text
  | .contains =>
    .exact "CONTAINS" "Structural containment" [.json "subject", .json "other"] .boolean
  | .containsKey =>
    .exact "CONTAINS_KEY" "Top-level key or string element exists"
      [.json "subject", .text "key"] .boolean
  | .concat =>
    ⟨"CONCAT", "Concatenate arrays or merge objects",
      [.collection "subject", .collection "other"], .sameAsSubject, 2, some 2⟩
  | .size => .exact "SIZE" "Length of a JSON array" [.json "subject"] .integer
  | .keys => .exact "KEYS" "Top-level keys of a JSON object" [.json "subject"] .text
  | .elements => .exact "ELEMENTS" "Elements of a JSON array" [.json "subject"] .json
  | .typeOf => .exact "TYPEOF" "JSON type name of a value" [.json "subject"] .text
  | .buildObject =>
    ⟨"BUILD_OBJECT", "Build a JSON object from key/value pairs",
      [.text "key", .any "value"], .fixed .json, 2, none⟩
  | .set =>
    .exact "SET" "Replace the value at a path"
      [.json "subject", .path, .json "value"] .json
  | .deleteKey =>
    .exact "DELETE_KEY" "Remove a key or matching string elements"
      [.json "subject", .text "key"] .json
  | .deleteIndex =>
    .exact "DELETE_INDEX" "Remove an array element by index"
      [.json "subject", ⟨"index", [.integer]⟩] .json
  | .deletePath =>
    .exact "DELETE_PATH" "Remove the value at a path" [.json "subject", .path] .json
  | .castText => .exact "CAST_TEXT" "Cast to text" [.any "value"] .text
  | .castInteger => .exact "CAST_INTEGER" "Cast to integer" [.any "value"] .integer
  | .castBigint => .exact "CAST_BIGINT" "Cast to bigint" [.any "value"] .integer
  | .castNumeric => .exact "CAST_NUMERIC" "Cast to numeric" [.any "value"] .number
  | .castBoolean => .exact "CAST_BOOLEAN" "Cast to boolean" [.any "value"] .boolean
  | .eq => .exact "EQ" "Equality" [.any "left", .any "right"] .boolean
  | .ne => .exact "NE" "Inequality" [.any "left", .any "right"] .boolean
  | .and => ⟨"AND", "Conjunction", [.condition], .fixed .boolean, 2, none⟩
  | .or => ⟨"OR", "Disjunction", [.condition], .fixed .boolean, 2, none⟩
  | .not => .exact "NOT" "Negation" [.condition] .boolean
  | .isNull => .exact "IS_NULL" "SQL null check" [.any "value"] .boolean
  | .isNotNull => .exact "IS_NOT_NULL" "SQL not-null check" [.any "value"] .boolean
  | .inList =>
    .exact "IN" "Membership in a list of values"
      [.any "value", ⟨"values", [.valueList]⟩] .boolean
  | .coalesce =>
    ⟨"COALESCE", "First non-null value", [.any "values"], .sameAsSubject, 1, none⟩
  | .caseWhen =>
    ⟨"CASE_WHEN", "Conditional value; only the chosen branch is evaluated",
      [.condition, .any "then", .any "otherwise"], .sameAsOperand 1, 3, some 3⟩

def name (operator : Operator) : String :=
  operator.contract.name

/-- The operator with a name, in any case of its letters. -/
def named? (name : String) : Option Operator :=
  all.find? fun operator => operator.name.toLower == name.toLower

theorem mem_all (operator : Operator) : operator ∈ all := by
  cases operator <;> decide

end Operator

end JsonbAlgebra
