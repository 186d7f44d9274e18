import JsonbAlgebra.SqlType

/-!
# Constants

A constant is a literal, possibly with a declared SQL type.  A collection
says what it is for: an array is one value and takes one placeholder, a value
list is a set of alternatives and takes one placeholder for each.
-/

namespace JsonbAlgebra

inductive Literal where
  /-- SQL NULL. -/
  | null
  | scalar (value : Document)
  | array (items : List Document)
  | list (values : List Document)

structure Constant where
  literal : Literal
  declared : Option SqlType

namespace Literal

def same : Literal → Literal → Bool
  | .null, .null => true
  | .scalar a, .scalar b => a.same b
  | .array a, .array b => Document.sameItems a b
  | .list a, .list b => Document.sameItems a b
  | _, _ => false

end Literal

namespace Constant

def untyped (value : Document) : Constant :=
  ⟨.scalar value, none⟩

def typed (value : Document) (type : SqlType) : Constant :=
  ⟨.scalar value, some type⟩

def jsonb (value : Document) : Constant :=
  typed value .jsonb

def text (value : String) : Constant :=
  typed (.string value) .text

def integer (value : Int64) : Constant :=
  typed (.ofWord value) .bigint

/-- A constant of the type that indexes of documents have. -/
def index (value : Int32) : Constant :=
  typed (.ofWord value.toInt64) .integer

def null : Constant :=
  ⟨.null, none⟩

def typedNull (type : SqlType) : Constant :=
  ⟨.null, some type⟩

/-- The document null, which is not SQL NULL. -/
def jsonNull : Constant :=
  jsonb .null

def array (items : List Document) : Constant :=
  ⟨.array items, none⟩

def typedArray (items : List Document) (type : SqlType) : Constant :=
  ⟨.array items, some type⟩

/-- Texts as one array of texts, the form that paths are bound in. -/
def textArray (texts : List String) : Constant :=
  typedArray (texts.map .string) (.array .text)

def valueList (values : List Document) : Constant :=
  ⟨.list values, none⟩

def withType (constant : Constant) (type : SqlType) : Constant :=
  { constant with declared := some type }

def isValueList (constant : Constant) : Bool :=
  match constant.literal with
  | .list _ => true
  | _ => false

def slots (constant : Constant) : Nat :=
  match constant.literal with
  | .list values => values.length
  | _ => 1

def scalarTag : Document → Tag
  | .null => .null
  | .boolean _ => .boolean
  | .number value => if value.isReal then .number else .integer
  | .string _ => .text
  | .array _ | .object _ => .json

/-- The tag of the declared type, or else of the value itself; a value list
has its own tag whatever its declared type. -/
def tag (constant : Constant) : Tag :=
  match constant.literal, constant.declared with
  | .list _, _ => .valueList
  | _, some type => type.tag
  | .null, none => .null
  | .scalar value, none => scalarTag value
  | .array items, none =>
    if !items.isEmpty && items.all fun item => item.text?.isSome then .textArray
    else .array

def same (a b : Constant) : Bool :=
  a.literal.same b.literal && a.declared == b.declared

theorem tag_of_declared {constant : Constant} {type : SqlType}
    (hdeclared : constant.declared = some type) (hlist : constant.isValueList = false) :
    constant.tag = type.tag := by
  obtain ⟨literal, declared⟩ := constant
  subst hdeclared
  cases literal with
  | list values => cases hlist
  | _ => rfl

theorem slots_eq_one {constant : Constant} (hlist : constant.isValueList = false) :
    constant.slots = 1 := by
  obtain ⟨literal, declared⟩ := constant
  cases literal with
  | list values => cases hlist
  | _ => rfl

theorem tag_eq_valueList {constant : Constant} :
    constant.tag = .valueList ↔ constant.isValueList = true := by
  obtain ⟨literal, declared⟩ := constant
  have htype : ∀ type : SqlType, (type.tag = .valueList) = False := fun type =>
    eq_false type.tag_ne_valueList
  cases literal with
  | list values => simp [tag, isValueList]
  | null => cases declared <;> simp [tag, isValueList, htype]
  | scalar value =>
      cases declared with
      | some type => simp [tag, isValueList, htype]
      | none =>
          cases value with
          | number value => cases hreal : value.isReal <;> simp [tag, isValueList, scalarTag, hreal]
          | _ => simp [tag, isValueList, scalarTag]
  | array items =>
      cases declared with
      | some type => simp [tag, isValueList, htype]
      | none =>
          simp only [tag, isValueList, Bool.false_eq_true, iff_false]
          split <;> exact nofun

end Constant

end JsonbAlgebra
