import JsonbAlgebra.Keyed
import JsonbAlgebra.Numeric

/-!
# Documents

A document is what a `jsonb` value holds: null, a truth value, a number, a
text, a list of documents, or documents under text keys.  A number is either
a whole number that a signed or an unsigned 64-bit word holds, or a finite
binary64 number; the two kinds stay apart even where their values agree.

Traversals recurse on a document, on a list of documents and on a list of
entries together.
-/

namespace JsonbAlgebra

/-- Whether a signed or an unsigned 64-bit word holds the number. -/
def Number.IsWhole (value : Int) : Prop :=
  -0x8000000000000000 ≤ value ∧ value < 0x10000000000000000

instance (value : Int) : Decidable (Number.IsWhole value) :=
  inferInstanceAs (Decidable (_ ∧ _))

inductive Number where
  | whole (value : Int) (isWhole : Number.IsWhole value)
  | real (value : Binary64)
  deriving DecidableEq

inductive Document where
  | null
  | boolean (value : Bool)
  | number (value : Number)
  | string (value : String)
  | array (items : List Document)
  | object (fields : List (String × Document))

namespace Number

def isReal : Number → Bool
  | .real _ => true
  | .whole .. => false

/-- The number as a signed 64-bit word, if it is a whole number of that
range. -/
def word? : Number → Option Int64
  | .whole value _ => Text.word? value
  | .real _ => none

def toNumeric : Number → Numeric
  | .whole value _ => Numeric.ofInt value
  | .real value => .finite value

def ofWord (value : Int64) : Number :=
  .whole value.toInt ⟨value.le_toInt, Int.lt_trans value.toInt_lt (by decide)⟩

/-- An integer as a whole number, if a word of either kind holds it. -/
def whole? (value : Int) : Option Number :=
  if h : IsWhole value then some (.whole value h) else none

/-- The two kinds are never the same number; numbers of one kind are the same
when their values are. -/
def same : Number → Number → Bool
  | .whole x _, .whole y _ => x == y
  | .real x, .real y => x.same y
  | _, _ => false

/-- Equality by value: exact for two signed words, and otherwise equality of
the nearest numeric values. -/
def equal (x y : Number) : Bool :=
  match x.word?, y.word? with
  | some a, some b => a == b
  | _, _ => x.toNumeric.same y.toNumeric

end Number

namespace Document

/-- The JSON type of a document. -/
inductive Kind where
  | null
  | boolean
  | number
  | string
  | array
  | object
  deriving DecidableEq, Repr

def kind : Document → Kind
  | .null => .null
  | .boolean _ => .boolean
  | .number _ => .number
  | .string _ => .string
  | .array _ => .array
  | .object _ => .object

def Kind.name : Kind → String
  | .null => "null"
  | .boolean => "boolean"
  | .number => "number"
  | .string => "string"
  | .array => "array"
  | .object => "object"

def ofWord (value : Int64) : Document :=
  .number (.ofWord value)

def strings (texts : List String) : Document :=
  .array (texts.map .string)

def text? : Document → Option String
  | .string value => some value
  | _ => none

def isContainer : Document → Bool
  | .array _ | .object _ => true
  | _ => false

/-! ## Sameness

Two documents are the same when they have the same shape and the same leaves.
-/

mutual

def same : Document → Document → Bool
  | .null, .null => true
  | .boolean a, .boolean b => a == b
  | .number a, .number b => a.same b
  | .string a, .string b => a == b
  | .array a, .array b => sameItems a b
  | .object a, .object b => sameFields a b
  | _, _ => false

def sameItems : List Document → List Document → Bool
  | [], [] => true
  | a :: as, b :: bs => same a b && sameItems as bs
  | _, _ => false

def sameFields : List (String × Document) → List (String × Document) → Bool
  | [], [] => true
  | (j, a) :: as, (k, b) :: bs => j == k && same a b && sameFields as bs
  | _, _ => false

end

/-! ## Ordered documents

The fields of every object inside an ordered document ascend by key.
-/

mutual

def Ordered : Document → Prop
  | .array items => OrderedItems items
  | .object fields => Keyed.Ordered fields ∧ OrderedFields fields
  | _ => True

def OrderedItems : List Document → Prop
  | [] => True
  | item :: items => Ordered item ∧ OrderedItems items

def OrderedFields : List (String × Document) → Prop
  | [] => True
  | (_, value) :: fields => Ordered value ∧ OrderedFields fields

end

/-! ## Induction

The items of an array and the fields of an object are lists, and the induction
principle that comes with the type asks for a statement about each kind of
list.  The principle here asks only for a statement about single documents,
which may be used of every child.
-/

@[elab_as_elim, induction_eliminator]
theorem induction {motive : Document → Prop} (null : motive .null)
    (boolean : ∀ value, motive (.boolean value)) (number : ∀ value, motive (.number value))
    (string : ∀ value, motive (.string value))
    (array : ∀ items, (∀ item ∈ items, motive item) → motive (.array items))
    (object : ∀ fields, (∀ key value, (key, value) ∈ fields → motive value) →
      motive (.object fields))
    (document : Document) : motive document := by
  refine @Document.rec motive (fun items => ∀ item ∈ items, motive item)
    (fun fields => ∀ key value, (key, value) ∈ fields → motive value)
    (fun entry => motive entry.2) null boolean number string array object ?_ ?_ ?_ ?_ ?_ document
  · intro item hmem
    exact absurd hmem List.not_mem_nil
  · intro first others hfirst hothers item hmem
    rcases List.mem_cons.1 hmem with rfl | hmem
    · exact hfirst
    · exact hothers item hmem
  · intro key value hmem
    exact absurd hmem List.not_mem_nil
  · intro first others hfirst hothers key value hmem
    rcases List.mem_cons.1 hmem with rfl | hmem
    · exact hfirst
    · exact hothers key value hmem
  · intro key value hvalue
    exact hvalue

/-- An item of an array or the value of a field. -/
inductive Child (child : Document) : Document → Prop
  | item {items : List Document} (hmem : child ∈ items) : Child child (.array items)
  | field {fields : List (String × Document)} {key : String} (hmem : (key, child) ∈ fields) :
      Child child (.object fields)

/-- A document stands in another, below its top. -/
abbrev Below : Document → Document → Prop :=
  Relation.TransGen Child

end Document

end JsonbAlgebra
