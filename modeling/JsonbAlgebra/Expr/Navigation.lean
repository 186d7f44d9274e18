import JsonbAlgebra.Expr.Basic

/-!
# Navigating and changing documents

The operations on an expression that holds a document.  Paths are read before
anything else is checked.

A path into a document is written either as one dotted text or as a list of
segments without points, never as a mix of the two.  No segment is empty.
-/

namespace JsonbAlgebra

abbrev JsonPath :=
  List String

namespace JsonPath

/-- The first segment that is empty, by its index. -/
def firstEmpty (segments : List String) : Option Nat :=
  segments.findIdx? (· == "")

def ofInputs : List String → Except PathFault JsonPath
  | [] => .error .noSegments
  | inputs =>
    match inputs.find? Text.hasPoint with
    | some dotted =>
      if inputs.length ≠ 1 then .error (.mixedForms dotted)
      else
        let segments := Text.pieces dotted
        if "" ∈ segments then .error (.emptyPiece dotted) else .ok segments
    | none =>
      match firstEmpty inputs with
      | some index => .error (.emptySegment index)
      | none => .ok inputs

def ofDotted (path : String) : Except PathFault JsonPath :=
  ofInputs [path]

end JsonPath

namespace Expr

/-- Goes on with the path that some inputs stand for. -/
def withPath (inputs : List String) (next : JsonPath → Except Fault Expr) :
    Except Fault Expr :=
  match JsonPath.ofInputs inputs with
  | .ok path => next path
  | .error fault => .error (.path fault)

def pathOperand (path : JsonPath) : Expr :=
  .constant (.textArray path)

def textOperand (value : String) : Expr :=
  .constant (.text value)

def jsonOperand (value : Document) : Expr :=
  .constant (.jsonb value)

/-- An index of an array as an operand.  Documents are indexed by 32-bit
words only. -/
def indexOperand (operator : Operator) (slot : String) (index : Int64) :
    Except Fault Expr :=
  if Text.FitsHalfWord index.toInt then .ok (.constant (.index index.toInt32))
  else .error (.indexRange operator slot index)

def get (subject : Expr) (inputs : List String) : Except Fault Expr :=
  withPath inputs fun path => apply .get [subject, pathOperand path]

def getText (subject : Expr) (inputs : List String) : Except Fault Expr :=
  withPath inputs fun path => apply .getText [subject, pathOperand path]

/-- The value under one key, which is taken as it stands. -/
def getKey (subject : Expr) (key : String) : Except Fault Expr :=
  apply .get [subject, textOperand key]

def getKeyText (subject : Expr) (key : String) : Except Fault Expr :=
  apply .getText [subject, textOperand key]

def getIndex (subject : Expr) (index : Int64) : Except Fault Expr := do
  let operand ← indexOperand .get "key" index
  apply .get [subject, operand]

/-- The value under a computed key, index or path. -/
def getAt (subject key : Expr) : Except Fault Expr :=
  apply .get [subject, key]

/-- The text of a value.  A value that is got from a document is got as text
instead, so that a text does not come out quoted; anything else is cast. -/
def asText : Expr → Except Fault Expr
  | .operation .get operands => apply .getText operands
  | value => apply .castText [value]

/-- The form of a value that casts start from: what is got from a document
goes through its text. -/
def castSource : Expr → Except Fault Expr
  | .operation .get operands => asText (.operation .get operands)
  | value => .ok value

def castTo (operator : Operator) (value : Expr) : Except Fault Expr := do
  let source ← castSource value
  apply operator [source]

def asInteger (value : Expr) : Except Fault Expr :=
  castTo .castInteger value

def asBigint (value : Expr) : Except Fault Expr :=
  castTo .castBigint value

def asNumeric (value : Expr) : Except Fault Expr :=
  castTo .castNumeric value

def asBoolean (value : Expr) : Except Fault Expr :=
  castTo .castBoolean value

def containsKey (subject : Expr) (key : String) : Except Fault Expr :=
  apply .containsKey [subject, textOperand key]

def containsKeyAt (subject key : Expr) : Except Fault Expr :=
  apply .containsKey [subject, key]

def contains (subject other : Expr) : Except Fault Expr :=
  apply .contains [subject, other]

def containsDocument (subject : Expr) (value : Document) : Except Fault Expr :=
  contains subject (jsonOperand value)

def concat (subject other : Expr) : Except Fault Expr :=
  apply .concat [subject, other]

/-- Some items as one collection of the subject's own kind: a document beside
a document, and otherwise an array, typed like the subject if that is
declared as an array. -/
def collection (subject : Expr) (items : List Document) : Constant :=
  if subject.tag = .json then .jsonb (.array items)
  else
    match subject.declared?.filter SqlType.isArray with
    | some type => .typedArray items type
    | none => .array items

def concatItems (subject : Expr) (items : List Document) : Except Fault Expr :=
  concat subject (.constant (collection subject items))

def size (subject : Expr) : Except Fault Expr :=
  apply .size [subject]

def keys (subject : Expr) : Except Fault Expr :=
  apply .keys [subject]

def elements (subject : Expr) : Except Fault Expr :=
  apply .elements [subject]

def typeOf (subject : Expr) : Except Fault Expr :=
  apply .typeOf [subject]

def deleteKey (subject : Expr) (key : String) : Except Fault Expr :=
  apply .deleteKey [subject, textOperand key]

def deleteIndex (subject : Expr) (index : Int64) : Except Fault Expr := do
  let operand ← indexOperand .deleteIndex "index" index
  apply .deleteIndex [subject, operand]

def deletePath (subject : Expr) (inputs : List String) : Except Fault Expr :=
  withPath inputs fun path => apply .deletePath [subject, pathOperand path]

def set (subject : Expr) (inputs : List String) (value : Expr) : Except Fault Expr :=
  withPath inputs fun path => apply .set [subject, pathOperand path, value]

def setDocument (subject : Expr) (inputs : List String) (value : Document) :
    Except Fault Expr :=
  set subject inputs (jsonOperand value)

/-- An object of keys and values; the keys become text operands before their
values. -/
def buildObject (pairs : List (String × Expr)) : Except Fault Expr :=
  apply .buildObject (pairs.flatMap fun (key, value) => [textOperand key, value])

end Expr

end JsonbAlgebra
