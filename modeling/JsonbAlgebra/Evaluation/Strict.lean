import JsonbAlgebra.Evaluation.Cast

/-!
# Strict operators

An operator is strict when it wants all its operands and none of them NULL.
Here the operands are data that are not NULL.
-/

namespace JsonbAlgebra

namespace Datum

def json? (operator : Operator) : Datum → Except EvaluationFault Document
  | .json value => .ok value
  | other => .error (.operand operator .json other.kind)

def text? (operator : Operator) : Datum → Except EvaluationFault String
  | .text value => .ok value
  | other => .error (.operand operator .text other.kind)

def integer? (operator : Operator) : Datum → Except EvaluationFault Int64
  | .integer value => .ok value
  | other => .error (.operand operator .integer other.kind)

/-- The steps of a path; an item that is no text is taken by its text. -/
def path? (operator : Operator) : Datum → Except EvaluationFault (List String)
  | .array items => .ok (items.map Document.plainText)
  | other => .error (.operand operator .path other.kind)

end Datum

namespace Operator

def editing (result : Except Document.EditFault Document) : Except EvaluationFault Datum :=
  match result with
  | .ok document => .ok (.json document)
  | .error fault => .error (.edit fault)

/-- What a document holds under a key, at an index or at the end of a
path. -/
def lookup (operator : Operator) (subject key : Datum) :
    Except EvaluationFault (Option Document) := do
  let document ← subject.json? operator
  match key, document with
  | .text name, .object fields => return Keyed.find? fields name
  | .text _, _ => return none
  | .integer index, .array items => return Document.item? items index.toInt
  | .integer _, _ => return none
  | .array steps, _ => return document.at? (steps.map Document.plainText)
  | other, _ => throw (.operand operator .key other.kind)

/-- What is found as a document; nothing is NULL. -/
def foundJson : Option Document → Datum
  | some document => .json document
  | none => .null

/-- What is found as text; nothing and the document null are NULL. -/
def foundText : Option Document → Datum
  | none => .null
  | some .null => .null
  | some document => .text document.plainText

def joined : Datum → Datum → Except EvaluationFault Datum
  | .json left, .json right => .ok (.json (left.concat right))
  | .array left, .array right => .ok (.array (left ++ right))
  | .json _, other => .error (.operand .concat .json other.kind)
  | other, _ => .error (.operand .concat .collection other.kind)

/-- The value of a strict operator over its operands. -/
def strict : Operator → List Datum → Except EvaluationFault Datum
  | .get, [subject, key] => (lookup .get subject key).map foundJson
  | .getText, [subject, key] => (lookup .getText subject key).map foundText
  | .contains, [outer, inner] => do
    let outer ← outer.json? .contains
    let inner ← inner.json? .contains
    return .boolean (outer.contains inner)
  | .containsKey, [subject, key] => do
    let document ← subject.json? .containsKey
    let key ← key.text? .containsKey
    return .boolean (document.hasKey key)
  | .concat, [left, right] => joined left right
  | .size, [subject] => do
    match ← subject.json? .size with
    | .array items => return .integer (Int64.ofNat items.length)
    | _ => throw .sizeOfNonArray
  | .keys, [subject] => do
    match ← subject.json? .keys with
    | .object fields => return .array ((Keyed.keys fields).map .string)
    | _ => throw .keysOfNonObject
  | .elements, [subject] => do
    match ← subject.json? .elements with
    | .array items => return .array items
    | _ => throw .elementsOfNonArray
  | .typeOf, [subject] => do
    let document ← subject.json? .typeOf
    return .text document.kind.name
  | .set, [subject, path, value] => do
    let document ← subject.json? .set
    let path ← path.path? .set
    let value ← value.json? .set
    editing (document.setPath path value)
  | .deleteKey, [subject, key] => do
    let document ← subject.json? .deleteKey
    let key ← key.text? .deleteKey
    editing (document.deleteKey key)
  | .deleteIndex, [subject, index] => do
    let document ← subject.json? .deleteIndex
    let index ← index.integer? .deleteIndex
    editing (document.deleteIndex index.toInt)
  | .deletePath, [subject, path] => do
    let document ← subject.json? .deletePath
    let path ← path.path? .deletePath
    editing (document.deletePath path)
  | .castText, [value] => .ok (.text value.plainText)
  | .castInteger, [value] => value.toWord.map .integer
  | .castBigint, [value] => value.toWord.map .integer
  | .castNumeric, [value] => value.toNumeric.map .number
  | .castBoolean, [value] => value.toTruth.map .boolean
  | .eq, [left, right] => (left.equal right).map .boolean
  | .ne, [left, right] => (left.equal right).map fun same => .boolean !same
  | .not, [condition] => condition.truth?.map fun truth => .ofTruth (truth.map (!·))
  | operator, _ => .error (.operandCount operator)

end Operator

end JsonbAlgebra
