import JsonbAlgebra.Constant
import JsonbAlgebra.Document.Containment
import JsonbAlgebra.Fault

/-!
# Casts and comparison

Casting a datum to a type of single values, the datum of a constant, and
equality of data.  Text is cast without its blank margins.
-/

namespace JsonbAlgebra

namespace Datum

def invalidInput {α : Type} (target : CastTarget) (value : Datum) :
    Except EvaluationFault α :=
  .error (.invalidInput target value.plainText)

/-- A value read from text, or the complaint about the datum it is from. -/
def readAs {α : Type} (target : CastTarget) (value : Datum) (read : List Char → Option α)
    (text : String) : Except EvaluationFault α :=
  match read (Text.trim text.toList) with
  | some result => .ok result
  | none => invalidInput target value

/-- Numbers are rounded to a whole number, a half away from zero, and cut off
at the bounds of a word. -/
def toWord (value : Datum) : Except EvaluationFault Int64 :=
  match value with
  | .integer word => .ok word
  | .number x => .ok x.toWord
  | .boolean b => .ok (if b then 1 else 0)
  | .text s => readAs .integer value Text.readWord s
  | .json (.number n) => .ok (n.word?.getD n.toNumeric.toWord)
  | .json (.string s) => readAs .integer value Text.readWord s
  | _ => invalidInput .integer value

def toNumeric (value : Datum) : Except EvaluationFault Numeric :=
  match value with
  | .integer word => .ok (.ofInt word.toInt)
  | .number x => .ok x
  | .text s => readAs .numeric value Numeric.read s
  | .json (.number n) => .ok n.toNumeric
  | .json (.string s) => readAs .numeric value Numeric.read s
  | _ => invalidInput .numeric value

/-- The words for true and false, in any case of their letters. -/
def readTruth (text : List Char) : Option Bool :=
  match (String.ofList text).toLower with
  | "t" | "true" | "y" | "yes" | "on" | "1" => some true
  | "f" | "false" | "n" | "no" | "off" | "0" => some false
  | _ => none

def toTruth (value : Datum) : Except EvaluationFault Bool :=
  match value with
  | .boolean b => .ok b
  | .integer word => .ok (word != 0)
  | .text s => readAs .boolean value readTruth s
  | .json (.boolean b) => .ok b
  | .json (.string s) => readAs .boolean value readTruth s
  | _ => invalidInput .boolean value

/-- A literal without a type, by its shape. -/
def ofUntyped : Document → Datum
  | .null => .null
  | .boolean b => .boolean b
  | .number n =>
    match n.word? with
    | some word => .integer word
    | none => .number n.toNumeric
  | .string s => .text s
  | document => .json document

/-- A literal of a type.  The document null is a value of the type jsonb and
NULL in every other. -/
def ofTyped : SqlType → Document → Except EvaluationFault Datum
  | .jsonb, value => .ok (.json value)
  | _, .null => .ok .null
  | .text, value => .ok (.text value.plainText)
  | .integer, value => (toWord (.json value)).map .integer
  | .bigint, value => (toWord (.json value)).map .integer
  | .double, value => (toNumeric (.json value)).map .number
  | .numeric, value => (toNumeric (.json value)).map .number
  | .boolean, value => (toTruth (.json value)).map .boolean
  | .array _, .array items => .ok (.array items)
  | .array _, value => .error (.notArray value.text)

def ofScalar (declared : Option SqlType) (value : Document) :
    Except EvaluationFault Datum :=
  match declared with
  | some type => ofTyped type value
  | none => .ok (ofUntyped value)

/-- Equality of two data of comparable kinds, neither of them NULL. -/
def equal : Datum → Datum → Except EvaluationFault Bool
  | .json a, .json b => .ok (a.equal b)
  | .text a, .text b => .ok (a == b)
  | .integer a, .integer b => .ok (a == b)
  | .integer a, .number b => .ok ((Numeric.ofInt a.toInt).same b)
  | .number a, .integer b => .ok ((Numeric.ofInt b.toInt).same a)
  | .number a, .number b => .ok (a.same b)
  | .boolean a, .boolean b => .ok (a == b)
  | .array a, .array b => .ok (Document.equalItems a b)
  | a, b => .error (.incomparable a.kind b.kind)

/-- The truth value of a condition; NULL is unknown. -/
def truth? : Datum → Except EvaluationFault (Option Bool)
  | .boolean b => .ok (some b)
  | .null => .ok none
  | other => .error (.notBoolean other.kind)

def ofTruth : Option Bool → Datum
  | some b => .boolean b
  | none => .null

end Datum

namespace Constant

/-- The datum of a constant.  A value list has none. -/
def datum (constant : Constant) : Except EvaluationFault Datum :=
  match constant.literal with
  | .null => .ok .null
  | .scalar value => Datum.ofScalar constant.declared value
  | .array items =>
    if constant.declared = some .jsonb then .ok (.json (.array items))
    else .ok (.array items)
  | .list _ => .error .strayValueList

end Constant

end JsonbAlgebra
