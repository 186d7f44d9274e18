import JsonbAlgebra.Datum
import JsonbAlgebra.Document.Edit
import JsonbAlgebra.Operator

/-!
# Faults

Every way in which building, compiling, binding or evaluating can fail, with
its kind and its wording.  A fault ends the work on the statement at hand.
-/

namespace JsonbAlgebra

/-- What is wrong with a path or with the reference to a column. -/
inductive PathFault where
  | noSegments
  | mixedForms (dotted : String)
  | emptyPiece (dotted : String)
  | emptySegment (index : Nat)
  | emptyReference
  | emptyPatchPath (column : String)
  | foreignColumn (column owner table : String)
  deriving DecidableEq, Repr

/-- What is wrong with the pattern of a template, or with its use. -/
inductive TemplateFault where
  | unclosedSlot (pattern : String)
  | invalidSlot (slot pattern : String)
  | unmatchedBrace (pattern : String)
  | beyondContract (pattern : String) (operand : Nat) (operator : Operator) (most : Nat)
  | beyondOperands (pattern : String) (operand : Nat) (operator : Operator) (count : Nat)
  deriving DecidableEq, Repr

/-- What an operator needs an operand to be when it is evaluated. -/
inductive Need where
  | json
  | text
  | integer
  | path
  | key
  | collection
  deriving DecidableEq, Repr

/-- The types that text and documents are cast to. -/
inductive CastTarget where
  | integer
  | numeric
  | boolean
  deriving DecidableEq, Repr

inductive EvaluationFault where
  | operand (operator : Operator) (need : Need) (actual : Datum.Kind)
  | operandCount (operator : Operator)
  | notBoolean (actual : Datum.Kind)
  | incomparable (left right : Datum.Kind)
  | invalidInput (target : CastTarget) (input : String)
  | notArray (document : String)
  | sizeOfNonArray
  | keysOfNonObject
  | elementsOfNonArray
  | edit (fault : Document.EditFault)
  | unpairedKey
  | nullKey
  | missingValueList
  | strayValueList
  deriving DecidableEq, Repr

/-- The shape of a parameter that has no type of its own. -/
inductive Shape where
  | single (kind : Document.Kind)
  | arrayHolding (kind : Document.Kind)
  | mixedArray
  | emptyArray
  deriving DecidableEq, Repr

inductive SettingsFault where
  | unreadable
  | unknownPlaceholder (text : String)
  deriving DecidableEq, Repr

inductive Fault where
  | path (fault : PathFault)
  | arity (operator : Operator) (count : Nat)
  | operandTag (operator : Operator) (slot : Slot) (actual : Tag)
  | indexRange (operator : Operator) (slot : String) (index : Int64)
  | filterTag (actual : Tag)
  | emptyUpdate (table : String)
  | unresolvedType (position : Nat) (shape : Shape)
  | emptyValueList (operator : Operator)
  | unknownOperator (name : String)
  | template (fault : TemplateFault)
  | evaluation (fault : EvaluationFault)
  | settings (fault : SettingsFault)
  deriving DecidableEq, Repr

def cited (text : String) : String :=
  "'" ++ text ++ "'"

def PathFault.message : PathFault → String
  | .noSegments => "path must have at least one segment"
  | .mixedForms dotted =>
    "dotted path " ++ cited dotted ++ " cannot be combined with other segments"
  | .emptyPiece dotted => "dotted path " ++ cited dotted ++ " contains an empty segment"
  | .emptySegment index => "segment " ++ toString index ++ " is empty"
  | .emptyReference => "column reference needs at least one non-empty segment"
  | .emptyPatchPath column => "patch of " ++ cited column ++ " needs a non-empty path"
  | .foreignColumn column owner table =>
    "column " ++ cited column ++ " belongs to " ++ cited owner ++
      ", not to updated table " ++ cited table

def TemplateFault.message : TemplateFault → String
  | .unclosedSlot pattern => "unclosed slot in " ++ cited pattern
  | .invalidSlot slot pattern =>
    "invalid slot " ++ cited ("\x7b" ++ slot ++ "\x7d") ++ " in " ++ cited pattern
  | .unmatchedBrace pattern => "unmatched " ++ cited "\x7d" ++ " in " ++ cited pattern
  | .beyondContract pattern operand operator most =>
    cited pattern ++ " references operand " ++ toString operand ++ " but " ++
      operator.name ++ " takes at most " ++ toString most
  | .beyondOperands pattern operand operator count =>
    cited pattern ++ " references operand " ++ toString operand ++ " but " ++
      operator.name ++ " has " ++ toString count

def Need.name : Need → String
  | .json => "jsonb"
  | .text => "text"
  | .integer => "integer"
  | .path => "text[]"
  | .key => "text, integer or text[]"
  | .collection => "jsonb or array"

def CastTarget.name : CastTarget → String
  | .integer => "integer"
  | .numeric => "numeric"
  | .boolean => "boolean"

def Document.EditFault.message : Document.EditFault → String
  | .notInteger position step =>
    "path element at position " ++ toString (position + 1) ++
      " is not an integer: \"" ++ step ++ "\""
  | .setInScalar => "cannot set path in scalar"
  | .deletePathInScalar => "cannot delete path in scalar"
  | .deleteFromScalar => "cannot delete from scalar"
  | .indexIntoObject => "cannot delete from object using integer index"

def EvaluationFault.message : EvaluationFault → String
  | .operand operator need actual =>
    operator.name ++ " expects " ++ need.name ++ ", got " ++ actual.name
  | .operandCount operator => operator.name ++ " has too few or too many operands"
  | .notBoolean actual => "expected boolean, got " ++ actual.name
  | .incomparable left right => "cannot compare " ++ left.name ++ " with " ++ right.name
  | .invalidInput target input =>
    "invalid input for type " ++ target.name ++ ": \"" ++ input ++ "\""
  | .notArray document => document ++ " is not an array"
  | .sizeOfNonArray => "cannot get array length of a non-array"
  | .keysOfNonObject => "cannot call jsonb_object_keys on a non-object"
  | .elementsOfNonArray => "cannot extract elements from a non-array"
  | .edit fault => fault.message
  | .unpairedKey => "argument list must have even number of elements"
  | .nullKey => "object key must not be null"
  | .missingValueList => "IN needs a value list"
  | .strayValueList => "value list is only valid as the right side of IN"

/-- A kind of document, as the shape of a parameter. -/
def Document.Kind.shape : Document.Kind → String
  | .array => "json array"
  | .object => "json object"
  | kind => kind.name

def Shape.name : Shape → String
  | .single kind => kind.shape
  | .arrayHolding kind => "array containing " ++ kind.shape
  | .mixedArray => "array of mixed element types"
  | .emptyArray => "empty array"

def SettingsFault.message : SettingsFault → String
  | .unreadable => "the settings cannot be read"
  | .unknownPlaceholder text => "unknown placeholder style " ++ cited text

namespace Fault

/-- The short name of the kind of a fault. -/
def kind : Fault → String
  | .path _ => "invalid_path"
  | .arity .. => "operator_arity_mismatch"
  | .operandTag .. | .indexRange .. | .filterTag _ => "type_mismatch"
  | .emptyUpdate _ => "empty_update"
  | .unresolvedType .. => "unresolved_parameter_type"
  | .emptyValueList _ => "empty_value_list"
  | .unknownOperator _ => "unknown_operator"
  | .template _ => "template_error"
  | .evaluation _ => "evaluation_error"
  | .settings _ => "config_error"

/-- The wording of an operand that does not fit. -/
def mismatch (operator slot expected actual : String) : String :=
  "Operator " ++ cited operator ++ " expects " ++ expected ++ " for operand " ++
    cited slot ++ ", got " ++ actual

def message : Fault → String
  | .path fault => "Invalid path: " ++ fault.message
  | .arity operator count =>
    "Operator " ++ cited operator.name ++ " expects " ++ operator.contract.arity ++
      " operand(s), got " ++ toString count
  | .operandTag operator slot actual =>
    mismatch operator.name slot.name slot.expectation actual.name
  | .indexRange operator slot index =>
    mismatch operator.name slot "integer between -2147483648 and 2147483647"
      (toString index.toInt)
  | .filterTag actual => mismatch "WHERE" "condition" Tag.boolean.name actual.name
  | .emptyUpdate table => "Update of " ++ cited table ++ " has no assignments or patches"
  | .unresolvedType position shape =>
    "Cannot resolve SQL type for parameter " ++ toString position ++ ": " ++ shape.name
  | .emptyValueList operator =>
    "Operator " ++ cited operator.name ++ " requires a non-empty value list"
  | .unknownOperator name => "Unknown operator: " ++ name
  | .template fault => "Invalid template: " ++ fault.message
  | .evaluation fault => "Evaluation error: " ++ fault.message
  | .settings fault => "Configuration error: " ++ fault.message

end Fault

end JsonbAlgebra
