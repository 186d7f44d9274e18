import JsonbAlgebra.Expr.Navigation

/-!
# Conditions

Comparison, logic and null checks.  A document can be the document null as
well as SQL NULL, and the wide null checks of a document count both.
-/

namespace JsonbAlgebra.Expr

def equals (left right : Expr) : Except Fault Expr :=
  apply .eq [left, right]

def notEquals (left right : Expr) : Except Fault Expr :=
  apply .ne [left, right]

def allOf (conditions : List Expr) : Except Fault Expr :=
  apply .and conditions

def anyOf (conditions : List Expr) : Except Fault Expr :=
  apply .or conditions

def and (left right : Expr) : Except Fault Expr :=
  allOf [left, right]

def or (left right : Expr) : Except Fault Expr :=
  anyOf [left, right]

def not (condition : Expr) : Except Fault Expr :=
  apply .not [condition]

def isSqlNull (value : Expr) : Except Fault Expr :=
  apply .isNull [value]

def isSqlNotNull (value : Expr) : Except Fault Expr :=
  apply .isNotNull [value]

def isNull (value : Expr) : Except Fault Expr := do
  let sqlNull ← isSqlNull value
  if value.tag = .json then
    let jsonNull ← equals value (.constant .jsonNull)
    anyOf [sqlNull, jsonNull]
  else return sqlNull

def isNotNull (value : Expr) : Except Fault Expr := do
  let notSqlNull ← isSqlNotNull value
  if value.tag = .json then
    let notJsonNull ← notEquals value (.constant .jsonNull)
    allOf [notSqlNull, notJsonNull]
  else return notSqlNull

def isArray (value : Expr) : Except Fault Expr := do
  let present ← isNotNull value
  let type ← typeOf value
  let named ← equals type (textOperand "array")
  allOf [present, named]

def caseWhen (condition value otherwise : Expr) : Except Fault Expr :=
  apply .caseWhen [condition, value, otherwise]

/-- Whether a document is null, missing, or an array without items.  The size
is taken only of what is known to be an array, because conjunctions do not
fix the order in which their operands run. -/
def isEmptyArray (value : Expr) : Except Fault Expr := do
  let array ← isArray value
  let size ← size value
  let sizeZero ← equals size (.constant (.integer 0))
  let zeroLength ← caseWhen array sizeZero (ofDocument (.boolean false))
  let null ← isNull value
  anyOf [null, zeroLength]

/-- Alternatives for a subject, typed like it where it is declared with a
type of single SQL values. -/
def alternatives (subject : Expr) (values : List Document) : Constant :=
  match subject.declared?.filter fun type => !type.isArray && type != .jsonb with
  | some type => (Constant.valueList values).withType type
  | none => .valueList values

def isIn (subject : Expr) (values : List Document) : Except Fault Expr :=
  apply .inList [subject, .constant (alternatives subject values)]

def coalesce (value : Expr) (fallbacks : List Expr) : Except Fault Expr :=
  apply .coalesce (value :: fallbacks)

end JsonbAlgebra.Expr
