import JsonbAlgebra.Statement

/-!
# Bindings

Binding gives each mark of a statement its position, counted from one, a
value and a SQL type.  The type is the declared one or else follows from the
shape of the value; a value whose shape has no type cannot be bound.
-/

namespace JsonbAlgebra

inductive BoundValue where
  | null
  | scalar (value : Document)
  | array (items : List Document)

structure Binding where
  position : Nat
  value : BoundValue
  type : SqlType

structure BoundStatement where
  sql : String
  bindings : List Binding

namespace Binding

def typeOf? : Document → Option SqlType
  | .boolean _ => some .boolean
  | .number value => some (if value.isReal then .double else .bigint)
  | .string _ => some .text
  | .null | .array _ | .object _ => none

def isNumeric : SqlType → Bool
  | .bigint | .double => true
  | _ => false

/-- The type of array elements after one more element: whole numbers and
others together are wide. -/
def widen (element : SqlType) (value : Document) : Except Shape SqlType :=
  match typeOf? value with
  | none => .error (.arrayHolding value.kind)
  | some type =>
    if type = element then .ok element
    else if isNumeric type && isNumeric element then .ok .double
    else .error .mixedArray

/-- The common type of the elements of an array. -/
def elementType : List Document → Except Shape SqlType
  | [] => .error .emptyArray
  | value :: values =>
    match typeOf? value with
    | none => .error (.arrayHolding value.kind)
    | some type => values.foldlM widen type

def ofScalar (position : Nat) (declared : Option SqlType) (value : Document) :
    Except Fault Binding :=
  match declared.or (typeOf? value) with
  | some type => .ok ⟨position, .scalar value, type⟩
  | none => .error (.unresolvedType position (.single value.kind))

/-- An array bound as jsonb is one document. -/
def ofArray (position : Nat) (declared : Option SqlType) (items : List Document) :
    Except Fault Binding :=
  match declared with
  | some .jsonb => .ok ⟨position, .scalar (.array items), .jsonb⟩
  | some type => .ok ⟨position, .array items, type⟩
  | none =>
    match elementType items with
    | .ok element => .ok ⟨position, .array items, .array element⟩
    | .error shape => .error (.unresolvedType position shape)

def ofNull (position : Nat) (declared : Option SqlType) : Except Fault Binding :=
  match declared with
  | some type => .ok ⟨position, .null, type⟩
  | none => .error (.unresolvedType position (.single .null))

/-- Alternatives, one position after another. -/
def ofList (declared : Option SqlType) : Nat → List Document → Except Fault (List Binding)
  | _, [] => .ok []
  | position, value :: values => do
    let first ← ofScalar position declared value
    let others ← ofList declared (position + 1) values
    return first :: others

/-- The bindings of a constant whose first position is given. -/
def ofConstant (position : Nat) (constant : Constant) : Except Fault (List Binding) :=
  match constant.literal with
  | .null => (ofNull position constant.declared).map ([·])
  | .scalar value => (ofScalar position constant.declared value).map ([·])
  | .array items => (ofArray position constant.declared items).map ([·])
  | .list values => ofList constant.declared position values

/-- The bindings of constants, from a position on.  Every constant starts
behind the bindings of those before it. -/
def ofConstantsFrom : Nat → List Constant → Except Fault (List Binding)
  | _, [] => .ok []
  | position, constant :: constants => do
    let first ← ofConstant position constant
    let others ← ofConstantsFrom (position + first.length) constants
    return first ++ others

def ofConstants (constants : List Constant) : Except Fault (List Binding) :=
  ofConstantsFrom 1 constants

end Binding

def Statement.bind (statement : Statement) : Except Fault BoundStatement :=
  (Binding.ofConstants statement.parameters).map fun bindings =>
    ⟨statement.sql, bindings⟩

/-- The statements handed over so far, in order. -/
structure Journal where
  statements : List BoundStatement

namespace Journal

def empty : Journal :=
  ⟨[]⟩

/-- Adds a statement and says which index it has. -/
def record (journal : Journal) (statement : BoundStatement) : Nat × Journal :=
  (journal.statements.length, ⟨journal.statements ++ [statement]⟩)

end Journal

end JsonbAlgebra
