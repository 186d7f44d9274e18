import JsonbAlgebra.Fault
import JsonbAlgebra.SqlType

/-!
# Columns

A column has a name and a type, and may name its table.  Expressions refer to
a column, or to a field reached through it, by a list of segments.
-/

namespace JsonbAlgebra

structure Column where
  table : Option String
  name : String
  type : SqlType
  deriving DecidableEq, Repr

structure ColumnRef where
  owner : Option String
  segments : List String
  type : SqlType
  deriving DecidableEq, Repr

def Column.jsonb (name : String) : Column :=
  ⟨none, name, .jsonb⟩

def Column.ref (column : Column) : ColumnRef :=
  ⟨column.table, [column.name], column.type⟩

namespace ColumnRef

/-- A reference with at least one segment and none of them empty. -/
def of (owner : Option String) (segments : List String) (type : SqlType) :
    Except Fault ColumnRef :=
  if segments = [] ∨ "" ∈ segments then .error (.path .emptyReference)
  else .ok ⟨owner, segments, type⟩

/-- The segments as a dotted name, which is also the name in a row. -/
def path (ref : ColumnRef) : String :=
  Text.dotted ref.segments

/-- The owner, if there is one, in front of the segments. -/
def identifiers (ref : ColumnRef) : List String :=
  ref.owner.toList ++ ref.segments

def fullPath (ref : ColumnRef) : String :=
  Text.dotted ref.identifiers

end ColumnRef

/-! ## Declared column types

The type names that a schema declares columns with, and the kind of storage
that each stands for.  Names are compared without regard to the case of their
letters, and a name that is not registered is a scalar.
-/

inductive ColumnKind where
  | json
  | array
  | scalar
  deriving DecidableEq, Repr

def ColumnKind.name : ColumnKind → String
  | .json => "json"
  | .array => "array"
  | .scalar => "scalar"

def ColumnKind.named? : String → Option ColumnKind
  | "json" => some .json
  | "array" => some .array
  | "scalar" => some .scalar
  | _ => none

/-- The registered names, in lower case. -/
structure ColumnKinds where
  entries : Keyed ColumnKind
  deriving DecidableEq, Repr

namespace ColumnKinds

def standard : ColumnKinds :=
  ⟨Keyed.ofList
    [("string-array", .array), ("int-array", .array), ("list-array", .array),
      ("jsonb", .json), ("json", .json)]⟩

/-- Registers a name; a later registration of a name takes the place of an
earlier one. -/
def register (kinds : ColumnKinds) (name : String) (kind : ColumnKind) : ColumnKinds :=
  ⟨kinds.entries.insert name.toLower kind⟩

def registerAll (kinds : ColumnKinds) (entries : List (String × ColumnKind)) :
    ColumnKinds :=
  entries.foldl (fun registered entry => registered.register entry.1 entry.2) kinds

def kindOf (kinds : ColumnKinds) (name : String) : ColumnKind :=
  (kinds.entries.find? name.toLower).getD .scalar

/-- The registered names with their kinds, as an object. -/
def toDocument (kinds : ColumnKinds) : Document :=
  .object (kinds.entries.map fun (name, kind) => (name, .string kind.name))

end ColumnKinds

/-- A column of a declared type.  The base is the type of a scalar column and
the element type of an array column. -/
def Column.declared (name declared : String) (base : SqlType) (kinds : ColumnKinds) :
    Column :=
  match kinds.kindOf declared with
  | .json => ⟨none, name, .jsonb⟩
  | .array => ⟨none, name, .array base⟩
  | .scalar => ⟨none, name, base⟩

end JsonbAlgebra
