import JsonbAlgebra.Expr.Navigation
import JsonbAlgebra.Statement

/-!
# Updates

An update of one table assigns values to columns and patches values into
documents.  It is made of changes in order: a later assignment to a column
takes the place of an earlier one, while of several patches of one column at
one path the first stays.  Lowering merges the patches into the assignments,
so that each column has one final value.
-/

namespace JsonbAlgebra

structure Assignment where
  target : ColumnRef
  value : Expr

/-- Puts a value at a path of the document in a column. -/
structure Patch where
  target : ColumnRef
  path : JsonPath
  value : Expr

structure Update where
  table : String
  assignments : List Assignment
  patches : List Patch

inductive Change where
  | assign (assignment : Assignment)
  | patch (patch : Patch)

/-- The check of one operand by its tag alone. -/
def Operator.checkTag (operator : Operator) (index : Nat) (tag : Tag) : Except Fault Unit :=
  match (operator.contract.slotAt index).filter fun slot => !slot.accepts tag with
  | some slot => .error (.operandTag operator slot tag)
  | none => .ok ()

namespace Patch

/-- A patch of a document column at a nonempty path with a document value. -/
def of (target : ColumnRef) (path : JsonPath) (value : Expr) : Except Fault Patch := do
  if path = [] ∨ "" ∈ path then throw (.path (.emptyPatchPath target.fullPath))
  Operator.checkTag .set 0 target.type.tag
  Operator.checkTag .set 2 value.tag
  return ⟨target, path, value⟩

def around (patch : Patch) (current : Expr) : Except Fault Expr :=
  Expr.apply .set [current, Expr.pathOperand patch.path, patch.value]

/-- Merges a patch into assignments: around the value of its column, or
around the column itself behind all of them. -/
def mergeInto (patch : Patch) : List Assignment → Except Fault (List Assignment)
  | [] => do
    let value ← patch.around (.column patch.target)
    return [⟨patch.target, value⟩]
  | assignment :: rest =>
    if assignment.target.segments = patch.target.segments then do
      let value ← patch.around assignment.value
      return { assignment with value } :: rest
    else do
      let merged ← mergeInto patch rest
      return assignment :: merged

def sameKey (a b : Patch) : Bool :=
  a.target.segments == b.target.segments && a.path == b.path

end Patch

namespace Assignment

/-- Takes the place of the assignment to the same column, or the last
place. -/
def place (assignment : Assignment) : List Assignment → List Assignment
  | [] => [assignment]
  | other :: rest =>
    if other.target.segments = assignment.target.segments then assignment :: rest
    else other :: place assignment rest

end Assignment

namespace Change

def target : Change → ColumnRef
  | .assign change => change.target
  | .patch change => change.target

def set (column : Column) (value : Expr) : Change :=
  .assign ⟨column.ref, value⟩

def setNull (column : Column) : Change :=
  set column (.constant (.typedNull column.type))

/-- Assigns a literal of the column's type; null stands for SQL NULL. -/
def setValue (column : Column) (value : Document) : Change :=
  match value with
  | .null => setNull column
  | .array items =>
    if column.type.isArray then set column (.constant (.typedArray items column.type))
    else set column (.constant (.typed value column.type))
  | _ => set column (.constant (.typed value column.type))

def setTyped (column : Column) (value : Document) (type : SqlType) : Change :=
  set column (.constant (.typed value type))

/-- Patches a computed value in at a path in either form. -/
def setJsonExpr (column : Column) (inputs : List String) (value : Expr) :
    Except Fault Change := do
  let path ← (JsonPath.ofInputs inputs).mapError .path
  let change ← Patch.of column.ref path value
  return .patch change

def setJsonAt (column : Column) (inputs : List String) (value : Document) :
    Except Fault Change :=
  setJsonExpr column inputs (Expr.jsonOperand value)

def setJson (column : Column) (path : String) (value : Document) : Except Fault Change :=
  setJsonAt column [path] value

end Change

namespace Update

def empty (table : String) : Update :=
  ⟨table, [], []⟩

def isEmpty (update : Update) : Bool :=
  update.assignments.isEmpty && update.patches.isEmpty

/-- Whether an owner names a table, in full or by its last piece. -/
def ownerNames (table owner : String) : Bool :=
  owner == table || (Text.pieces table).getLast? == some owner

/-- A column that belongs to another table cannot be updated. -/
def foreign? (table : String) (target : ColumnRef) : Option PathFault :=
  match target.owner.filter fun owner => !ownerNames table owner with
  | some owner => some (.foreignColumn target.path owner table)
  | none => none

def addPatch (update : Update) (patch : Patch) : Update :=
  if update.patches.any (Patch.sameKey patch) then update
  else { update with patches := update.patches ++ [patch] }

def apply (update : Update) (change : Change) : Except Fault Update :=
  match foreign? update.table change.target with
  | some fault => .error (.path fault)
  | none =>
    match change with
    | .assign assignment =>
      .ok { update with assignments := assignment.place update.assignments }
    | .patch patch => .ok (update.addPatch patch)

/-- The update that changes make, in order; the first change of a foreign
column ends it. -/
def ofChanges (table : String) (changes : List Change) : Except Fault Update :=
  changes.foldlM apply (empty table)

def lower (update : Update) : Except Fault (List Assignment) :=
  if update.isEmpty then .error (.emptyUpdate update.table)
  else
    update.patches.foldlM (fun assignments patch => patch.mergeInto assignments)
      update.assignments

end Update

namespace Dialect

/-- The draft of an assignment; its column is not qualified. -/
def draftAssignment (dialect : Dialect) (assignment : Assignment) :
    Except TemplateFault Draft := do
  let value ← dialect.draft assignment.value
  return .sql (Identifier.qualified assignment.target.segments ++ " = ") :: value

def draftFilter (dialect : Dialect) : Option Expr → Except Fault Draft
  | none => .ok []
  | some filter =>
    if filter.tag.fits .boolean then
      ((dialect.draft filter).map fun condition => .sql " WHERE " :: condition).mapError
        .template
    else .error (.filterTag filter.tag)

def draftUpdate (dialect : Dialect) (update : Update) (filter : Option Expr) :
    Except Fault Draft := do
  let assignments ← update.lower
  let drafts ← (assignments.mapM dialect.draftAssignment).mapError .template
  let condition ← dialect.draftFilter filter
  let table := Identifier.qualified (Text.pieces update.table)
  return .sql ("UPDATE " ++ table ++ " SET ") :: (Draft.separate ", " drafts ++ condition)

/-- The statement of an update, for the rows that meet a condition if there
is one. -/
def compileUpdate (dialect : Dialect) (style : Placeholder) (update : Update)
    (filter : Option Expr) : Except Fault Statement :=
  (dialect.draftUpdate update filter).map (Draft.finish style)

end Dialect

end JsonbAlgebra
