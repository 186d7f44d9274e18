import JsonbAlgebra.Proofs.UpdateFaults

/-!
# The calls that build an update

An update is built by a sequence of calls, each of which names a column and
assigns or patches a value.  A call may fail by itself; the changes that the
others make are collected, and the statement of the update is compiled.
-/

namespace JsonbAlgebra

inductive Call where
  | set (column : Column) (value : Expr)
  | setNull (column : Column)
  | setValue (column : Column) (value : Document)
  | setTyped (column : Column) (value : Document) (type : SqlType)
  | setJson (column : Column) (path : String) (value : Document)
  | setJsonAt (column : Column) (inputs : List String) (value : Document)
  | setJsonExpr (column : Column) (inputs : List String) (value : Expr)
  | patch (target : ColumnRef) (path : JsonPath) (value : Expr)

namespace Call

def change : Call → Except Fault Change
  | .set column value => .ok (.set column value)
  | .setNull column => .ok (.setNull column)
  | .setValue column value => .ok (.setValue column value)
  | .setTyped column value type => .ok (.setTyped column value type)
  | .setJson column path value => Change.setJson column path value
  | .setJsonAt column inputs value => Change.setJsonAt column inputs value
  | .setJsonExpr column inputs value => Change.setJsonExpr column inputs value
  | .patch target path value => (Patch.of target path value).map .patch

/-- The expressions that a call is given are well formed. -/
def WellFormed : Call → Prop
  | .set _ value | .setJsonExpr _ _ value | .patch _ _ value => value.WellFormed
  | .setNull _ | .setValue .. | .setTyped .. | .setJson .. | .setJsonAt .. => True

theorem WellFormed.made {call : Call} (hcall : call.WellFormed) {change : Change}
    (h : call.change = .ok change) : change.Made := by
  cases call with
  | set column value =>
      cases h
      exact .set hcall
  | setNull column =>
      cases h
      exact .setNull
  | setValue column value =>
      cases h
      exact .setValue
  | setTyped column value type =>
      cases h
      exact .setTyped
  | setJson column path value => exact .setJson h
  | setJsonAt column inputs value => exact .setJsonAt h
  | setJsonExpr column inputs value => exact .setJsonExpr hcall h
  | patch target path value =>
      obtain ⟨patch, hpatch, rfl⟩ := map_eq_ok.1 h
      exact .patch hcall hpatch

end Call

def Update.ofCalls (table : String) (calls : List Call) : Except Fault Update := do
  let changes ← calls.mapM Call.change
  ofChanges table changes

namespace Update

theorem ofCalls_eq_ok {table : String} {calls : List Call} {update : Update} :
    ofCalls table calls = .ok update ↔
      ∃ changes, List.Forall₂ (fun call change => call.change = .ok change) calls changes ∧
        ofChanges table changes = .ok update := by
  rw [ofCalls, bind_eq_ok]
  simp only [mapM_eq_ok]

theorem WellFormed.ofCalls {table : String} {calls : List Call} {update : Update}
    (hcalls : ∀ call ∈ calls, call.WellFormed) (h : ofCalls table calls = .ok update) :
    update.WellFormed := by
  obtain ⟨changes, hchanges, hupdate⟩ := ofCalls_eq_ok.1 h
  have hsound : ∀ change ∈ changes, change.Sound := by
    refine forall_mem_of_forall₂ (forall₂_imp_of_mem hchanges ?_)
    intro call hmem change hchange
    exact ((hcalls call hmem).made hchange).sound
  obtain rfl := eq_collected_of_ofChanges hupdate
  exact .collected (Change.sound_assignment hsound)
    fun patch hmem => (Change.sound_patch hsound patch hmem).1

end Update

/-! ## Literals of a column's type -/

namespace Constant

/-- A literal of a type, as calls make it: the document null stands for SQL
NULL, and a list of documents for an array if the type is one. -/
def ofLiteral (type : SqlType) : Document → Constant
  | .null => .typedNull type
  | .array items => if type.isArray then .typedArray items type else .typed (.array items) type
  | value => .typed value type

theorem declared_ofLiteral (type : SqlType) (value : Document) :
    (ofLiteral type value).declared = some type := by
  cases value with
  | array items =>
      rw [ofLiteral]
      split <;> rfl
  | _ => rfl

theorem isValueList_ofLiteral (type : SqlType) (value : Document) :
    (ofLiteral type value).isValueList = false := by
  cases value with
  | array items =>
      rw [ofLiteral]
      split <;> rfl
  | _ => rfl

end Constant

theorem Change.setValue_eq (column : Column) (value : Document) :
    setValue column value = set column (.constant (.ofLiteral column.type value)) := by
  cases value with
  | array items =>
      rw [setValue, Constant.ofLiteral]
      split <;> rfl
  | _ => rfl

end JsonbAlgebra
