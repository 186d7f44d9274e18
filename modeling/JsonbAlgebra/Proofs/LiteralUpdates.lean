import JsonbAlgebra.Proofs.Entries
import JsonbAlgebra.Proofs.UpdateCalls

/-!
# Updates made of literals

Calls that take literals give every constant its type at once, from the column,
from the caller, or from the place that it is put in.  Such an update therefore
never fails when its statement is bound, whatever the literals are.

The bindings are read off the calls: the last assignment of a column, and behind
it the first patch at each path.  A merge adds the two constants of its patch to
those that are there, which gives the number of bindings.
-/

namespace JsonbAlgebra

/-! ## Literals with their types -/

structure TypedLiteral where
  value : BoundValue
  type : SqlType

/-- The value that a literal of a type is bound as. -/
def BoundValue.ofLiteral (type : SqlType) : Document → BoundValue
  | .null => .null
  | .array items => if type.isArray then .array items else .scalar (.array items)
  | value => .scalar value

structure LiteralAssignment where
  column : String
  literal : TypedLiteral

structure LiteralPatch where
  column : String
  path : JsonPath
  value : Document

/-- The path of a patch as an array of texts, and its value as a document. -/
def LiteralPatch.literals (patch : LiteralPatch) : List TypedLiteral :=
  [⟨.array (patch.path.map .string), .array .text⟩, ⟨.scalar patch.value, .jsonb⟩]

namespace Call

def assigned? : Call → Option LiteralAssignment
  | .setNull column => some ⟨column.name, .null, column.type⟩
  | .setValue column value => some ⟨column.name, .ofLiteral column.type value, column.type⟩
  | .setTyped column value type => some ⟨column.name, .scalar value, type⟩
  | _ => none

def patched? : Call → Option LiteralPatch
  | .setJson column path value =>
    (JsonPath.ofDotted path).toOption.map fun path => ⟨column.name, path, value⟩
  | .setJsonAt column inputs value =>
    (JsonPath.ofInputs inputs).toOption.map fun path => ⟨column.name, path, value⟩
  | _ => none

/-- The calls that take a literal and no expression. -/
def IsLiteral : Call → Prop
  | .setNull _ | .setValue .. | .setTyped .. | .setJson .. | .setJsonAt .. => True
  | .set .. | .setJsonExpr .. | .patch .. => False

end Call

/-- What calls with literals assign and patch, in their order. -/
structure LiteralUpdate where
  assigned : List LiteralAssignment
  patched : List LiteralPatch

namespace LiteralUpdate

def ofCalls (calls : List Call) : LiteralUpdate :=
  ⟨calls.filterMap Call.assigned?, calls.filterMap Call.patched?⟩

def assignedColumns (update : LiteralUpdate) : List String :=
  (update.assigned.map LiteralAssignment.column).eraseDups

def patchedPaths (update : LiteralUpdate) : List (String × JsonPath) :=
  (update.patched.map fun patch => (patch.column, patch.path)).eraseDups

/-- The assigned columns, and behind them those that are only patched. -/
def columns (update : LiteralUpdate) : List String :=
  update.assignedColumns ++
    ((update.patched.map LiteralPatch.column).filter fun column =>
      column ∉ update.assigned.map LiteralAssignment.column).eraseDups

/-- The last assignment of a column, if there is one, and the first patch at
each of its paths. -/
def literalsOf (update : LiteralUpdate) (column : String) : List TypedLiteral :=
  (update.assigned.findRev? fun assignment => assignment.column = column).toList.map
      LiteralAssignment.literal ++
    ((update.patched.filter fun patch => patch.column = column).eraseDupsBy
      fun a b => a.path == b.path).flatMap LiteralPatch.literals

def literals (update : LiteralUpdate) : List TypedLiteral :=
  update.columns.flatMap update.literalsOf

end LiteralUpdate

/-! ## Constants with a type are bound -/

/-- A constant that is bound as one literal, at any position. -/
structure Constant.BindsAs (constant : Constant) (literal : TypedLiteral) : Prop where
  slots : constant.slots = 1
  binding : ∀ position, Binding.ofConstant position constant =
    .ok [⟨position, literal.value, literal.type⟩]

namespace Constant

theorem bindsAs_typedNull (type : SqlType) : (typedNull type).BindsAs ⟨.null, type⟩ :=
  ⟨rfl, fun _ => rfl⟩

theorem bindsAs_typed (value : Document) (type : SqlType) :
    (typed value type).BindsAs ⟨.scalar value, type⟩ :=
  ⟨rfl, fun _ => rfl⟩

theorem bindsAs_typedArray (items : List Document) {type : SqlType} (harray : type.isArray = true) :
    (typedArray items type).BindsAs ⟨.array items, type⟩ := by
  cases type with
  | array element => exact ⟨rfl, fun _ => rfl⟩
  | _ => cases harray

theorem bindsAs_ofLiteral (type : SqlType) (value : Document) :
    (ofLiteral type value).BindsAs ⟨.ofLiteral type value, type⟩ := by
  cases value with
  | null => exact bindsAs_typedNull type
  | array items =>
      rw [ofLiteral, BoundValue.ofLiteral]
      by_cases harray : type.isArray = true
      · rw [if_pos harray, if_pos harray]
        exact bindsAs_typedArray items harray
      · rw [if_neg harray, if_neg harray]
        exact bindsAs_typed (.array items) type
  | _ => exact bindsAs_typed _ type

end Constant

namespace Binding

def ofLiterals (position : Nat) (literals : List TypedLiteral) : List Binding :=
  (literals.zipIdx position).map fun (literal, index) => ⟨index, literal.value, literal.type⟩

theorem ofConstantsFrom_eq_ok {constants : List Constant} {literals : List TypedLiteral}
    (h : List.Forall₂ Constant.BindsAs constants literals) (position : Nat) :
    ofConstantsFrom position constants = .ok (ofLiterals position literals) := by
  induction h generalizing position with
  | nil => rfl
  | cons hfirst _ ih =>
      rw [ofConstantsFrom_cons, hfirst.binding, hfirst.slots, ih]
      rfl

end Binding

theorem Statement.bind_eq_ok {statement : Statement} {literals : List TypedLiteral}
    (h : List.Forall₂ Constant.BindsAs statement.parameters literals) :
    statement.bind = .ok ⟨statement.sql, Binding.ofLiterals 1 literals⟩ := by
  rw [bind, Binding.ofConstants, Binding.ofConstantsFrom_eq_ok h]
  rfl

/-! ## The constants of a lowered update -/

def Assignment.constants (assignment : Assignment) : List Constant :=
  assignment.value.constants

/-- The constants that a patch adds to those it is put around. -/
def Patch.constants (patch : Patch) : List Constant :=
  .textArray patch.path :: patch.value.constants

theorem Patch.constants_wrap (patch : Patch) (current : Expr) :
    (patch.wrap current).constants = current.constants ++ patch.constants := by
  rw [wrap, Expr.constants, Expr.constantsAll_eq_flatMap]
  simp [Expr.constants, Expr.pathOperand, constants]

namespace Update

theorem constants_patched (patches : List Patch) (base : Assignment) :
    (patches.foldl Assignment.patched base).constants =
      base.constants ++ patches.flatMap Patch.constants := by
  induction patches generalizing base with
  | nil => simp
  | cons patch patches ih =>
      have hfirst : (base.patched patch).constants = base.constants ++ patch.constants :=
        patch.constants_wrap base.value
      rw [List.foldl_cons, ih, hfirst, List.flatMap_cons, List.append_assoc]

/-- A column that is never assigned starts from itself, which has no
constants. -/
theorem constants_final? (assignments : List Assignment) (patches : List Patch)
    (key : List String) :
    (final? assignments patches key).elim [] Assignment.constants =
      (assignments.findRev? fun assignment => assignment.key = key).elim [] Assignment.constants ++
        (layers patches key).flatMap Patch.constants := by
  rw [final?, base?]
  cases assignments.findRev? fun assignment => assignment.key = key with
  | some assignment => exact constants_patched _ assignment
  | none =>
      cases hfind : patches.find? fun patch => patch.key = key with
      | some patch => exact constants_patched _ patch.column
      | none =>
          -- neither assigned nor patched, so there is nothing on either side
          have hfilter : (patches.filter fun patch => patch.key = key) = [] := by
            rw [← List.head?_eq_none_iff, List.head?_filter, hfind]
          rw [layers, hfilter]
          rfl

theorem constants_lowered {table : String} {assignments lowered : List Assignment}
    {patches : List Patch} (h : (collected table assignments patches).lower = .ok lowered) :
    lowered.flatMap Assignment.constants =
      (columnOrder assignments patches).flatMap fun key =>
        (final? assignments patches key).elim [] Assignment.constants := by
  have hcolumns := map_column? (nodup_columnKeys_lowered h)
  calc lowered.flatMap Assignment.constants
      = (lowered.map some).flatMap fun found => found.elim [] Assignment.constants := by
        rw [List.flatMap_map]
        rfl
    _ = (columnKeys lowered).flatMap fun key =>
          (column? lowered key).elim [] Assignment.constants := by
        rw [← hcolumns, List.flatMap_map]
    _ = _ := by
        simp only [columnKeys_lowered h, column?_lowered h]

end Update

/-! ## The number of constants -/

theorem Patch.length_constants_mergeInto {patch : Patch} {assignments merged : List Assignment}
    (h : patch.mergeInto assignments = .ok merged) :
    (merged.flatMap Assignment.constants).length =
      (assignments.flatMap Assignment.constants).length + patch.constants.length := by
  have hwrap : ∀ current, (patch.wrap current).constants.length =
      current.constants.length + patch.constants.length := by
    intro current
    rw [constants_wrap, List.length_append]
  induction assignments generalizing merged with
  | nil =>
      obtain ⟨value, haround, rfl⟩ := mergeInto_nil_eq_ok.1 h
      obtain ⟨-, rfl⟩ := around_eq_ok.1 haround
      rw [List.flatMap_singleton, Assignment.constants, hwrap]
      simp [Expr.constants]
  | cons assignment rest ih =>
      rcases mergeInto_cons_eq_ok.1 h with
        ⟨-, value, haround, rfl⟩ | ⟨-, others, hothers, rfl⟩
      · obtain ⟨-, rfl⟩ := around_eq_ok.1 haround
        simp only [List.flatMap_cons, List.length_append, Assignment.constants, hwrap]
        omega
      · simp only [List.flatMap_cons, List.length_append, ih hothers]
        omega

namespace Update

theorem length_constants_merged {patches : List Patch} {start merged : List Assignment}
    (hpatches : ∀ patch ∈ patches, patch.constants.length = 2)
    (h : patches.foldlM (fun assignments patch => patch.mergeInto assignments) start =
      .ok merged) :
    (merged.flatMap Assignment.constants).length =
      (start.flatMap Assignment.constants).length + 2 * patches.length := by
  induction patches generalizing start with
  | nil =>
      cases h
      simp
  | cons patch patches ih =>
      obtain ⟨hpatch, hothers⟩ := List.forall_mem_cons.1 hpatches
      obtain ⟨next, hnext, hrest⟩ := foldlM_cons_eq_ok.1 h
      rw [ih hothers hrest, Patch.length_constants_mergeInto hnext, hpatch, List.length_cons]
      omega

theorem length_constants_assigned {assignments : List Assignment}
    (h : ∀ assignment ∈ assignments, assignment.constants.length = 1) :
    (assignments.flatMap Assignment.constants).length = assignments.length := by
  induction assignments with
  | nil => rfl
  | cons assignment rest ih =>
      obtain ⟨hfirst, hrest⟩ := List.forall_mem_cons.1 h
      rw [List.flatMap_cons, List.length_append, hfirst, ih hrest, List.length_cons]
      omega

theorem length_constants_lowered {table : String} {assignments lowered : List Assignment}
    {patches : List Patch} (hassignments : ∀ assignment ∈ assignments,
      assignment.constants.length = 1) (hpatches : ∀ patch ∈ patches, patch.constants.length = 2)
    (h : (collected table assignments patches).lower = .ok lowered) :
    (lowered.flatMap Assignment.constants).length =
      (columnKeys assignments).eraseDups.length +
        2 * (patches.eraseDupsBy Patch.sameKey).length := by
  have hkept : ∀ patch ∈ (collected table assignments patches).patches,
      patch.constants.length = 2 := by
    intro patch hmem
    exact hpatches patch ((mem_of_mem_foldl_addNew hmem).resolve_left List.not_mem_nil)
  have hplaced : ∀ assignment ∈ (collected table assignments patches).assignments,
      assignment.constants.length = 1 := by
    intro assignment hmem
    have hadded := (Assignment.mem_of_mem_placed hmem).resolve_left List.not_mem_nil
    exact hassignments assignment hadded
  have hcolumns : (collected table assignments patches).assignments.length =
      (columnKeys assignments).eraseDups.length := by
    have hkeys : columnKeys (collected table assignments patches).assignments =
        (columnKeys assignments).eraseDups :=
      (columnKeys_placed assignments []).trans (foldl_addNew_nil _)
    rw [← hkeys, columnKeys, List.length_map]
  have hpatched : (collected table assignments patches).patches =
      patches.eraseDupsBy Patch.sameKey :=
    foldl_addNew_nil patches
  rw [length_constants_merged hkept (lower_eq_ok.1 h).2, length_constants_assigned hplaced,
    hcolumns, hpatched]

end Update

/-! ## What the calls leave in an update -/

structure Assignment.BindsAs (assignment : Assignment) (literal : LiteralAssignment) : Prop where
  key : assignment.key = [literal.column]
  value : ∃ constant, assignment.value = .constant constant ∧ constant.BindsAs literal.literal

structure Patch.BindsAs (patch : Patch) (literal : LiteralPatch) : Prop where
  key : patch.key = [literal.column]
  path : patch.path = literal.path
  value : patch.value = Expr.jsonOperand literal.value

theorem Assignment.BindsAs.constants {assignment : Assignment} {literal : LiteralAssignment}
    (h : assignment.BindsAs literal) :
    List.Forall₂ Constant.BindsAs assignment.constants [literal.literal] := by
  obtain ⟨constant, hvalue, hconstant⟩ := h.value
  rw [Assignment.constants, hvalue]
  exact .cons hconstant .nil

theorem Patch.BindsAs.constants {patch : Patch} {literal : LiteralPatch}
    (h : patch.BindsAs literal) :
    List.Forall₂ Constant.BindsAs patch.constants literal.literals := by
  rw [Patch.constants, h.path, h.value]
  have hpath : (Constant.textArray literal.path).BindsAs
      ⟨.array (literal.path.map .string), .array .text⟩ :=
    Constant.bindsAs_typedArray _ rfl
  have hvalue : (Constant.jsonb literal.value).BindsAs ⟨.scalar literal.value, .jsonb⟩ :=
    Constant.bindsAs_typed literal.value .jsonb
  exact .cons hpath (.cons hvalue .nil)

namespace Change

theorem setJsonAt_eq_ok {column : Column} {inputs : List String} {value : Document}
    {change : Change} (h : setJsonAt column inputs value = .ok change) :
    ∃ path, JsonPath.ofInputs inputs = .ok path ∧
      change = .patch ⟨column.ref, path, Expr.jsonOperand value⟩ := by
  obtain ⟨path, hpath, h⟩ := bind_eq_ok.1 h
  obtain ⟨patch, hpatch, h⟩ := bind_eq_ok.1 h
  cases h
  obtain ⟨rfl, -⟩ := Patch.of_eq_ok hpatch
  exact ⟨path, mapError_eq_ok.1 hpath, rfl⟩

end Change

namespace Call

structure Makes (change : Change) (call : Call) : Prop where
  assigned : Option.Rel Assignment.BindsAs change.assignment? call.assigned?
  patched : Option.Rel Patch.BindsAs change.patch? call.patched?

theorem makes_set {call : Call} {column : Column} {constant : Constant} {literal : TypedLiteral}
    (hassigned : call.assigned? = some ⟨column.name, literal⟩) (hpatched : call.patched? = none)
    (hconstant : constant.BindsAs literal) : Makes (.set column (.constant constant)) call := by
  constructor
  · rw [hassigned]
    exact .some ⟨rfl, constant, rfl, hconstant⟩
  · rw [hpatched]
    exact .none

theorem makes_setJsonAt {call : Call} {column : Column} {inputs : List String} {value : Document}
    {change : Change} (h : Change.setJsonAt column inputs value = .ok change)
    (hassigned : call.assigned? = none)
    (hpatched : call.patched? =
      (JsonPath.ofInputs inputs).toOption.map fun path => ⟨column.name, path, value⟩) :
    Makes change call := by
  obtain ⟨path, hpath, rfl⟩ := Change.setJsonAt_eq_ok h
  constructor
  · rw [hassigned]
    exact .none
  · rw [hpatched, hpath]
    exact .some ⟨rfl, rfl, rfl⟩

theorem IsLiteral.makes {call : Call} (hcall : call.IsLiteral) {change : Change}
    (h : call.change = .ok change) : Makes change call := by
  cases call with
  | setNull column =>
      cases h
      exact makes_set rfl rfl (Constant.bindsAs_typedNull column.type)
  | setValue column value =>
      cases h
      rw [Change.setValue_eq]
      exact makes_set rfl rfl (Constant.bindsAs_ofLiteral column.type value)
  | setTyped column value type =>
      cases h
      exact makes_set rfl rfl (Constant.bindsAs_typed value type)
  | setJson column path value => exact makes_setJsonAt h rfl rfl
  | setJsonAt column inputs value => exact makes_setJsonAt h rfl rfl
  | _ => cases hcall

end Call

/-! ## Columns and literals of an update -/

theorem rel_findRev? {α β : Type} {R : α → β → Prop} {p : α → Bool} {q : β → Bool}
    (hpq : ∀ a b, R a b → p a = q b) {as : List α} {bs : List β} (h : List.Forall₂ R as bs) :
    Option.Rel R (as.findRev? p) (bs.findRev? q) := by
  induction h with
  | nil => exact .none
  | @cons a b as bs hfirst _ ih =>
      rw [List.findRev?, List.findRev?]
      generalize as.findRev? p = last, bs.findRev? q = last' at ih ⊢
      cases ih with
      | some hlast => exact .some hlast
      | none =>
          simp only [hpq a b hfirst]
          split
          · exact .some hfirst
          · exact .none

def IsKeyOf (key : List String) (column : String) : Prop :=
  key = [column]

theorem IsKeyOf.beq_eq {key : List String} {column : String} (h : IsKeyOf key column)
    {other : List String} {name : String} (hother : IsKeyOf other name) :
    (key == other) = (column == name) := by
  rw [h, hother, Bool.eq_iff_iff]
  simp

namespace LiteralUpdate

variable {assignments : List Assignment} {patches : List Patch} {update : LiteralUpdate}
  (hassigned : List.Forall₂ Assignment.BindsAs assignments update.assigned)
  (hpatched : List.Forall₂ Patch.BindsAs patches update.patched)

section

include hassigned

theorem keys_assigned :
    List.Forall₂ IsKeyOf (columnKeys assignments)
      (update.assigned.map LiteralAssignment.column) :=
  List.rel_map (fun _ _ h => h.key) hassigned

theorem keys_assignedColumns :
    List.Forall₂ IsKeyOf (columnKeys assignments).eraseDups update.assignedColumns :=
  rel_eraseDupsBy (fun _ _ h _ _ hother => h.beq_eq hother) (keys_assigned hassigned)

end

include hpatched

theorem length_patchedPaths :
    (patches.eraseDupsBy Patch.sameKey).length = update.patchedPaths.length := by
  have hpaths : List.Forall₂ (fun (patch : Patch) (entry : String × JsonPath) =>
      patch.key = [entry.1] ∧ patch.path = entry.2) patches
      (update.patched.map fun patch => (patch.column, patch.path)) :=
    List.forall₂_map_right_iff.2 (hpatched.imp fun _ _ h => ⟨h.key, h.path⟩)
  refine (rel_eraseDupsBy ?_ hpaths).length_eq
  rintro patch ⟨column, path⟩ ⟨hkey, rfl⟩ other ⟨name, path⟩ ⟨hother, rfl⟩
  have hkeys : (patch.target.segments == other.target.segments) = (column == name) :=
    IsKeyOf.beq_eq hkey hother
  rw [Patch.sameKey, hkeys]
  rfl

include hassigned

theorem keys_columns :
    List.Forall₂ IsKeyOf (Update.columnOrder assignments patches) update.columns := by
  have hkeys := keys_assigned hassigned
  have hunique : Relator.BiUnique IsKeyOf := by
    constructor
    · intro key column other h hother
      rw [h, hother]
    · intro key column other h hother
      have hsame : [column] = [other] := h.symm.trans hother
      exact List.head_eq_of_cons_eq hsame
  have hothers : List.Forall₂ IsKeyOf
      ((patches.map Patch.key).filter fun key => key ∉ columnKeys assignments)
      ((update.patched.map LiteralPatch.column).filter fun column =>
        column ∉ update.assigned.map LiteralAssignment.column) := by
    refine List.rel_filter (fun key column h => ?_) (List.rel_map (fun _ _ h => h.key) hpatched)
    simp only [decide_eq_true_iff]
    exact not_congr (List.rel_mem hunique h hkeys)
  exact List.rel_append (keys_assignedColumns hassigned)
    (rel_eraseDupsBy (fun _ _ h _ _ hother => h.beq_eq hother) hothers)

/-- The constants of the final value of a column are bound as the literals that
the calls leave for it. -/
theorem final?_bindsAs {key : List String} {column : String} (hkey : IsKeyOf key column) :
    List.Forall₂ Constant.BindsAs
      ((Update.final? assignments patches key).elim [] Assignment.constants)
      (update.literalsOf column) := by
  have hlayers : List.Forall₂ Patch.BindsAs (Update.layers patches key)
      ((update.patched.filter fun patch => patch.column = column).eraseDupsBy
        fun a b => a.path == b.path) := by
    refine rel_eraseDupsBy (fun _ _ h _ _ hother => by rw [h.path, hother.path]) ?_
    refine List.rel_filter (fun patch literal h => ?_) hpatched
    have hcolumn : patch.key = key ↔ literal.column = column := by
      rw [h.key, hkey]
      simp
    simpa only [decide_eq_true_iff] using hcolumn
  have hlast := rel_findRev? (p := fun assignment => assignment.key = key)
    (q := fun assignment => assignment.column = column)
    (fun assignment literal h => by rw [h.key, hkey]; simp) hassigned
  rw [Update.constants_final?, literalsOf]
  refine List.rel_append ?_ (List.rel_flatMap hlayers fun _ _ h => h.constants)
  generalize assignments.findRev? _ = last, update.assigned.findRev? _ = last' at hlast ⊢
  cases hlast with
  | some hassignment => exact hassignment.constants
  | none => exact .nil

theorem lowered_bindsAs {table : String} {lowered : List Assignment}
    (hlower : (Update.collected table assignments patches).lower = .ok lowered) :
    List.Forall₂ Constant.BindsAs (lowered.flatMap Assignment.constants) update.literals := by
  rw [Update.constants_lowered hlower, literals]
  exact List.rel_flatMap (keys_columns hassigned hpatched) fun _ _ hkey =>
    final?_bindsAs hassigned hpatched hkey

theorem length_literals {table : String} {lowered : List Assignment}
    (hlower : (Update.collected table assignments patches).lower = .ok lowered) :
    update.literals.length = update.assignedColumns.length + 2 * update.patchedPaths.length := by
  have hone : ∀ assignment ∈ assignments, assignment.constants.length = 1 :=
    forall_mem_of_forall₂ (hassigned.flip.imp fun _ _ h => h.constants.length_eq)
  have htwo : ∀ patch ∈ patches, patch.constants.length = 2 :=
    forall_mem_of_forall₂ (hpatched.flip.imp fun _ _ h => h.constants.length_eq)
  rw [← (lowered_bindsAs hassigned hpatched hlower).length_eq,
    Update.length_constants_lowered hone htwo hlower, length_patchedPaths hpatched,
    (keys_assignedColumns hassigned).length_eq]

end LiteralUpdate

theorem Call.IsLiteral.wellFormed {call : Call} (h : call.IsLiteral) : call.WellFormed := by
  cases call <;> trivial

namespace Dialect

/-- An update made by calls with literals that can be lowered is compiled and
bound.  Its bindings are the literals of the calls at consecutive positions, one
for each assigned column and two for each patched path. -/
theorem postgres_bind_literals (style : Placeholder) {table : String} {calls : List Call}
    (hcalls : ∀ call ∈ calls, call.IsLiteral) {update : Update} {lowered : List Assignment}
    (hupdate : Update.ofCalls table calls = .ok update) (hlower : update.lower = .ok lowered) :
    let literals := LiteralUpdate.ofCalls calls
    ∃ statement bound, postgres.compileUpdate style update none = .ok statement ∧
      statement.bind = .ok bound ∧
      bound.bindings = Binding.ofLiterals 1 literals.literals ∧
      bound.bindings.length =
        literals.assignedColumns.length + 2 * literals.patchedPaths.length := by
  intro literals
  have hwell : update.WellFormed :=
    .ofCalls (fun call hmem => (hcalls call hmem).wellFormed) hupdate
  obtain ⟨changes, hchanges, hcollected⟩ := Update.ofCalls_eq_ok.1 hupdate
  have hmakes : List.Forall₂ Call.Makes changes calls :=
    (forall₂_imp_of_mem hchanges fun call hmem _ hchange => (hcalls call hmem).makes hchange).flip
  have hassigned : List.Forall₂ Assignment.BindsAs (Change.assignments changes)
      literals.assigned :=
    List.rel_filterMap (fun _ _ h => h.assigned) hmakes
  have hpatched : List.Forall₂ Patch.BindsAs (Change.patches changes) literals.patched :=
    List.rel_filterMap (fun _ _ h => h.patched) hmakes
  obtain rfl := Update.eq_collected_of_ofChanges hcollected
  have hfilter : ∀ condition : Expr, none = some condition →
      condition.WellFormed ∧ (condition.tag = .boolean ∨ condition.tag = .null) := by
    simp
  obtain ⟨statement, hstatement, hparameters⟩ :=
    postgres_compileUpdate_parameters style hwell hlower hfilter
  have hbinds : List.Forall₂ Constant.BindsAs statement.parameters literals.literals := by
    rw [hparameters, Option.elim_none, List.append_nil]
    exact LiteralUpdate.lowered_bindsAs hassigned hpatched hlower
  refine ⟨statement, _, hstatement, Statement.bind_eq_ok hbinds, rfl, ?_⟩
  rw [← LiteralUpdate.length_literals hassigned hpatched hlower, Binding.ofLiterals,
    List.length_map, List.length_zipIdx]

/-- An array column that ends as NULL, a document under a type that is none, and
two patches of which a third repeats one. -/
theorem postgres_bind_literals_repeated :
    let tags : Column := ⟨none, "tags", .array .text⟩
    let size : Column := ⟨some "t", "size", .numeric⟩
    let doc : Column := .jsonb "doc"
    let calls : List Call :=
      [.setValue tags (.array [.string "x"]), .setJsonAt doc ["a"] .null,
        .setTyped size (.array [.null]) .boolean, .setNull tags,
        .setJson doc "a" (.boolean true), .setJsonAt doc ["b", "c"] (.object [])]
    ∃ update lowered statement bound, Update.ofCalls "t" calls = .ok update ∧
      update.lower = .ok lowered ∧
      postgres.compileUpdate .anonymous update none = .ok statement ∧
      statement.bind = .ok bound ∧
      bound.bindings =
        [⟨1, .null, .array .text⟩, ⟨2, .scalar (.array [.null]), .boolean⟩,
          ⟨3, .array [.string "a"], .array .text⟩, ⟨4, .scalar .null, .jsonb⟩,
          ⟨5, .array [.string "b", .string "c"], .array .text⟩, ⟨6, .scalar (.object []), .jsonb⟩] ∧
      bound.bindings.length = 2 + 2 * 2 := by
  intro tags size doc calls
  have hcalls : ∀ call ∈ calls, call.IsLiteral := by
    simp [calls, Call.IsLiteral]
  obtain ⟨statement, bound, hstatement, hbound, hbindings, hlength⟩ :=
    @postgres_bind_literals .anonymous "t" calls hcalls _ _ rfl rfl
  refine ⟨_, _, statement, bound, rfl, rfl, hstatement, hbound, ?_, ?_⟩
  · rw [hbindings]
    cbv
  · exact hlength

end Dialect

end JsonbAlgebra
