import JsonbAlgebra.Proofs.QuotedNames
import JsonbAlgebra.Proofs.UpdateCalls

/-!
# Empty names

A reference that is made of segments is checked to have one at least and none that is
empty.  A reference to a column takes the name of the column as it is.  So a segment is
empty only where a column without a name is referred to, and a statement has an empty
name in quotes only for such a column, for an empty owner or for an empty piece of its
table.
-/

namespace JsonbAlgebra

/-! ## References -/

namespace ColumnRef

/-- The ways to come by a reference: from segments, which are checked, or from a
column. -/
inductive Made : ColumnRef → Prop
  | segments {owner : Option String} {segments : List String} {type : SqlType} {ref : ColumnRef}
      (h : ColumnRef.of owner segments type = .ok ref) : Made ref
  | column (column : Column) : Made column.ref

theorem segments_of {owner : Option String} {segments : List String} {type : SqlType}
    {ref : ColumnRef} (h : ColumnRef.of owner segments type = .ok ref) :
    ref.segments ≠ [] ∧ "" ∉ ref.segments := by
  rw [ColumnRef.of] at h
  split at h
  · cases h
  · rename_i hsound
    cases h
    exact not_or.1 hsound

theorem empty_mem_ref {column : Column} : "" ∈ column.ref.segments ↔ column.name = "" :=
  List.mem_singleton.trans eq_comm

theorem Made.empty_mem_iff {ref : ColumnRef} (h : ref.Made) :
    "" ∈ ref.segments ↔ ∃ column : Column, column.name = "" ∧ column.ref = ref := by
  constructor
  · intro hempty
    cases h with
    | segments hchecked => exact absurd hempty (segments_of hchecked).2
    | column column => exact ⟨column, empty_mem_ref.1 hempty, rfl⟩
  · rintro ⟨column, hname, rfl⟩
    exact empty_mem_ref.2 hname

theorem empty_mem_identifiers {ref : ColumnRef} :
    "" ∈ ref.identifiers ↔ ref.owner = some "" ∨ "" ∈ ref.segments := by
  rw [identifiers, List.mem_append, Option.mem_toList]

end ColumnRef

/-- Among references that are made, an empty identifier is an empty owner or the name of
a column without one. -/
theorem empty_mem_flatMap_identifiers {refs : List ColumnRef} (h : ∀ ref ∈ refs, ref.Made) :
    "" ∈ refs.flatMap ColumnRef.identifiers ↔
      (∃ ref ∈ refs, ref.owner = some "") ∨
        ∃ column : Column, column.name = "" ∧ column.ref ∈ refs := by
  simp only [List.mem_flatMap, ColumnRef.empty_mem_identifiers, and_or_left, exists_or]
  refine or_congr_right ?_
  constructor
  · rintro ⟨ref, hmem, hempty⟩
    obtain ⟨column, hname, rfl⟩ := (h ref hmem).empty_mem_iff.1 hempty
    exact ⟨column, hname, hmem⟩
  · rintro ⟨column, hname, hmem⟩
    exact ⟨column.ref, hmem, ColumnRef.empty_mem_ref.2 hname⟩

/-! ## References in updates -/

def Assignment.columns (assignment : Assignment) : List ColumnRef :=
  assignment.target :: assignment.value.columns

def Patch.columns (patch : Patch) : List ColumnRef :=
  patch.target :: patch.value.columns

def Change.columns : Change → List ColumnRef
  | .assign change => change.columns
  | .patch change => change.columns

/-- The references that a call is given. -/
def Call.columns : Call → List ColumnRef
  | .set column value | .setJsonExpr column _ value => column.ref :: value.columns
  | .setNull column | .setValue column _ | .setTyped column _ _ | .setJson column _ _
  | .setJsonAt column _ _ => [column.ref]
  | .patch target _ value => target :: value.columns

theorem Change.columns_of_setJsonExpr {column : Column} {inputs : List String} {value : Expr}
    {change : Change} (h : setJsonExpr column inputs value = .ok change) :
    change.columns = column.ref :: value.columns := by
  obtain ⟨path, -, h⟩ := bind_eq_ok.1 h
  obtain ⟨patch, hpatch, h⟩ := bind_eq_ok.1 h
  cases h
  obtain ⟨rfl, -⟩ := Patch.of_eq_ok hpatch
  rfl

theorem Call.columns_change {call : Call} {change : Change} (h : call.change = .ok change) :
    change.columns = call.columns := by
  cases call with
  | set column value | setNull column | setTyped column value type =>
      cases h
      rfl
  | setValue column value =>
      rw [Call.change, Change.setValue_eq] at h
      cases h
      rfl
  | setJson column path value => exact Change.columns_of_setJsonExpr h
  | setJsonAt column inputs value => exact Change.columns_of_setJsonExpr h
  | setJsonExpr column inputs value => exact Change.columns_of_setJsonExpr h
  | patch target path value =>
      obtain ⟨patch, hpatch, rfl⟩ := map_eq_ok.1 h
      obtain ⟨rfl, -⟩ := Patch.of_eq_ok hpatch
      rfl

theorem Patch.columns_wrap (patch : Patch) (current : Expr) :
    (patch.wrap current).columns = current.columns ++ patch.value.columns := by
  rw [wrap, Expr.columns, Expr.columnsAll, Expr.columnsAll, Expr.columnsAll, Expr.columnsAll,
    Expr.pathOperand, Expr.columns, List.nil_append, List.append_nil]

section Lowered

variable {P : ColumnRef → Prop}

theorem Patch.mergeInto_columns {patch : Patch} {assignments merged : List Assignment}
    (hpatch : ∀ ref ∈ patch.columns, P ref) (h : patch.mergeInto assignments = .ok merged)
    (hassignments : ∀ assignment ∈ assignments, ∀ ref ∈ assignment.columns, P ref) :
    ∀ assignment ∈ merged, ∀ ref ∈ assignment.columns, P ref := by
  obtain ⟨htarget, hvalue⟩ := List.forall_mem_cons.1 hpatch
  induction assignments generalizing merged with
  | nil =>
      obtain ⟨value, haround, rfl⟩ := mergeInto_nil_eq_ok.1 h
      obtain ⟨-, rfl⟩ := around_eq_ok.1 haround
      rw [List.forall_mem_singleton, Assignment.columns, columns_wrap]
      exact List.forall_mem_cons.2 ⟨htarget,
        List.forall_mem_append.2 ⟨List.forall_mem_singleton.2 htarget, hvalue⟩⟩
  | cons assignment rest ih =>
      obtain ⟨hfirst, hrest⟩ := List.forall_mem_cons.1 hassignments
      rcases mergeInto_cons_eq_ok.1 h with ⟨-, value, haround, rfl⟩ | ⟨-, others, hothers, rfl⟩
      · obtain ⟨-, rfl⟩ := around_eq_ok.1 haround
        obtain ⟨hown, hcurrent⟩ := List.forall_mem_cons.1 hfirst
        refine List.forall_mem_cons.2 ⟨?_, hrest⟩
        rw [Assignment.columns, columns_wrap]
        exact List.forall_mem_cons.2 ⟨hown, List.forall_mem_append.2 ⟨hcurrent, hvalue⟩⟩
      · exact List.forall_mem_cons.2 ⟨hfirst, ih hothers hrest⟩

/-- What holds of all references in the changes of an update holds of those in its
lowered assignments. -/
theorem Update.columns_lowered {table : String} {changes : List Change} {update : Update}
    {lowered : List Assignment} (hchanges : ∀ change ∈ changes, ∀ ref ∈ change.columns, P ref)
    (hupdate : ofChanges table changes = .ok update) (hlower : update.lower = .ok lowered) :
    ∀ assignment ∈ lowered, ∀ ref ∈ assignment.columns, P ref := by
  obtain rfl := eq_collected_of_ofChanges hupdate
  have hassigned : ∀ assignment ∈ (collected table (Change.assignments changes)
      (Change.patches changes)).assignments, ∀ ref ∈ assignment.columns, P ref := by
    intro assignment hmem
    have hadded := (Assignment.mem_of_mem_placed hmem).resolve_left List.not_mem_nil
    exact hchanges _ (Change.mem_iff.2 (.inl ⟨assignment, hadded, rfl⟩))
  have hpatched : ∀ patch ∈ (collected table (Change.assignments changes)
      (Change.patches changes)).patches, ∀ ref ∈ patch.columns, P ref := by
    intro patch hmem
    have hadded := (mem_of_mem_foldl_addNew hmem).resolve_left List.not_mem_nil
    exact hchanges _ (Change.mem_iff.2 (.inr ⟨patch, hadded, rfl⟩))
  exact foldlM_invariant
    (fun patch hmem _ _ hmerge => patch.mergeInto_columns (hpatched patch hmem) hmerge)
    (lower_eq_ok.1 hlower).2 hassigned

end Lowered

/-! ## Statements -/

namespace Dialect

open Identifier

/-- The references that an update writes in full: those in its values and its filter. -/
def valueColumns (lowered : List Assignment) (filter : Option Expr) : List ColumnRef :=
  (lowered.flatMap fun assignment => assignment.value.columns) ++ filter.elim [] Expr.columns

theorem flatMap_valueColumns (lowered : List Assignment) (filter : Option Expr) :
    (valueColumns lowered filter).flatMap ColumnRef.identifiers =
      (lowered.flatMap fun assignment => assignment.value.names) ++ filter.elim [] Expr.names := by
  rw [valueColumns, List.flatMap_append, List.flatMap_assoc]
  cases filter <;> rfl

theorem empty_mem_updatedNames {table : String} {lowered : List Assignment}
    {filter : Option Expr}
    (hlowered : ∀ assignment ∈ lowered, ∀ ref ∈ assignment.columns, ref.Made)
    (hfilter : ∀ condition, filter = some condition → ∀ ref ∈ condition.columns, ref.Made) :
    "" ∈ updatedNames table lowered filter ↔
      "" ∈ Text.pieces table ∨ (∃ ref ∈ valueColumns lowered filter, ref.owner = some "") ∨
        ∃ column : Column, column.name = "" ∧
          (column.ref ∈ valueColumns lowered filter ∨
            ∃ assignment ∈ lowered, assignment.target = column.ref) := by
  have hvalues : ∀ ref ∈ valueColumns lowered filter, ref.Made := by
    refine List.forall_mem_append.2 ⟨fun ref href => ?_, ?_⟩
    · obtain ⟨assignment, hmem, hvalue⟩ := List.mem_flatMap.1 href
      exact hlowered assignment hmem ref (List.mem_cons_of_mem _ hvalue)
    · cases filter with
      | none => exact nofun
      | some condition => exact hfilter condition rfl
  have htargets : (∃ assignment ∈ lowered, "" ∈ assignment.target.segments) ↔
      ∃ column : Column, column.name = "" ∧
        ∃ assignment ∈ lowered, assignment.target = column.ref := by
    constructor
    · rintro ⟨assignment, hmem, hempty⟩
      have hmade := hlowered assignment hmem _ List.mem_cons_self
      obtain ⟨column, hname, href⟩ := hmade.empty_mem_iff.1 hempty
      exact ⟨column, hname, assignment, hmem, href.symm⟩
    · rintro ⟨column, hname, assignment, hmem, href⟩
      exact ⟨assignment, hmem, href ▸ ColumnRef.empty_mem_ref.2 hname⟩
  have hsplit : "" ∈ updatedNames table lowered filter ↔ "" ∈ Text.pieces table ∨
      (∃ assignment ∈ lowered, "" ∈ assignment.target.segments) ∨
        "" ∈ (valueColumns lowered filter).flatMap ColumnRef.identifiers := by
    rw [flatMap_valueColumns, updatedNames]
    simp only [List.mem_append, List.mem_flatMap, assignedNames, and_or_left, exists_or, or_assoc]
  rw [hsplit, htargets, empty_mem_flatMap_identifiers hvalues]
  simp only [and_or_left, exists_or]
  exact or_congr_right (or_comm.trans or_assoc)

/-- A reference that is made of segments has one at least and none that is empty, and a
reference to a column has an empty segment exactly if the column has no name.  A statement
has an empty name in quotes for an empty owner, for an empty piece of its table and for a
column without a name, and for nothing else; the references that an update writes are
those that its calls and its filter were given. -/
theorem empty_names_written (style : Placeholder) (column : Column) :
    (∀ owner segments type ref, ColumnRef.of owner segments type = .ok ref →
      ref.segments ≠ [] ∧ "" ∉ ref.segments) ∧
    (column.ref.segments ≠ [] ∧ "" ∉ column.ref.segments ↔ column.name ≠ "") ∧
    (∀ e statement, e.WellFormed → (∀ ref ∈ e.columns, ref.Made) →
      postgres.compile style e = .ok statement →
      ("" ∈ quotedNames statement.sql.toList ↔
        (∃ ref ∈ e.columns, ref.owner = some "") ∨
          ∃ unnamed : Column, unnamed.name = "" ∧ unnamed.ref ∈ e.columns)) ∧
    ∀ table calls filter update statement,
      (∀ call ∈ calls, call.WellFormed ∧ ∀ ref ∈ call.columns, ref.Made) →
      (∀ condition, filter = some condition →
        condition.WellFormed ∧ ∀ ref ∈ condition.columns, ref.Made) →
      Update.ofCalls table calls = .ok update →
      postgres.compileUpdate style update filter = .ok statement →
      ∃ lowered, update.lower = .ok lowered ∧
        (∀ assignment ∈ lowered, ∀ ref ∈ assignment.columns,
          ∃ call ∈ calls, ref ∈ call.columns) ∧
        ("" ∈ quotedNames statement.sql.toList ↔
          "" ∈ Text.pieces table ∨ (∃ ref ∈ valueColumns lowered filter, ref.owner = some "") ∨
            ∃ unnamed : Column, unnamed.name = "" ∧
              (unnamed.ref ∈ valueColumns lowered filter ∨
                ∃ assignment ∈ lowered, assignment.target = unnamed.ref)) := by
  refine ⟨fun _ _ _ _ => ColumnRef.segments_of, ?_, ?_, ?_⟩
  · rw [ColumnRef.empty_mem_ref]
    exact and_iff_right (List.cons_ne_nil _ _)
  · intro e statement he hmade h
    rw [quotedNames_compile he h, empty_mem_notPlain, Expr.names,
      empty_mem_flatMap_identifiers hmade]
  · intro table calls filter update statement hcalls hfilter hupdate h
    obtain ⟨draft, hdraft, -⟩ := compileUpdate_eq_ok.1 h
    obtain ⟨lowered, -, -, hlower, -⟩ := draftUpdate_eq_ok.1 hdraft
    obtain ⟨changes, hchanges, hchanged⟩ := Update.ofCalls_eq_ok.1 hupdate
    have hwell := Update.WellFormed.ofCalls (fun call hmem => (hcalls call hmem).1) hupdate
    have hgiven : ∀ change ∈ changes, ∀ ref ∈ change.columns,
        ∃ call ∈ calls, ref ∈ call.columns := by
      refine forall_mem_of_forall₂ (forall₂_imp_of_mem hchanges ?_)
      intro call hmem change hchange ref href
      exact ⟨call, hmem, Call.columns_change hchange ▸ href⟩
    have hwritten := Update.columns_lowered hgiven hchanged hlower
    have hmade : ∀ assignment ∈ lowered, ∀ ref ∈ assignment.columns, ref.Made := by
      intro assignment hmem ref href
      obtain ⟨call, hcall, href⟩ := hwritten assignment hmem ref href
      exact (hcalls call hcall).2 ref href
    have htable : update.table = table := by rw [Update.eq_collected_of_ofChanges hchanged]; rfl
    refine ⟨lowered, hlower, hwritten, ?_⟩
    rw [quotedNames_compileUpdate hwell (fun condition hsome => (hfilter condition hsome).1)
      hlower h, empty_mem_notPlain, htable, empty_mem_updatedNames hmade
        fun condition hsome => (hfilter condition hsome).2]

/-- Names with quotes and blanks in them, but none that is empty. -/
theorem empty_names_written_none :
    let column : Column := ⟨some "t", "a\"\" b", .jsonb⟩
    let e : Expr := .ofColumn column
    let update : Update := ⟨"t", [⟨column.ref, .constant (.typedNull .jsonb)⟩], []⟩
    ColumnRef.of none ["a", "b"] .text = .ok ⟨none, ["a", "b"], .text⟩ ∧
      column.ref.Made ∧ postgres.compile .numbered e = .ok ⟨"t.\"a\"\"\"\" b\"", []⟩ ∧
      "" ∉ quotedNames "t.\"a\"\"\"\" b\"".toList ∧
      Update.ofCalls "t" [.setNull column] = .ok update ∧
      postgres.compileUpdate .numbered update none =
        .ok ⟨"UPDATE t SET \"a\"\"\"\" b\" = $1", [.typedNull .jsonb]⟩ ∧
      "" ∉ quotedNames "UPDATE t SET \"a\"\"\"\" b\" = $1".toList := by
  intro column e update
  have hmade : column.ref.Made := .column column
  have hstatement : postgres.compile .numbered e = .ok ⟨"t.\"a\"\"\"\" b\"", []⟩ := by
    unfold e column
    rfl
  have hupdate : Update.ofCalls "t" [.setNull column] = .ok update := rfl
  have hwhole : postgres.compileUpdate .numbered update none =
      .ok ⟨"UPDATE t SET \"a\"\"\"\" b\" = $1", [.typedNull .jsonb]⟩ := by
    unfold update column
    rfl
  have hfilter : ∀ condition : Expr, none = some condition →
      condition.WellFormed ∧ ∀ ref ∈ condition.columns, ref.Made := by
    intro condition hnone
    cases hnone
  obtain ⟨-, -, hexpr, hupdates⟩ := empty_names_written .numbered column
  refine ⟨rfl, hmade, hstatement, ?_, hupdate, hwhole, ?_⟩
  · rw [hexpr e _ trivial (List.forall_mem_singleton.2 hmade) hstatement]
    rintro (⟨ref, href, howner⟩ | ⟨other, hname, hother⟩)
    · obtain rfl := List.mem_singleton.1 href
      simp [column, Column.ref] at howner
    · have hsame := congrArg ColumnRef.segments (List.mem_singleton.1 hother)
      simp [column, Column.ref, hname] at hsame
  · obtain ⟨lowered, hlower, -, hempty⟩ := hupdates "t" [.setNull column] none update _
      (List.forall_mem_singleton.2 ⟨trivial, List.forall_mem_singleton.2 hmade⟩) hfilter hupdate
      hwhole
    cases hlower
    rw [hempty]
    rintro (hpiece | ⟨_, ⟨⟩, _⟩ | ⟨other, hname, ⟨⟨⟩⟩ | ⟨assignment, hmem, hother⟩⟩)
    · revert hpiece
      decide +kernel
    · obtain rfl := List.mem_singleton.1 hmem
      have hsame := congrArg ColumnRef.segments hother
      simp [column, Column.ref, hname] at hsame

/-- A column without a name is written as two quotes, where segments are refused. -/
theorem empty_name_of_column :
    let column : Column := .jsonb ""
    let update : Update := ⟨"t", [⟨column.ref, .constant (.typedNull .jsonb)⟩], []⟩
    ColumnRef.of none [""] .jsonb = .error (.path .emptyReference) ∧
      column.ref.segments = [""] ∧
      postgres.compile .numbered (.ofColumn column) = .ok ⟨"\"\"", []⟩ ∧
      "" ∈ quotedNames "\"\"".toList ∧
      Update.ofCalls "t" [.setNull column] = .ok update ∧
      postgres.compileUpdate .numbered update none =
        .ok ⟨"UPDATE t SET \"\" = $1", [.typedNull .jsonb]⟩ := by
  intro column update
  have hstatement : postgres.compile .numbered (.ofColumn column) = .ok ⟨"\"\"", []⟩ := by
    unfold column
    rfl
  have hwhole : postgres.compileUpdate .numbered update none =
      .ok ⟨"UPDATE t SET \"\" = $1", [.typedNull .jsonb]⟩ := by
    unfold update column
    rfl
  have hnames := quotedNames_compile (Expr.wellFormed_column column.ref) hstatement
  refine ⟨rfl, rfl, hstatement, ?_, rfl, hwhole⟩
  rw [hnames, empty_mem_notPlain]
  exact List.mem_singleton.2 rfl

end Dialect

end JsonbAlgebra
