import JsonbAlgebra.Evaluation
import JsonbAlgebra.Proofs.UpdateLowering

/-!
# Lowered updates evaluate by applying the patches

Lowering nests one SET operation for each patch of a column around the base of
the column.  Evaluating the nest amounts to applying the patches one after
another, from the innermost to the outermost, to the datum of the base.  The
value of every patch is taken on the row as it was before the update, because
only the first operand of a SET operation holds earlier patches.
-/

namespace JsonbAlgebra

namespace Patch

/-- The datum of a column after a patch with some value.  NULL on either side
gives NULL, and then both sides have to be documents. -/
def putInto (patch : Patch) (current value : Datum) : Outcome :=
  match current, value with
  | .null, _ => .ok .null
  | _, .null => .ok .null
  | .json document, .json part => Operator.editing (document.setPath patch.path part)
  | .json _, other => .error (.operand .set .json other.kind)
  | other, _ => .error (.operand .set .json other.kind)

theorem putInto_null (patch : Patch) {current value : Datum}
    (h : current.isNull = true ∨ value.isNull = true) :
    patch.putInto current value = .ok .null := by
  rcases h with hcurrent | hvalue
  · cases current <;> cases hcurrent
    rfl
  · cases value <;> cases hvalue
    cases current <;> rfl

theorem strict_set (patch : Patch) {current value : Datum}
    (hcurrent : current.isNull = false) (hvalue : value.isNull = false) :
    Operator.strict .set [current, .array (patch.path.map .string), value] =
      patch.putInto current value := by
  have hsteps :
      Datum.path? .set (.array (patch.path.map .string)) = .ok patch.path :=
    congrArg Except.ok (Document.map_plainText_string patch.path)
  cases current with
  | null => cases hcurrent
  | json document =>
      rw [Operator.strict, hsteps]
      cases value with
      | null => cases hvalue
      | _ => rfl
  | _ =>
      cases value with
      | null => cases hvalue
      | _ => rfl

/-- One SET operation is one patch, and the patch's value does not depend on
what is below it. -/
theorem evaluate_wrap (patch : Patch) (current : Expr) (row : Row) {value : Datum}
    (hvalue : patch.value.evaluate row = .ok value) :
    (patch.wrap current).evaluate row =
      current.evaluate row >>= fun datum => patch.putInto datum value := by
  have hpath :
      (Expr.pathOperand patch.path).evaluate row = .ok (.array (patch.path.map .string)) :=
    rfl
  simp only [wrap, Expr.evaluate, Expr.evaluateAll, hpath, hvalue]
  cases hcurrent : current.evaluate row with
  | error fault => rfl
  | ok datum =>
      change (if [datum, .array (patch.path.map .string), value].any Datum.isNull
        then (.ok .null : Outcome)
        else Operator.strict .set [datum, .array (patch.path.map .string), value]) =
          patch.putInto datum value
      have hsteps : (Datum.array (patch.path.map .string)).isNull = false := rfl
      by_cases hnull : datum.isNull = true ∨ value.isNull = true
      · have hany : [datum, .array (patch.path.map .string), value].any Datum.isNull = true := by
          simpa [hsteps] using hnull
        rw [if_pos hany, patch.putInto_null hnull]
      · have hpresent :
            ¬ [datum, .array (patch.path.map .string), value].any Datum.isNull = true := by
          simpa [hsteps] using hnull
        rw [if_neg hpresent]
        exact patch.strict_set (by simpa using fun h => hnull (.inl h))
          (by simpa using fun h => hnull (.inr h))

/-- The values of patches, each taken on the given row. -/
def ValuesOn (row : Row) (patches : List Patch) (values : List Datum) : Prop :=
  List.Forall₂ (fun patch value => patch.value.evaluate row = .ok value) patches values

/-- Applies patches with their values from the first to the last; the first
failure ends it. -/
def putAll (patches : List (Patch × Datum)) (start : Datum) : Outcome :=
  patches.foldlM (fun current entry => entry.1.putInto current entry.2) start

theorem evaluate_foldl_wrap {row : Row} {patches : List Patch} {values : List Datum}
    (hvalues : ValuesOn row patches values) (base : Expr) :
    (patches.foldl (fun current patch => patch.wrap current) base).evaluate row =
      base.evaluate row >>= putAll (patches.zip values) := by
  induction hvalues generalizing base with
  | nil =>
      rw [List.foldl_nil, List.zip_nil_left]
      exact (bind_pure (base.evaluate row)).symm
  | @cons patch value patches values hvalue _ ih =>
      have hfirst := patch.evaluate_wrap base row hvalue
      rw [List.foldl_cons, ih, hfirst, List.zip_cons_cons, bind_assoc]
      rfl

end Patch

theorem Assignment.foldl_patched (patches : List Patch) (assignment : Assignment) :
    patches.foldl Assignment.patched assignment =
      { assignment with
        value := patches.foldl (fun current patch => patch.wrap current) assignment.value } := by
  induction patches generalizing assignment with
  | nil => rfl
  | cons patch patches ih => exact ih (assignment.patched patch)

namespace Update

/-- The patches of a column that an update has kept, in their order. -/
def patchesOf (update : Update) (key : List String) : List Patch :=
  update.patches.filter fun patch => patch.key = key

/-- What the patches of a column start from: the assigned expression, or else
the column itself. -/
def baseOf (update : Update) (target : ColumnRef) : Expr :=
  match column? update.assignments target.segments with
  | some assignment => assignment.value
  | none => .column target

theorem baseOf_eq {update : Update} {key : List String} {base : Assignment}
    (hbase : (column? update.assignments key).or
      ((update.patches.find? fun patch => patch.key = key).map Patch.column) = some base)
    (hkey : base.key = key) : update.baseOf base.target = base.value := by
  have hsegments : base.target.segments = key := hkey
  rw [baseOf, hsegments]
  cases hassigned : column? update.assignments key with
  | some assignment =>
      rw [hassigned, Option.some_or, Option.some.injEq] at hbase
      exact congrArg Assignment.value hbase
  | none =>
      rw [hassigned, Option.none_or, Option.map_eq_some_iff] at hbase
      obtain ⟨patch, -, rfl⟩ := hbase
      rfl

/-- A lowered column is its base with its patches around it. -/
theorem lowered_value {table : String} {changes : List Change} {update : Update}
    {lowered : List Assignment} (hupdate : ofChanges table changes = .ok update)
    (hlower : update.lower = .ok lowered) {assignment : Assignment}
    (hmem : assignment ∈ lowered) :
    assignment.value =
      (update.patchesOf assignment.key).foldl (fun current patch => patch.wrap current)
        (update.baseOf assignment.target) := by
  have hnodup : (columnKeys lowered).Nodup := by
    rw [eq_collected_of_ofChanges hupdate] at hlower
    exact nodup_columnKeys_lowered hlower
  have hfound := column?_of_mem hnodup hmem
  rw [column?_merged (lower_eq_ok.1 hlower).2] at hfound
  obtain ⟨base, hbase, hpatched⟩ := Option.map_eq_some_iff.1 hfound
  rw [Assignment.foldl_patched] at hpatched
  have htarget : base.target = assignment.target := by rw [← hpatched]
  have hkey : base.key = assignment.key := congrArg ColumnRef.segments htarget
  have hvalue := baseOf_eq hbase hkey
  rw [htarget] at hvalue
  rw [hvalue]
  exact (congrArg Assignment.value hpatched).symm

/-- The value of a lowered column on a row is the datum of its base with the
column's patches put into it in order.  Every patch brings the value that it
has on the same row. -/
theorem evaluate_lowered {table : String} {changes : List Change} {update : Update}
    {lowered : List Assignment} (hupdate : ofChanges table changes = .ok update)
    (hlower : update.lower = .ok lowered) (row : Row) :
    ∀ assignment ∈ lowered, ∀ (start : Datum) (values : List Datum),
      (update.baseOf assignment.target).evaluate row = .ok start →
      Patch.ValuesOn row (update.patchesOf assignment.key) values →
      assignment.value.evaluate row =
        Patch.putAll ((update.patchesOf assignment.key).zip values) start := by
  intro assignment hmem start values hstart hvalues
  have hvalue := lowered_value hupdate hlower hmem
  rw [hvalue, Patch.evaluate_foldl_wrap hvalues, hstart]
  rfl

/-- Two patches that overlap: the second goes below the first, and its value
is read from the row before both. -/
theorem evaluate_lowered_overlapping :
    let doc : ColumnRef := ⟨none, ["meta"], .jsonb⟩
    let before : Document := .object [("a", .boolean false), ("c", .boolean true)]
    let after : Document :=
      .object [("a", .object [("b", .boolean false)]), ("c", .boolean true)]
    let row : Row := fun _ => .json before
    let outer : Patch := ⟨doc, ["a"], .constant (.jsonb (.object [("b", .null)]))⟩
    let inner : Patch := ⟨doc, ["a", "b"], .operation .get [.column doc, .constant (.text "a")]⟩
    ∃ update lowered value,
      ofChanges "docs" [.patch outer, .patch inner] = .ok update ∧
      update.lower = .ok lowered ∧ (⟨doc, value⟩ : Assignment) ∈ lowered ∧
      (update.baseOf doc).evaluate row = .ok (.json before) ∧
      Patch.ValuesOn row (update.patchesOf ["meta"])
        [.json (.object [("b", .null)]), .json (.boolean false)] ∧
      value.evaluate row = .ok (.json after) := by
  intro doc before after row outer inner
  have hupdate : ofChanges "docs" [.patch outer, .patch inner] =
      .ok ⟨"docs", [], [outer, inner]⟩ := rfl
  have hlower : (⟨"docs", [], [outer, inner]⟩ : Update).lower =
      .ok [⟨doc, inner.wrap (outer.wrap (.column doc))⟩] := rfl
  have hstart : ((⟨"docs", [], [outer, inner]⟩ : Update).baseOf doc).evaluate row =
      .ok (.json before) := rfl
  have hvalues : Patch.ValuesOn row
      ((⟨"docs", [], [outer, inner]⟩ : Update).patchesOf ["meta"])
      [.json (.object [("b", .null)]), .json (.boolean false)] :=
    .cons rfl (.cons rfl .nil)
  refine ⟨_, _, _, hupdate, hlower, List.mem_cons_self, hstart, hvalues, ?_⟩
  have heval := evaluate_lowered hupdate hlower row _ List.mem_cons_self _ _ hstart hvalues
  exact heval.trans rfl

end Update

end JsonbAlgebra
