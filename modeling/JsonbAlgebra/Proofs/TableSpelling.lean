import JsonbAlgebra.Proofs.PatchEvaluation
import JsonbAlgebra.Proofs.PhraseDrafts
import JsonbAlgebra.Proofs.Quotation
import JsonbAlgebra.Proofs.TextReading
import JsonbAlgebra.Proofs.UpdateFaults

/-!
# How an update spells its table

The table of an update is written after UPDATE piece by piece, and a column that is
patched without being assigned is written once more as what its patches start from,
behind its owner if it has one.  Read back, the owner of such a reference is a
single name.  An owner that names the table by its last piece spells it as the table
is known.  One that names it in full does so only if the table has one piece: it is
not split at its points.
-/

namespace JsonbAlgebra

/-! ## Owners that name the table -/

namespace Update

/-- An owner that names a table is one of the two spellings of the table, all
pieces or the last one, unless it is a name in full that has points. -/
theorem ownerNames_spelling {table owner : String} (h : ownerNames table owner = true) :
    ([owner] = Text.pieces table ∨ (Text.pieces table).getLast? = some owner) ↔
      ¬ (owner = table ∧ Text.hasPoint table = true) := by
  constructor
  · rintro hspelling ⟨rfl, hpoint⟩
    have hmem : owner ∈ Text.pieces owner := by
      rcases hspelling with hall | hlast
      · rw [← hall]
        exact List.mem_singleton_self owner
      · exact List.mem_of_getLast? hlast
    rw [Text.hasPoint_of_mem_pieces hmem] at hpoint
    cases hpoint
  · intro hnot
    rw [ownerNames, Bool.or_eq_true, beq_iff_eq, beq_iff_eq] at h
    rcases h with rfl | hlast
    · have hpoint : Text.hasPoint owner = false := by
        simpa using fun hpoint => hnot ⟨rfl, hpoint⟩
      exact .inl (Text.pieces_of_not_hasPoint hpoint).symm
    · exact .inr hlast

/-! ## Columns of the table -/

/-- Every column that an update changes belongs to its table. -/
structure Owned (update : Update) : Prop where
  assignments : ∀ assignment ∈ update.assignments, foreign? update.table assignment.target = none
  patches : ∀ patch ∈ update.patches, foreign? update.table patch.target = none

theorem Owned.apply {update next : Update} {change : Change} (howned : update.Owned)
    (h : update.apply change = .ok next) : next.Owned ∧ next.table = update.table := by
  rw [Update.apply.eq_def] at h
  cases hforeign : foreign? update.table change.target with
  | some fault =>
      rw [hforeign] at h
      cases h
  | none =>
      rw [hforeign] at h
      cases change with
      | assign assignment =>
          cases h
          refine ⟨⟨?_, howned.patches⟩, rfl⟩
          intro other hmem
          rcases Assignment.mem_of_mem_place hmem with rfl | hkept
          · exact hforeign
          · exact howned.assignments other hkept
      | patch patch =>
          cases h
          rw [addPatch]
          split
          · exact ⟨howned, rfl⟩
          · refine ⟨⟨howned.assignments, ?_⟩, rfl⟩
            intro other hmem
            rcases List.mem_append.1 hmem with hkept | hadded
            · exact howned.patches other hkept
            · obtain rfl := List.mem_singleton.1 hadded
              exact hforeign

theorem Owned.ofChanges {table : String} {changes : List Change} {update : Update}
    (h : ofChanges table changes = .ok update) : update.Owned ∧ update.table = table := by
  have hstart : (empty table).Owned ∧ (empty table).table = table :=
    ⟨⟨nofun, nofun⟩, rfl⟩
  refine foldlM_invariant (P := fun update => update.Owned ∧ update.table = table) ?_ h hstart
  rintro change - state next hnext ⟨howned, rfl⟩
  exact howned.apply hnext

end Update

/-- A merge adds no columns but that of the patch. -/
theorem Patch.mergeInto_target {P : ColumnRef → Prop} {patch : Patch}
    {assignments merged : List Assignment} (hpatch : P patch.target)
    (h : patch.mergeInto assignments = .ok merged)
    (hassignments : ∀ assignment ∈ assignments, P assignment.target) :
    ∀ assignment ∈ merged, P assignment.target := by
  induction assignments generalizing merged with
  | nil =>
      obtain ⟨value, -, rfl⟩ := mergeInto_nil_eq_ok.1 h
      exact List.forall_mem_singleton.2 hpatch
  | cons assignment rest ih =>
      obtain ⟨hfirst, hrest⟩ := List.forall_mem_cons.1 hassignments
      rcases mergeInto_cons_eq_ok.1 h with
        ⟨-, value, -, rfl⟩ | ⟨-, others, hothers, rfl⟩
      · exact List.forall_mem_cons.2 ⟨hfirst, hrest⟩
      · exact List.forall_mem_cons.2 ⟨hfirst, ih hothers hrest⟩

theorem Update.Owned.lower {update : Update} {lowered : List Assignment} (howned : update.Owned)
    (h : update.lower = .ok lowered) :
    ∀ assignment ∈ lowered, foreign? update.table assignment.target = none := by
  refine foldlM_invariant
    (P := fun assignments => ∀ assignment ∈ assignments,
      foreign? update.table assignment.target = none) ?_ (lower_eq_ok.1 h).2 howned.assignments
  intro patch hpatch assignments merged hmerge hassignments
  exact patch.mergeInto_target (P := fun target => foreign? update.table target = none)
    (howned.patches patch hpatch) hmerge hassignments

/-! ## The reference below the patches -/

/-- What nested patches open before the text of what they start from. -/
def Patch.openings : Nat → String
  | 0 => ""
  | depth + 1 => openings depth ++ "jsonb_set("

namespace Dialect

theorem draft_wrap_eq_ok {patch : Patch} {current : Expr} {draft : Draft}
    (h : postgres.draft (patch.wrap current) = .ok draft) :
    ∃ inner rest, postgres.draft current = .ok inner ∧
      draft = .sql "jsonb_set(" :: (inner ++ .sql ", " :: rest) := by
  obtain ⟨operands, hoperands, hfill⟩ := draft_operation_eq_ok.1 h
  have hadmits : Operator.set.contract.admits operands.length = true := by
    rw [← hoperands.length_eq]
    rfl
  obtain rfl := eq_draft_of_fill hadmits hfill
  obtain _ | @⟨_, inner, _, others, hinner, _ | ⟨_, _⟩⟩ := hoperands
  exact ⟨inner, _, hinner, rfl⟩

/-- The text of nested patches begins with their openings and with the text of what
they start from.  Behind that a patch puts a comma. -/
theorem textFrom_foldl_wrap (style : Placeholder) (position : Nat) {patches : List Patch}
    {base : Expr} {draft : Draft}
    (h : postgres.draft (patches.foldl (fun current patch => patch.wrap current) base) =
      .ok draft) :
    ∃ inner rest, postgres.draft base = .ok inner ∧
      Draft.textFrom style position draft =
        Patch.openings patches.length ++ Draft.textFrom style position inner ++ rest ∧
      (patches ≠ [] → ∃ after, rest = ", " ++ after) := by
  induction patches generalizing base with
  | nil =>
      refine ⟨draft, "", h, ?_, fun hnil => absurd rfl hnil⟩
      rw [List.length_nil, Patch.openings, String.empty_append, String.append_empty]
  | cons patch patches ih =>
      obtain ⟨wrapped, rest, hwrapped, htext, -⟩ := ih h
      obtain ⟨inner, later, hinner, rfl⟩ := draft_wrap_eq_ok hwrapped
      refine ⟨inner, ", " ++ (Draft.textFrom style (position + Draft.slots inner) later ++ rest),
        hinner, ?_, fun _ => ⟨_, rfl⟩⟩
      rw [htext, Draft.textFrom, Draft.textFrom_append, Draft.textFrom, List.length_cons,
        Patch.openings]
      simp only [String.append_assoc]

end Dialect

theorem Draft.exists_separate {draft : Draft} {drafts : List Draft} (h : draft ∈ drafts)
    (separator : String) :
    ∃ before after, Draft.separate separator drafts = before ++ (draft ++ after) := by
  induction drafts with
  | nil => cases h
  | cons first others ih =>
      obtain _ | ⟨next, others⟩ := others
      · obtain rfl := List.mem_singleton.1 h
        exact ⟨[], [], (List.append_nil draft).symm⟩
      · rw [Draft.separate_cons_cons]
        rcases List.mem_cons.1 h with rfl | hmem
        · exact ⟨[], _, rfl⟩
        · obtain ⟨before, after, hseparate⟩ := ih hmem
          refine ⟨first ++ .sql separator :: before, after, ?_⟩
          rw [hseparate, List.append_assoc, List.cons_append]

/-- A lowered column that is not assigned is itself with one patch or more. -/
theorem Update.lowered_value_of_unassigned {table : String} {changes : List Change}
    {update : Update} {lowered : List Assignment} (hupdate : ofChanges table changes = .ok update)
    (hlower : update.lower = .ok lowered) {assignment : Assignment} (hmem : assignment ∈ lowered)
    (hassigned : column? update.assignments assignment.key = none) :
    update.patchesOf assignment.key ≠ [] ∧ assignment.value =
      (update.patchesOf assignment.key).foldl (fun current patch => patch.wrap current)
        (.column assignment.target) := by
  constructor
  · have hnodup : (columnKeys lowered).Nodup := by
      rw [eq_collected_of_ofChanges hupdate] at hlower
      exact nodup_columnKeys_lowered hlower
    have hfound := column?_of_mem hnodup hmem
    rw [column?_merged (lower_eq_ok.1 hlower).2, hassigned, Option.none_or] at hfound
    obtain ⟨base, hbase, -⟩ := Option.map_eq_some_iff.1 hfound
    obtain ⟨patch, hpatch, -⟩ := Option.map_eq_some_iff.1 hbase
    have hkey := List.find?_some hpatch
    have hkept : patch ∈ update.patchesOf assignment.key :=
      List.mem_filter.2 ⟨List.mem_of_find?_eq_some hpatch, hkey⟩
    exact List.ne_nil_of_mem hkept
  · have hbase : update.baseOf assignment.target = .column assignment.target := by
      have hsegments : column? update.assignments assignment.target.segments = none := hassigned
      rw [baseOf, hsegments]
    rw [lowered_value hupdate hlower hmem, hbase]

namespace Dialect

theorem postgres_draftAssignment_reference (style : Placeholder) (position : Nat)
    {assignment : Assignment} {patches : List Patch} (hpatches : patches ≠ [])
    (hvalue : assignment.value =
      patches.foldl (fun current patch => patch.wrap current) (.column assignment.target))
    {draft : Draft} (h : postgres.draftAssignment assignment = .ok draft) :
    ∃ after, Draft.textFrom style position draft =
      Identifier.qualified assignment.key ++ " = " ++ Patch.openings patches.length ++
        Identifier.qualified assignment.target.identifiers ++ ", " ++ after := by
  obtain ⟨value, hdraft, rfl⟩ := draftAssignment_eq_ok.1 h
  rw [hvalue] at hdraft
  obtain ⟨inner, rest, hinner, htext, hcomma⟩ := textFrom_foldl_wrap style position hdraft
  obtain ⟨after, rfl⟩ := hcomma hpatches
  cases hinner
  refine ⟨after, ?_⟩
  rw [Draft.textFrom, htext, Draft.textFrom, Draft.textFrom, String.append_empty]
  simp only [String.append_assoc]
  rfl

/-- Every lowered assignment is written in the statement, from some position on. -/
theorem exists_assignment_text {dialect : Dialect} {style : Placeholder} {update : Update}
    {lowered : List Assignment} {filter : Option Expr} {statement : Statement}
    (hlower : update.lower = .ok lowered)
    (h : dialect.compileUpdate style update filter = .ok statement) {assignment : Assignment}
    (hmem : assignment ∈ lowered) :
    ∃ draft position before after, dialect.draftAssignment assignment = .ok draft ∧
      statement.sql = before ++ (Draft.textFrom style position draft ++ after) := by
  obtain ⟨draft, hdraft, rfl⟩ := compileUpdate_eq_ok.1 h
  obtain ⟨assignments, drafts, condition, hassignments, hdrafts, -, rfl⟩ :=
    draftUpdate_eq_ok.1 hdraft
  obtain rfl := Except.ok.inj (hlower.symm.trans hassignments)
  obtain ⟨index, hindex, rfl⟩ := List.mem_iff_getElem.1 hmem
  have hother : index < drafts.length := by
    rw [← hdrafts.length_eq]
    exact hindex
  obtain ⟨before, after, hseparate⟩ := Draft.exists_separate (List.getElem_mem hother) ", "
  refine ⟨drafts[index], 1 + Draft.slots before,
    "UPDATE " ++ Identifier.qualified (Text.pieces update.table) ++ " SET " ++
      Draft.textFrom style 1 before,
    Draft.textFrom style (1 + Draft.slots before + Draft.slots drafts[index])
      (after ++ condition),
    hdrafts.get hindex hother, ?_⟩
  rw [Draft.finish, hseparate, Draft.textFrom, List.append_assoc, Draft.textFrom_append,
    List.append_assoc, Draft.textFrom_append]
  simp only [String.append_assoc]

theorem exists_table_text {dialect : Dialect} {style : Placeholder} {update : Update}
    {filter : Option Expr} {statement : Statement}
    (h : dialect.compileUpdate style update filter = .ok statement) :
    ∃ rest, statement.sql =
      "UPDATE " ++ Identifier.qualified (Text.pieces update.table) ++ " SET " ++ rest := by
  obtain ⟨draft, hdraft, rfl⟩ := compileUpdate_eq_ok.1 h
  obtain ⟨assignments, drafts, condition, -, -, -, rfl⟩ := draftUpdate_eq_ok.1 hdraft
  exact ⟨_, rfl⟩

/-- A statement writes its table piece by piece behind UPDATE.  A column that is
patched but not assigned is what its patches start from, and is written there behind
its owner as a single name.  That name is one of the two spellings of the table
unless the owner is the table in full and has points. -/
theorem update_spelling {dialect : Dialect} {style : Placeholder} {table : String}
    {changes : List Change} {update : Update} {lowered : List Assignment}
    {filter : Option Expr} {statement : Statement}
    (hupdate : Update.ofChanges table changes = .ok update) (hlower : update.lower = .ok lowered)
    (h : dialect.compileUpdate style update filter = .ok statement) :
    (∃ written rest, statement.sql = "UPDATE " ++ written ++ " SET " ++ rest ∧
      Identifier.readNames written.toList = some (Text.pieces table)) ∧
    ∀ assignment ∈ lowered, column? update.assignments assignment.key = none →
      ∀ owner, assignment.target.owner = some owner →
        ∃ (patches : List Patch) (reference : String), patches ≠ [] ∧
          assignment.value = patches.foldl (fun current patch => patch.wrap current)
            (.column assignment.target) ∧
          dialect.draft (.column assignment.target) = .ok [.sql reference] ∧
          (dialect = postgres → ∃ before after, statement.sql =
            before ++ (Identifier.qualified assignment.key ++ " = " ++
              Patch.openings patches.length ++ reference ++ ", " ++ after)) ∧
          Identifier.readNames reference.toList = some ([owner] ++ assignment.key) ∧
          (([owner] = Text.pieces table ∨ (Text.pieces table).getLast? = some owner) ↔
            ¬ (owner = table ∧ Text.hasPoint table = true)) := by
  obtain ⟨howned, rfl⟩ := Update.Owned.ofChanges hupdate
  constructor
  · have hpieces : Text.pieces update.table ≠ [] := by
      simp [Text.pieces, Text.splitPoints_ne_nil]
    obtain ⟨rest, hsql⟩ := exists_table_text h
    exact ⟨_, rest, hsql, Identifier.readNames_qualified hpieces⟩
  · intro assignment hmem hassigned owner howner
    have hnames := Update.ownerNames_of_foreign?_eq_none (howned.lower hlower _ hmem) howner
    have hidentifiers : assignment.target.identifiers = [owner] ++ assignment.key := by
      rw [ColumnRef.identifiers, howner]
      rfl
    obtain ⟨hpatched, hvalue⟩ :=
      Update.lowered_value_of_unassigned hupdate hlower hmem hassigned
    refine ⟨_, Identifier.qualified assignment.target.identifiers, hpatched, hvalue, rfl, ?_, ?_,
      Update.ownerNames_spelling hnames⟩
    · rintro rfl
      obtain ⟨draft, position, before, rest, hdraft, hsql⟩ := exists_assignment_text hlower h hmem
      obtain ⟨after, htext⟩ :=
        postgres_draftAssignment_reference style position hpatched hvalue hdraft
      refine ⟨before, after ++ rest, ?_⟩
      rw [hsql, htext]
      simp only [String.append_assoc]
    · rw [hidentifiers]
      exact Identifier.readNames_qualified (List.cons_ne_nil _ _)

/-- An owner that names a table of two pieces by the last of them. -/
theorem update_spelling_last_piece :
    let doc : ColumnRef := ⟨some "Items", ["meta"], .jsonb⟩
    let patch : Patch := ⟨doc, ["a"], .constant .jsonNull⟩
    ∃ update lowered statement, Update.ofChanges "app.Items" [.patch patch] = .ok update ∧
      update.lower = .ok lowered ∧
      postgres.compileUpdate .anonymous update none = .ok statement ∧
      statement.sql = "UPDATE app.\"Items\" SET meta = jsonb_set(\"Items\".meta, ?, ?)" ∧
      ∃ reference : String, Identifier.readNames reference.toList = some ["Items", "meta"] ∧
        (["Items"] = Text.pieces "app.Items" ∨
          (Text.pieces "app.Items").getLast? = some "Items") := by
  intro doc patch
  have hupdate : Update.ofChanges "app.Items" [.patch patch] =
      .ok ⟨"app.Items", [], [patch]⟩ := by
    rfl
  have hlower : Update.lower ⟨"app.Items", [], [patch]⟩ =
      .ok [⟨doc, patch.wrap (.column doc)⟩] := rfl
  have hstatement : postgres.compileUpdate .anonymous ⟨"app.Items", [], [patch]⟩ none =
      .ok ⟨"UPDATE app.\"Items\" SET meta = jsonb_set(\"Items\".meta, ?, ?)",
        [.textArray ["a"], .jsonNull]⟩ := by
    unfold patch doc
    rfl
  refine ⟨_, _, _, hupdate, hlower, hstatement, rfl, ?_⟩
  obtain ⟨-, hreferences⟩ := update_spelling hupdate hlower hstatement
  obtain ⟨patches, reference, -, -, -, -, hread, hspelling⟩ :=
    hreferences _ List.mem_cons_self rfl "Items" rfl
  refine ⟨reference, hread, hspelling.2 ?_⟩
  decide

/-- An owner that names a table of two pieces in full is a name that the table does
not have. -/
theorem update_spelling_full_name :
    let doc : ColumnRef := ⟨some "app.items", ["meta"], .jsonb⟩
    let patch : Patch := ⟨doc, ["a"], .constant .jsonNull⟩
    ∃ update statement, Update.ofChanges "app.items" [.patch patch] = .ok update ∧
      postgres.compileUpdate .anonymous update none = .ok statement ∧
      statement.sql = "UPDATE app.items SET meta = jsonb_set(\"app.items\".meta, ?, ?)" ∧
      Identifier.readNames "app.items".toList = some (Text.pieces "app.items") ∧
      Identifier.readNames "\"app.items\".meta".toList = some ["app.items", "meta"] ∧
      ["app.items"] ≠ Text.pieces "app.items" ∧
      (Text.pieces "app.items").getLast? ≠ some "app.items" := by
  intro doc patch
  have hstatement : postgres.compileUpdate .anonymous ⟨"app.items", [], [patch]⟩ none =
      .ok ⟨"UPDATE app.items SET meta = jsonb_set(\"app.items\".meta, ?, ?)",
        [.textArray ["a"], .jsonNull]⟩ := by
    unfold patch doc
    rfl
  refine ⟨⟨"app.items", [], [patch]⟩, _, rfl, hstatement, rfl, ?_, ?_, ?_, ?_⟩ <;> decide

end Dialect

end JsonbAlgebra
