import JsonbAlgebra.Proofs.FirstKept
import JsonbAlgebra.Proofs.UpdateMerge

/-!
# What an update assigns in the end

The changes of an update, one for each call that sets or patches a column,
fall into its assignments and its patches, and the order between the two does
not matter.  Each column gets one final value: its last assignment, or the
column itself if it is never assigned, with the patches of the column around
it from the first to the last.  The assigned columns stand in the order of
their first assignments, the others behind them in the order of their first
patches.

A list of assignments is followed through its keys and through the assignment
of one column.  One step changes the assignment of one column only and adds
at most its key; the runs then follow by induction over the changes.
-/

namespace JsonbAlgebra

/-! ## Assignments and patches of changes -/

namespace Change

def assignment? : Change → Option Assignment
  | .assign change => some change
  | .patch _ => none

def patch? : Change → Option Patch
  | .assign _ => none
  | .patch change => some change

def assignments (changes : List Change) : List Assignment :=
  changes.filterMap assignment?

def patches (changes : List Change) : List Patch :=
  changes.filterMap patch?

theorem mem_iff {changes : List Change} {change : Change} :
    change ∈ changes ↔
      (∃ assignment ∈ assignments changes, change = .assign assignment) ∨
        ∃ patch ∈ patches changes, change = .patch patch := by
  simp only [assignments, patches, List.mem_filterMap]
  constructor
  · intro h
    cases change with
    | assign assignment => exact .inl ⟨assignment, ⟨_, h, rfl⟩, rfl⟩
    | patch patch => exact .inr ⟨patch, ⟨_, h, rfl⟩, rfl⟩
  · rintro (⟨assignment, ⟨other, hother, heq⟩, rfl⟩ | ⟨patch, ⟨other, hother, heq⟩, rfl⟩)
    · cases other <;> cases heq
      exact hother
    · cases other <;> cases heq
      exact hother

end Change

/-! ## The final value of a column -/

namespace Assignment

def patched (assignment : Assignment) (patch : Patch) : Assignment :=
  { assignment with value := patch.wrap assignment.value }

@[simp] theorem patched_key (assignment : Assignment) (patch : Patch) :
    (assignment.patched patch).key = assignment.key :=
  rfl

end Assignment

def Patch.column (patch : Patch) : Assignment :=
  ⟨patch.target, .column patch.target⟩

def columnKeys (assignments : List Assignment) : List (List String) :=
  assignments.map Assignment.key

namespace Update

/-- The keys of assigned columns, then those of columns that are only
patched, each at its first occurrence. -/
def columnOrder (assignments : List Assignment) (patches : List Patch) : List (List String) :=
  let assigned := columnKeys assignments
  assigned.eraseDups ++ ((patches.map Patch.key).filter fun key => key ∉ assigned).eraseDups

/-- The patches of a column, the first one at each path. -/
def layers (patches : List Patch) (key : List String) : List Patch :=
  (patches.filter fun patch => patch.key = key).eraseDupsBy fun a b => a.path == b.path

/-- The last assignment of a column, or its first patch's column as it is. -/
def base? (assignments : List Assignment) (patches : List Patch) (key : List String) :
    Option Assignment :=
  (assignments.findRev? fun assignment => assignment.key = key).or
    ((patches.find? fun patch => patch.key = key).map Patch.column)

def final? (assignments : List Assignment) (patches : List Patch) (key : List String) :
    Option Assignment :=
  (base? assignments patches key).map fun base =>
    (layers patches key).foldl Assignment.patched base

end Update

/-! ## Keys and columns of assignments -/

def column? (assignments : List Assignment) (key : List String) : Option Assignment :=
  assignments.find? fun assignment => assignment.key = key

theorem columnKeys_cons (assignment : Assignment) (rest : List Assignment) :
    columnKeys (assignment :: rest) = assignment.key :: columnKeys rest :=
  rfl

theorem column?_cons (assignment : Assignment) (rest : List Assignment) (key : List String) :
    column? (assignment :: rest) key =
      if assignment.key = key then some assignment else column? rest key := by
  by_cases hkey : assignment.key = key
  · rw [if_pos hkey]
    exact List.find?_cons_of_pos (decide_eq_true hkey)
  · rw [if_neg hkey]
    exact List.find?_cons_of_neg (by simp [hkey])

theorem column?_of_mem {assignments : List Assignment} (hnodup : (columnKeys assignments).Nodup)
    {assignment : Assignment} (h : assignment ∈ assignments) :
    column? assignments assignment.key = some assignment := by
  induction assignments with
  | nil => cases h
  | cons first rest ih =>
      obtain ⟨hfirst, hrest⟩ := List.nodup_cons.1 hnodup
      rw [column?_cons]
      rcases List.mem_cons.1 h with rfl | hmem
      · exact if_pos rfl
      · have hne : first.key ≠ assignment.key := by
          intro heq
          apply hfirst
          rw [heq]
          exact List.mem_map_of_mem hmem
        rw [if_neg hne, ih hrest hmem]

/-- Without two assignments of one column, the keys and the assignment of
each of them make up the list. -/
theorem map_column? {assignments : List Assignment}
    (hnodup : (columnKeys assignments).Nodup) :
    (columnKeys assignments).map (column? assignments) = assignments.map some := by
  rw [columnKeys, List.map_map]
  exact List.map_congr_left fun assignment hmem => column?_of_mem hnodup hmem

/-! ## One assignment, one patch -/

namespace Assignment

theorem place_cons (assignment other : Assignment) (rest : List Assignment) :
    assignment.place (other :: rest) =
      if other.key = assignment.key then assignment :: rest else other :: assignment.place rest :=
  rfl

theorem columnKeys_place (assignment : Assignment) (assignments : List Assignment) :
    columnKeys (assignment.place assignments) =
      addNew (· == ·) (columnKeys assignments) assignment.key := by
  induction assignments with
  | nil => rfl
  | cons other rest ih =>
      rw [place_cons, columnKeys_cons]
      by_cases hkey : other.key = assignment.key
      · rw [if_pos hkey, columnKeys_cons, hkey, addNew_of_mem List.mem_cons_self]
      · rw [if_neg hkey, columnKeys_cons, ih, addNew_cons_of_ne hkey]

theorem column?_place (assignment : Assignment) (assignments : List Assignment)
    (key : List String) :
    column? (assignment.place assignments) key =
      if assignment.key = key then some assignment else column? assignments key := by
  induction assignments with
  | nil => exact column?_cons assignment [] key
  | cons other rest ih =>
      rw [place_cons]
      by_cases hother : other.key = assignment.key
      · rw [if_pos hother, column?_cons, column?_cons, hother]
        split <;> rfl
      · rw [if_neg hother, column?_cons, column?_cons, ih]
        by_cases hkey : other.key = key
        · have hne : assignment.key ≠ key := fun heq => hother (hkey.trans heq.symm)
          rw [if_pos hkey, if_neg hne, if_pos hkey]
        · rw [if_neg hkey, if_neg hkey]

end Assignment

namespace Patch

theorem columnKeys_mergeInto {patch : Patch} {assignments merged : List Assignment}
    (h : patch.mergeInto assignments = .ok merged) :
    columnKeys merged = addNew (· == ·) (columnKeys assignments) patch.key := by
  induction assignments generalizing merged with
  | nil =>
      obtain ⟨value, -, rfl⟩ := mergeInto_nil_eq_ok.1 h
      rfl
  | cons assignment rest ih =>
      rcases mergeInto_cons_eq_ok.1 h with
        ⟨hkey, value, -, rfl⟩ | ⟨hkey, others, hothers, rfl⟩
      · rw [columnKeys_cons, columnKeys_cons, hkey, addNew_of_mem List.mem_cons_self]
        exact congrArg (· :: columnKeys rest) hkey
      · rw [columnKeys_cons, columnKeys_cons, ih hothers, addNew_cons_of_ne hkey]

/-- A patch goes around the assignment of its column, or around the column
itself, and leaves all other columns as they are. -/
theorem column?_mergeInto {patch : Patch} {assignments merged : List Assignment}
    (h : patch.mergeInto assignments = .ok merged) (key : List String) :
    column? merged key =
      if patch.key = key then some (((column? assignments key).getD patch.column).patched patch)
      else column? assignments key := by
  induction assignments generalizing merged with
  | nil =>
      obtain ⟨value, haround, rfl⟩ := mergeInto_nil_eq_ok.1 h
      obtain ⟨-, rfl⟩ := around_eq_ok.1 haround
      exact column?_cons (patch.column.patched patch) [] key
  | cons assignment rest ih =>
      rcases mergeInto_cons_eq_ok.1 h with
        ⟨hown, value, haround, rfl⟩ | ⟨hother, others, hothers, rfl⟩
      · obtain ⟨-, rfl⟩ := around_eq_ok.1 haround
        change column? (assignment.patched patch :: rest) key = _
        rw [column?_cons, column?_cons, Assignment.patched_key, hown]
        by_cases hkey : patch.key = key
        · rw [if_pos hkey, if_pos hkey, if_pos hkey, Option.getD_some]
        · rw [if_neg hkey, if_neg hkey, if_neg hkey]
      · rw [column?_cons, column?_cons, ih hothers]
        by_cases hkey : assignment.key = key
        · have hne : patch.key ≠ key := fun heq => hother (hkey.trans heq.symm)
          rw [if_pos hkey, if_neg hne, if_pos hkey]
        · rw [if_neg hkey, if_neg hkey]

end Patch

/-! ## All assignments, all patches -/

theorem columnKeys_placed (added start : List Assignment) :
    columnKeys (added.foldl (fun assignments assignment => assignment.place assignments) start) =
      (columnKeys added).foldl (addNew (· == ·)) (columnKeys start) := by
  induction added generalizing start with
  | nil => rfl
  | cons assignment added ih =>
      rw [List.foldl_cons, ih, Assignment.columnKeys_place, columnKeys_cons, List.foldl_cons]

theorem column?_placed (added start : List Assignment) (key : List String) :
    column? (added.foldl (fun assignments assignment => assignment.place assignments) start) key =
      (added.findRev? fun assignment => assignment.key = key).or (column? start key) := by
  induction added generalizing start with
  | nil => rfl
  | cons assignment added ih =>
      rw [List.foldl_cons, ih, Assignment.column?_place, List.findRev?]
      cases added.findRev? fun assignment => assignment.key = key with
      | some last => rfl
      | none => by_cases hkey : assignment.key = key <;> simp [hkey]

theorem columnKeys_merged {patches : List Patch} {start merged : List Assignment}
    (h : patches.foldlM (fun assignments patch => patch.mergeInto assignments) start =
      .ok merged) :
    columnKeys merged = (patches.map Patch.key).foldl (addNew (· == ·)) (columnKeys start) := by
  induction patches generalizing start with
  | nil =>
      cases h
      rfl
  | cons patch patches ih =>
      obtain ⟨next, hnext, hrest⟩ := foldlM_cons_eq_ok.1 h
      rw [ih hrest, Patch.columnKeys_mergeInto hnext, List.map_cons, List.foldl_cons]

theorem column?_merged {patches : List Patch} {start merged : List Assignment}
    (h : patches.foldlM (fun assignments patch => patch.mergeInto assignments) start =
      .ok merged) (key : List String) :
    column? merged key =
      ((column? start key).or
        ((patches.find? fun patch => patch.key = key).map Patch.column)).map fun base =>
          (patches.filter fun patch => patch.key = key).foldl Assignment.patched base := by
  induction patches generalizing start with
  | nil =>
      cases h
      cases column? merged key <;> rfl
  | cons patch patches ih =>
      obtain ⟨next, hnext, hrest⟩ := foldlM_cons_eq_ok.1 h
      rw [ih hrest, Patch.column?_mergeInto hnext]
      by_cases hkey : patch.key = key
      · simp only [List.find?_cons, List.filter_cons, hkey, decide_true, if_true]
        -- without an assignment, the first patch of the column decides its base
        cases column? start key <;> rfl
      · simp only [List.find?_cons, List.filter_cons, hkey, decide_false, if_false,
          Bool.false_eq_true]

/-! ## Registered patches -/

namespace Patch

theorem key_eq_of_sameKey (a b : Patch) (h : sameKey a b = true) : a.key = b.key := by
  simp only [sameKey, Bool.and_eq_true, beq_iff_eq] at h
  exact h.1

theorem sameKey_of_key_eq {a b : Patch} (h : a.key = b.key) :
    sameKey a b = (a.path == b.path) := by
  have hsegments : (a.target.segments == b.target.segments) = true := beq_iff_eq.2 h
  rw [sameKey, hsegments, Bool.true_and]

theorem filter_registered (patches : List Patch) (key : List String) :
    ((patches.foldl (addNew sameKey) []).filter fun patch => patch.key = key) =
      Update.layers patches key := by
  rw [Update.layers, ← foldl_addNew_nil]
  refine filter_foldl_addNew ?_ ?_ patches []
  · intro a b h
    rw [key_eq_of_sameKey a b h]
  · intro a b ha hb
    exact sameKey_of_key_eq ((of_decide_eq_true ha).trans (of_decide_eq_true hb).symm)

theorem find?_registered (patches : List Patch) (key : List String) :
    ((patches.foldl (addNew sameKey) []).find? fun patch => patch.key = key) =
      patches.find? fun patch => patch.key = key := by
  rw [← List.head?_filter, filter_registered, Update.layers, head?_eraseDupsBy,
    List.head?_filter]

end Patch

/-! ## The update of changes -/

namespace Update

theorem foreign?_eq_none {table : String} {target : ColumnRef}
    (howner : ∀ owner, target.owner = some owner → ownerNames table owner = true) :
    foreign? table target = none := by
  rw [foreign?]
  cases howned : target.owner with
  | none => rfl
  | some owner => rw [Option.filter_some, howner owner howned]; rfl

theorem addPatch_eq (update : Update) (patch : Patch) :
    update.addPatch patch =
      { update with patches := addNew Patch.sameKey update.patches patch } := by
  rw [addPatch, addNew]
  split <;> rfl

def collected (table : String) (assignments : List Assignment) (patches : List Patch) : Update :=
  ⟨table, assignments.foldl (fun placed assignment => assignment.place placed) [],
    patches.foldl (addNew Patch.sameKey) []⟩

/-- Changes of the table's own columns are all taken; assignments and
patches go their own ways. -/
theorem foldlM_apply {changes : List Change} (update : Update)
    (howners : ∀ change ∈ changes, ∀ owner, change.target.owner = some owner →
      ownerNames update.table owner = true) :
    changes.foldlM apply update =
      .ok ⟨update.table,
        (Change.assignments changes).foldl (fun placed assignment => assignment.place placed)
          update.assignments,
        (Change.patches changes).foldl (addNew Patch.sameKey) update.patches⟩ := by
  induction changes generalizing update with
  | nil => rfl
  | cons change changes ih =>
      obtain ⟨howner, hothers⟩ := List.forall_mem_cons.1 howners
      rw [List.foldlM_cons, apply.eq_def, foreign?_eq_none howner]
      cases change with
      | assign assignment => exact ih _ hothers
      | patch patch =>
          simp only [addPatch_eq]
          exact ih _ hothers

theorem ofChanges_eq_ok {table : String} {changes : List Change}
    (howners : ∀ change ∈ changes, ∀ owner, change.target.owner = some owner →
      ownerNames table owner = true) :
    ofChanges table changes =
      .ok (collected table (Change.assignments changes) (Change.patches changes)) :=
  foldlM_apply (empty table) howners

/-- The first change of a foreign column ends the run, whatever came before
it and whatever comes behind. -/
theorem foldlM_apply_foreign {changes : List Change} (update : Update) {fault : PathFault}
    (h : (changes.findSome? fun change => foreign? update.table change.target) = some fault) :
    changes.foldlM apply update = .error (.path fault) := by
  induction changes generalizing update with
  | nil => cases h
  | cons change changes ih =>
      rw [List.foldlM_cons, apply.eq_def]
      cases hforeign : foreign? update.table change.target with
      | some first =>
          rw [List.findSome?_cons, hforeign] at h
          cases h
          rfl
      | none =>
          rw [List.findSome?_cons, hforeign] at h
          cases change with
          | assign assignment => exact ih _ h
          | patch patch =>
              have htable : (update.addPatch patch).table = update.table := by
                rw [addPatch_eq]
              refine ih _ ?_
              rw [htable]
              exact h

theorem ownerNames_of_foreign?_eq_none {table : String} {target : ColumnRef}
    (h : foreign? table target = none) {owner : String} (howner : target.owner = some owner) :
    ownerNames table owner = true := by
  cases hnames : ownerNames table owner with
  | true => rfl
  | false => simp [foreign?, howner, Option.filter_some, hnames] at h

/-- The changes of an update either stop at the first foreign column or are
all collected. -/
theorem ofChanges_eq (table : String) (changes : List Change) :
    ofChanges table changes =
      match changes.findSome? fun change => foreign? table change.target with
      | some fault => .error (.path fault)
      | none => .ok (collected table (Change.assignments changes) (Change.patches changes)) := by
  cases hforeign : changes.findSome? fun change => foreign? table change.target with
  | some fault => exact foldlM_apply_foreign (empty table) hforeign
  | none =>
      have hnone := List.findSome?_eq_none_iff.1 hforeign
      exact ofChanges_eq_ok fun change hmem owner howner =>
        ownerNames_of_foreign?_eq_none (hnone change hmem) howner

theorem eq_collected_of_ofChanges {table : String} {changes : List Change} {update : Update}
    (h : ofChanges table changes = .ok update) :
    update = collected table (Change.assignments changes) (Change.patches changes) := by
  rw [ofChanges_eq] at h
  split at h
  · cases h
  · exact (Except.ok.inj h).symm

section Lowered

variable {table : String} {assignments lowered : List Assignment} {patches : List Patch}
  (h : (collected table assignments patches).lower = .ok lowered)
include h

theorem columnKeys_lowered : columnKeys lowered = columnOrder assignments patches := by
  have hassigned : columnKeys (collected table assignments patches).assignments =
      (columnKeys assignments).eraseDups :=
    (columnKeys_placed assignments []).trans (foldl_addNew_nil _)
  have hpatched := foldl_addNew_map (f := Patch.key) Patch.key_eq_of_sameKey patches []
    (columnKeys assignments).eraseDups
  rw [columnKeys_merged (lower_eq_ok.1 h).2, hassigned, collected, hpatched, List.map_nil,
    List.foldl_nil, foldl_addNew_eq_eraseDups, columnOrder]
  simp only [List.mem_eraseDups]

theorem nodup_columnKeys_lowered : (columnKeys lowered).Nodup := by
  rw [columnKeys_merged (lower_eq_ok.1 h).2, collected, columnKeys_placed]
  exact nodup_foldl_addNew _ (nodup_foldl_addNew _ List.nodup_nil)

theorem column?_lowered (key : List String) :
    column? lowered key = final? assignments patches key := by
  have hnone : column? [] key = none := rfl
  rw [column?_merged (lower_eq_ok.1 h).2, collected, column?_placed, Patch.filter_registered,
    Patch.find?_registered, hnone, Option.or_none, final?, base?]

end Lowered

/-- An update made of changes of its own table's columns assigns each of its
columns once, in order of first assignments and then of first patches, the
last assignment of the column with one patch for each path around it; how
assignments and patches are interleaved plays no part. -/
theorem lower_ofChanges (table : String) (changes : List Change)
    (howners : ∀ change ∈ changes, ∀ owner, change.target.owner = some owner →
      ownerNames table owner = true) :
    ∃ update, ofChanges table changes = .ok update ∧
      (∀ lowered, update.lower = .ok lowered →
        columnKeys lowered =
          columnOrder (Change.assignments changes) (Change.patches changes) ∧
        (columnKeys lowered).Nodup ∧
        lowered.map some =
          (columnOrder (Change.assignments changes) (Change.patches changes)).map
            (final? (Change.assignments changes) (Change.patches changes))) ∧
      ∀ others, Change.assignments others = Change.assignments changes →
        Change.patches others = Change.patches changes →
        ∃ other, ofChanges table others = .ok other ∧ other.lower = update.lower := by
  refine ⟨_, ofChanges_eq_ok howners, ?_, ?_⟩
  · intro lowered hlower
    have hkeys := columnKeys_lowered hlower
    have hnodup := nodup_columnKeys_lowered hlower
    refine ⟨hkeys, hnodup, ?_⟩
    rw [← hkeys, ← map_column? hnodup]
    exact List.map_congr_left fun key _ => column?_lowered hlower key
  · intro others hassignments hpatches
    have hothers : ∀ change ∈ others, ∀ owner, change.target.owner = some owner →
        ownerNames table owner = true := by
      intro change hmem
      apply howners change
      rw [Change.mem_iff, ← hassignments, ← hpatches, ← Change.mem_iff]
      exact hmem
    refine ⟨_, ofChanges_eq_ok hothers, ?_⟩
    rw [hassignments, hpatches]

/-- A column assigned twice and patched before, between and behind, and a
column that is only patched. -/
theorem lower_ofChanges_reassigned :
    let first : ColumnRef := ⟨some "docs", ["meta"], .jsonb⟩
    let last : ColumnRef := ⟨none, ["meta"], .text⟩
    let tags : ColumnRef := ⟨some "app.docs", ["tags"], .jsonb⟩
    let one : Expr := .constant (.jsonb (.string "1"))
    let two : Expr := .constant .jsonNull
    let path (segment : String) : Expr := .constant (.textArray [segment])
    let changes : List Change :=
      [.patch ⟨tags, ["x"], one⟩, .assign ⟨first, one⟩, .patch ⟨first, ["p"], two⟩,
        .assign ⟨last, two⟩, .patch ⟨last, ["p"], one⟩, .patch ⟨first, ["q"], two⟩]
    let others : List Change :=
      [.assign ⟨first, one⟩, .assign ⟨last, two⟩, .patch ⟨tags, ["x"], one⟩,
        .patch ⟨first, ["p"], two⟩, .patch ⟨last, ["p"], one⟩, .patch ⟨first, ["q"], two⟩]
    ∃ update, ofChanges "app.docs" changes = .ok update ∧
      ∃ lowered, update.lower = .ok lowered ∧
        lowered.map some =
          [some ⟨last, .operation .set [.operation .set [two, path "p", two], path "q", two]⟩,
            some ⟨tags, .operation .set [.column tags, path "x", one]⟩] ∧
        ∃ other, ofChanges "app.docs" others = .ok other ∧ other.lower = .ok lowered := by
  intro first last tags one two path changes others
  have howned : ∀ change ∈ changes, change.target.owner.all (ownerNames "app.docs") := by
    decide +kernel
  have howners : ∀ change ∈ changes, ∀ owner, change.target.owner = some owner →
      ownerNames "app.docs" owner = true := by
    intro change hmem owner howner
    have hall := howned change hmem
    rw [howner] at hall
    exact hall
  obtain ⟨update, hupdate, hlowered, hothers⟩ := lower_ofChanges "app.docs" changes howners
  obtain ⟨other, hother, hsame⟩ := hothers others rfl rfl
  have hlower : update.lower = .ok
      [⟨last, .operation .set [.operation .set [two, path "p", two], path "q", two]⟩,
        ⟨tags, .operation .set [.column tags, path "x", one]⟩] := by
    rw [Except.ok.inj (hupdate.symm.trans (ofChanges_eq_ok howners))]
    rfl
  obtain ⟨-, -, hfinal⟩ := hlowered _ hlower
  exact ⟨update, hupdate, _, hlower, hfinal.trans rfl, other, hother, hsame.trans hlower⟩

end Update

end JsonbAlgebra
