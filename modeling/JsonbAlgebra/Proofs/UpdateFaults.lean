import JsonbAlgebra.Proofs.PostgresParameters
import JsonbAlgebra.Proofs.UpdateLowering

/-!
# When updates fail

An update passes three checks on its way to a statement.  Its changes are
collected, which fails at the first change of a foreign column.  It is lowered,
which fails if there is nothing to lower or at the first patch of a column that
was last assigned something else than a document.  It is compiled, which fails
at a filter that is no condition.

Lowering is the delicate step, because later patches meet the outcome of earlier
ones.  A merged patch leaves a document behind, so whether a column refuses
patches is settled by the assignments alone and never changes during the run.
-/

namespace JsonbAlgebra

/-! ## Changes that calls make -/

/-- A patch of a document column with a value that can stand in a document. -/
structure Patch.Fits (patch : Patch) : Prop where
  target : patch.target.type.tag.fits .json = true
  value : patch.value.tag.fits .json = true

/-- The changes that the calls of an update make, with well-formed values. -/
inductive Change.Made : Change → Prop
  | set {column : Column} {value : Expr} (hvalue : value.WellFormed) : Made (.set column value)
  | setValue {column : Column} {value : Document} : Made (.setValue column value)
  | setNull {column : Column} : Made (.setNull column)
  | setTyped {column : Column} {value : Document} {type : SqlType} :
      Made (.setTyped column value type)
  | setJson {column : Column} {path : String} {value : Document} {change : Change}
      (hcall : Change.setJson column path value = .ok change) : Made change
  | setJsonAt {column : Column} {inputs : List String} {value : Document} {change : Change}
      (hcall : Change.setJsonAt column inputs value = .ok change) : Made change
  | setJsonExpr {column : Column} {inputs : List String} {value : Expr} {change : Change}
      (hvalue : value.WellFormed)
      (hcall : Change.setJsonExpr column inputs value = .ok change) : Made change
  | patch {target : ColumnRef} {path : JsonPath} {value : Expr} {patch : Patch}
      (hvalue : value.WellFormed) (hcall : Patch.of target path value = .ok patch) :
      Made (.patch patch)

/-- What later steps need of a change. -/
def Change.Sound : Change → Prop
  | .assign change => change.value.WellFormed
  | .patch change => change.value.WellFormed ∧ change.Fits

theorem Operator.checkTag_set {index : Nat} {name : String} {tag : Tag}
    (hslot : (Operator.contract .set).slotAt index = some (.json name))
    (h : Operator.checkTag .set index tag = .ok ()) : tag.fits .json = true := by
  rw [checkTag, hslot, Option.filter_some] at h
  cases htag : tag.fits .json with
  | true => rfl
  | false => simp [Slot.accepts, Slot.json, htag] at h

theorem Patch.of_eq_ok {target : ColumnRef} {path : JsonPath} {value : Expr} {patch : Patch}
    (h : Patch.of target path value = .ok patch) :
    patch = ⟨target, path, value⟩ ∧ patch.Fits := by
  unfold Patch.of at h
  split at h
  · cases h
  · obtain ⟨⟨⟩, htarget, h⟩ := bind_eq_ok.1 h
    obtain ⟨⟨⟩, hvalue, h⟩ := bind_eq_ok.1 h
    cases h
    exact ⟨rfl, Operator.checkTag_set rfl htarget, Operator.checkTag_set rfl hvalue⟩

theorem Change.sound_setJsonExpr {column : Column} {inputs : List String} {value : Expr}
    {change : Change} (hvalue : value.WellFormed)
    (h : setJsonExpr column inputs value = .ok change) : change.Sound := by
  obtain ⟨path, -, h⟩ := bind_eq_ok.1 h
  obtain ⟨patch, hpatch, h⟩ := bind_eq_ok.1 h
  cases h
  obtain ⟨rfl, hfits⟩ := Patch.of_eq_ok hpatch
  exact ⟨hvalue, hfits⟩

theorem Change.sound_setValue (column : Column) (value : Document) :
    (setValue column value).Sound := by
  cases value with
  | array items =>
      rw [setValue]
      split <;> exact trivial
  | _ => exact trivial

theorem Change.Made.sound {change : Change} (h : change.Made) : change.Sound := by
  cases h with
  | set hvalue => exact hvalue
  | setValue => exact sound_setValue _ _
  | setNull => exact trivial
  | setTyped => exact trivial
  | setJson hcall => exact sound_setJsonExpr (Expr.wellFormed_constant _) hcall
  | setJsonAt hcall => exact sound_setJsonExpr (Expr.wellFormed_constant _) hcall
  | setJsonExpr hvalue hcall => exact sound_setJsonExpr hvalue hcall
  | patch hvalue hcall =>
      obtain ⟨rfl, hfits⟩ := Patch.of_eq_ok hcall
      exact ⟨hvalue, hfits⟩

theorem Change.sound_assignment {changes : List Change}
    (hsound : ∀ change ∈ changes, change.Sound) :
    ∀ assignment ∈ assignments changes, assignment.value.WellFormed := by
  intro assignment hmem
  exact hsound _ (mem_iff.2 (.inl ⟨assignment, hmem, rfl⟩))

theorem Change.sound_patch {changes : List Change}
    (hsound : ∀ change ∈ changes, change.Sound) :
    ∀ patch ∈ patches changes, patch.value.WellFormed ∧ patch.Fits := by
  intro patch hmem
  exact hsound _ (mem_iff.2 (.inr ⟨patch, hmem, rfl⟩))

theorem Change.eq_nil_iff {changes : List Change} :
    changes = [] ↔ assignments changes = [] ∧ patches changes = [] := by
  constructor
  · rintro rfl
    exact ⟨rfl, rfl⟩
  · rintro ⟨hassignments, hpatches⟩
    rw [List.eq_nil_iff_forall_not_mem]
    intro change hmem
    rcases mem_iff.1 hmem with ⟨assignment, h, -⟩ | ⟨patch, h, -⟩
    · rw [hassignments] at h
      cases h
    · rw [hpatches] at h
      cases h

/-! ## Foreign columns -/

/-- Where an answer stands for a reason, the first answer in a list belongs to
an element with a reason that no element before it has any. -/
theorem findSome?_eq_first {α β γ : Type} {f : α → Option β} {reason : α → γ → Prop}
    {answer : α → γ → β} (hf : ∀ a b, f a = some b ↔ ∃ c, reason a c ∧ b = answer a c)
    {as : List α} {b : β} :
    as.findSome? f = some b ↔
      ∃ before a after c, as = before ++ a :: after ∧
        (∀ earlier ∈ before, ∀ c, ¬ reason earlier c) ∧ reason a c ∧ b = answer a c := by
  have hnone : ∀ a, f a = none ↔ ∀ c, ¬ reason a c := by
    intro a
    rw [Option.eq_none_iff_forall_ne_some]
    constructor
    · intro h c hc
      exact h _ ((hf a _).2 ⟨c, hc, rfl⟩)
    · intro h b hb
      obtain ⟨c, hc, -⟩ := (hf a b).1 hb
      exact h c hc
  simp only [List.findSome?_eq_some_iff, hf, hnone]
  constructor
  · rintro ⟨before, a, after, rfl, ⟨c, hc, rfl⟩, hbefore⟩
    exact ⟨before, a, after, c, rfl, hbefore, hc, rfl⟩
  · rintro ⟨before, a, after, c, rfl, hbefore, hc, rfl⟩
    exact ⟨before, a, after, rfl, ⟨c, hc, rfl⟩, hbefore⟩

/-- The owner of a column, if it names neither the table in full nor its last
piece. -/
def ColumnRef.ForeignTo (table : String) (target : ColumnRef) (owner : String) : Prop :=
  target.owner = some owner ∧ owner ≠ table ∧ (Text.pieces table).getLast? ≠ some owner

namespace Update

theorem foreign?_eq_some {table : String} {target : ColumnRef} {fault : PathFault} :
    foreign? table target = some fault ↔
      ∃ owner, target.ForeignTo table owner ∧
        fault = .foreignColumn target.path owner table := by
  rw [foreign?]
  cases howner : target.owner with
  | none => simp [ColumnRef.ForeignTo, howner]
  | some owner =>
      rw [Option.filter_some]
      cases hnames : ownerNames table owner with
      | true =>
          have hnot : ¬ target.ForeignTo table owner := by
            rintro ⟨-, hfull, hlast⟩
            rw [ownerNames, Bool.or_eq_true, beq_iff_eq, beq_iff_eq] at hnames
            exact hnames.elim hfull hlast
          simp only [Bool.not_true, Bool.false_eq_true, if_false, reduceCtorEq, false_iff]
          rintro ⟨other, hforeign, -⟩
          obtain rfl : owner = other := Option.some.inj (howner.symm.trans hforeign.1)
          exact hnot hforeign
      | false =>
          have hforeign : target.ForeignTo table owner := by
            rw [ownerNames, Bool.or_eq_false_iff, beq_eq_false_iff_ne, beq_eq_false_iff_ne]
              at hnames
            exact ⟨howner, hnames.1, hnames.2⟩
          simp only [Bool.not_false, if_true, Option.some.injEq]
          constructor
          · rintro rfl
            exact ⟨owner, hforeign, rfl⟩
          · rintro ⟨other, hother, rfl⟩
            obtain rfl : owner = other := Option.some.inj (howner.symm.trans hother.1)
            rfl

theorem ofChanges_eq_error {table : String} {changes : List Change} {fault : Fault} :
    ofChanges table changes = .error fault ↔
      ∃ before change after owner, changes = before ++ change :: after ∧
        (∀ earlier ∈ before, ∀ owner, ¬ earlier.target.ForeignTo table owner) ∧
        change.target.ForeignTo table owner ∧
        fault = .path (.foreignColumn change.target.path owner table) := by
  have hfirst : ∀ (change : Change) (fault : Fault),
      (foreign? table change.target).map Fault.path = some fault ↔
        ∃ owner, change.target.ForeignTo table owner ∧
          fault = .path (.foreignColumn change.target.path owner table) := by
    intro change fault
    rw [Option.map_eq_some_iff]
    simp only [foreign?_eq_some]
    constructor
    · rintro ⟨_, ⟨owner, howner, rfl⟩, rfl⟩
      exact ⟨owner, howner, rfl⟩
    · rintro ⟨owner, howner, rfl⟩
      exact ⟨_, ⟨owner, howner, rfl⟩, rfl⟩
  rw [← findSome?_eq_first hfirst]
  change _ ↔ changes.findSome?
    (Option.map Fault.path ∘ fun change => foreign? table change.target) = some fault
  rw [← List.map_findSome?, ofChanges_eq]
  cases changes.findSome? fun change => foreign? table change.target with
  | none => simp
  | some first => simp

end Update

/-! ## Columns that refuse patches -/

/-- The fault of a patch around a value with some tag. -/
def subjectFault? (tag : Tag) : Option Fault :=
  if tag.fits .json then none else some (.operandTag .set (.json "subject") tag)

namespace Patch

theorem around_of_fits {patch : Patch} (hpatch : patch.Fits) (current : Expr) :
    patch.around current =
      match subjectFault? current.tag with
      | some fault => .error fault
      | none => .ok (patch.wrap current) := by
  have hsubject : Expr.operandFault? .set 0 current = subjectFault? current.tag :=
    Expr.operandFault?_json rfl current
  have hpath : Expr.operandFault? .set 1 (Expr.pathOperand patch.path) = none := rfl
  have hvalue : Expr.operandFault? .set 2 patch.value = none :=
    (Expr.operandFault?_json rfl patch.value).trans (if_pos hpatch.value)
  rw [around, Expr.apply, Expr.applicationFault?, if_pos (by rfl)]
  simp only [Expr.operandsFault?, hsubject, hpath, hvalue]
  cases subjectFault? current.tag <;> rfl

/-- The fault of a patch among assignments, which is that of a value assigned
to its column.  A column that is not assigned takes every patch. -/
def refusal? (assignments : List Assignment) (patch : Patch) : Option Fault :=
  (column? assignments patch.key).bind fun assignment => subjectFault? assignment.value.tag

theorem mergeInto_eq_error {patch : Patch} (hpatch : patch.Fits)
    {assignments : List Assignment} {fault : Fault} :
    patch.mergeInto assignments = .error fault ↔ refusal? assignments patch = some fault := by
  induction assignments with
  | nil =>
      have htag : (Expr.column patch.target).tag.fits .json = true := hpatch.target
      rw [mergeInto, around_of_fits hpatch, subjectFault?, if_pos htag]
      simp [refusal?, column?, bind, Except.bind, pure, Except.pure]
  | cons assignment rest ih =>
      rw [mergeInto, refusal?, column?_cons]
      by_cases hkey : assignment.key = patch.key
      · have hsegments : assignment.target.segments = patch.target.segments := hkey
        rw [if_pos hsegments, if_pos hkey, around_of_fits hpatch, Option.bind_some]
        cases subjectFault? assignment.value.tag <;> simp [bind, Except.bind, pure, Except.pure]
      · have hsegments : ¬ assignment.target.segments = patch.target.segments := hkey
        rw [if_neg hsegments, if_neg hkey, ← refusal?, ← ih]
        cases patch.mergeInto rest <;> simp [bind, Except.bind, pure, Except.pure]

theorem refusal?_eq_none {patch : Patch} (hpatch : patch.Fits)
    {assignments merged : List Assignment} (h : patch.mergeInto assignments = .ok merged) :
    refusal? assignments patch = none := by
  rw [Option.eq_none_iff_forall_ne_some]
  intro fault hfault
  rw [(mergeInto_eq_error hpatch).2 hfault] at h
  cases h

/-- After a merge the column of the patch holds a document, and no other
column has changed; so the same patches are refused as before. -/
theorem refusal?_mergeInto {patch : Patch} (hpatch : patch.Fits)
    {assignments merged : List Assignment} (h : patch.mergeInto assignments = .ok merged)
    (other : Patch) : refusal? merged other = refusal? assignments other := by
  rw [refusal?, column?_mergeInto h]
  by_cases hkey : patch.key = other.key
  · have hnone := refusal?_eq_none hpatch h
    rw [refusal?, hkey] at hnone
    rw [if_pos hkey, Option.bind_some]
    exact hnone.symm
  · rw [if_neg hkey]
    rfl

theorem merge_eq_error {patches : List Patch} (hpatches : ∀ patch ∈ patches, patch.Fits)
    {start : List Assignment} {fault : Fault} :
    patches.foldlM (fun assignments patch => patch.mergeInto assignments) start = .error fault ↔
      patches.findSome? (refusal? start) = some fault := by
  induction patches generalizing start with
  | nil => simp [pure, Except.pure]
  | cons patch patches ih =>
      obtain ⟨hpatch, hothers⟩ := List.forall_mem_cons.1 hpatches
      rw [List.foldlM_cons, List.findSome?_cons]
      cases hmerge : patch.mergeInto start with
      | error first =>
          rw [(mergeInto_eq_error hpatch).1 hmerge]
          simp [bind, Except.bind]
      | ok next =>
          have hsame : refusal? next = refusal? start :=
            funext (refusal?_mergeInto hpatch hmerge)
          rw [refusal?_eq_none hpatch hmerge, ← hsame]
          exact ih hothers

end Patch

theorem Tag.fits_json_iff {tag : Tag} : tag.fits .json = true ↔ tag = .json ∨ tag = .null := by
  cases tag <;> decide

theorem Tag.fits_boolean_iff {tag : Tag} :
    tag.fits .boolean = true ↔ tag = .boolean ∨ tag = .null := by
  cases tag <;> decide

/-- The tag of the last value assigned to a patch's column, if that is no
document and no null. -/
def Patch.RefusedFor (assignments : List Assignment) (patch : Patch) (tag : Tag) : Prop :=
  ∃ last, (assignments.findRev? fun assignment => assignment.key = patch.key) = some last ∧
    last.value.tag = tag ∧ tag ≠ .json ∧ tag ≠ .null

theorem Patch.refusal?_placed (assignments : List Assignment) (patch : Patch) (fault : Fault) :
    refusal? (assignments.foldl (fun placed assignment => assignment.place placed) []) patch =
        some fault ↔
      ∃ tag, patch.RefusedFor assignments tag ∧
        fault = .operandTag .set (.json "subject") tag := by
  have hnone : column? [] patch.key = none := rfl
  rw [refusal?, column?_placed, hnone, Option.or_none]
  simp only [Option.bind_eq_some_iff, RefusedFor, subjectFault?]
  constructor
  · rintro ⟨last, hlast, hfault⟩
    split at hfault
    · cases hfault
    · rename_i hfits
      rw [Tag.fits_json_iff, not_or] at hfits
      exact ⟨_, ⟨last, hlast, rfl, hfits⟩, (Option.some.inj hfault).symm⟩
  · rintro ⟨_, ⟨last, hlast, rfl, hfits⟩, rfl⟩
    rw [← not_or, ← Tag.fits_json_iff] at hfits
    exact ⟨last, hlast, if_neg hfits⟩

theorem Patch.refusal?_eq_of_sameKey (assignments : List Assignment) (a b : Patch)
    (h : sameKey a b = true) : refusal? assignments a = refusal? assignments b := by
  rw [refusal?, refusal?, key_eq_of_sameKey a b h]

namespace Update

section Collected

variable {table : String} {assignments : List Assignment} {patches : List Patch}

theorem isEmpty_collected :
    (collected table assignments patches).isEmpty = true ↔ assignments = [] ∧ patches = [] := by
  have hplaced :
      (assignments.foldl (fun placed assignment => assignment.place placed) []).isEmpty = true ↔
        assignments = [] := by
    have hkeys := columnKeys_placed assignments []
    rw [columnKeys, columnKeys, columnKeys, List.map_nil, foldl_addNew_nil] at hkeys
    rw [List.isEmpty_iff, ← List.map_eq_nil_iff (f := Assignment.key), hkeys,
      eraseDupsBy_eq_nil, List.map_eq_nil_iff]
  rw [isEmpty, collected, Bool.and_eq_true, hplaced, List.isEmpty_iff, foldl_addNew_nil,
    eraseDupsBy_eq_nil]

theorem lower_collected_eq_error (hpatches : ∀ patch ∈ patches, patch.Fits) {fault : Fault} :
    (collected table assignments patches).lower = .error fault ↔
      (assignments = [] ∧ patches = []) ∧ fault = .emptyUpdate table ∨
      ∃ before patch after tag, patches = before ++ patch :: after ∧
        (∀ earlier ∈ before, ∀ tag, ¬ earlier.RefusedFor assignments tag) ∧
        patch.RefusedFor assignments tag ∧
        fault = .operandTag .set (.json "subject") tag := by
  rw [← findSome?_eq_first (Patch.refusal?_placed assignments), lower]
  by_cases hempty : (collected table assignments patches).isEmpty = true
  · obtain ⟨hassignments, hpatches⟩ := isEmpty_collected.1 hempty
    rw [if_pos hempty, hassignments, hpatches]
    simp [collected, eq_comm]
  · have hsome := mt isEmpty_collected.2 hempty
    have hkept : ∀ patch ∈ patches.foldl (addNew Patch.sameKey) [], patch.Fits := by
      intro patch hmem
      exact hpatches patch ((mem_of_mem_foldl_addNew hmem).resolve_left List.not_mem_nil)
    rw [if_neg hempty, collected, Patch.merge_eq_error hkept,
      findSome?_foldl_addNew (Patch.refusal?_eq_of_sameKey _), List.nil_append]
    simp [hsome]

end Collected

end Update

/-! ## Filters that are no conditions -/

namespace Assignment

theorem mem_of_mem_place {assignment other : Assignment} {assignments : List Assignment}
    (h : other ∈ assignment.place assignments) : other = assignment ∨ other ∈ assignments := by
  induction assignments with
  | nil => exact .inl (List.mem_singleton.1 h)
  | cons first rest ih =>
      rw [place_cons] at h
      split at h
      · exact (List.mem_cons.1 h).imp_right (List.mem_cons_of_mem first)
      · rcases List.mem_cons.1 h with rfl | hrest
        · exact .inr List.mem_cons_self
        · exact (ih hrest).imp_right (List.mem_cons_of_mem first)

theorem mem_of_mem_placed {added start : List Assignment} {assignment : Assignment}
    (h : assignment ∈ added.foldl (fun placed assignment => assignment.place placed) start) :
    assignment ∈ start ∨ assignment ∈ added := by
  induction added generalizing start with
  | nil => exact .inl h
  | cons first added ih =>
      rcases ih h with hplaced | hadded
      · rcases mem_of_mem_place hplaced with rfl | hstart
        · exact .inr List.mem_cons_self
        · exact .inl hstart
      · exact .inr (List.mem_cons_of_mem first hadded)

end Assignment

theorem Update.WellFormed.collected {table : String} {assignments : List Assignment}
    {patches : List Patch}
    (hassignments : ∀ assignment ∈ assignments, assignment.value.WellFormed)
    (hpatches : ∀ patch ∈ patches, patch.value.WellFormed) :
    (collected table assignments patches).WellFormed := by
  constructor
  · intro assignment hmem
    have hadded := (Assignment.mem_of_mem_placed hmem).resolve_left List.not_mem_nil
    exact hassignments assignment hadded
  · intro patch hmem
    have hadded := (mem_of_mem_foldl_addNew hmem).resolve_left List.not_mem_nil
    exact hpatches patch hadded

namespace Dialect

theorem draftUpdate_of_drafts {dialect : Dialect} {update : Update} {filter : Option Expr}
    {lowered : List Assignment} {drafts : List Draft} (hlower : update.lower = .ok lowered)
    (hdrafts : List.Forall₂ (fun assignment d => dialect.draftAssignment assignment = .ok d)
      lowered drafts) :
    dialect.draftUpdate update filter =
      (dialect.draftFilter filter).map fun condition =>
        .sql ("UPDATE " ++ Identifier.qualified (Text.pieces update.table) ++ " SET ") ::
          (Draft.separate ", " drafts ++ condition) := by
  have hall : lowered.mapM dialect.draftAssignment = .ok drafts := mapM_eq_ok.2 hdrafts
  rw [draftUpdate, hlower]
  cases dialect.draftFilter filter <;>
    simp [hall, bind, Except.bind, Except.mapError, Except.map, pure, Except.pure]

/-- Nothing but its tag can keep a well-formed filter from compiling. -/
theorem postgres_draftFilter_eq_error {filter : Option Expr}
    (hfilter : ∀ condition, filter = some condition → condition.WellFormed) {fault : Fault} :
    postgres.draftFilter filter = .error fault ↔
      ∃ condition, filter = some condition ∧
        condition.tag ≠ .boolean ∧ condition.tag ≠ .null ∧ fault = .filterTag condition.tag := by
  cases filter with
  | none => simp [draftFilter]
  | some condition =>
      obtain ⟨draft, hdraft, -⟩ := postgres_draft_parameters (hfilter condition rfl)
      rw [draftFilter, hdraft]
      by_cases hfits : condition.tag.fits .boolean = true
      · rw [if_pos hfits]
        rw [Tag.fits_boolean_iff] at hfits
        simp only [Except.map, Except.mapError, reduceCtorEq, false_iff]
        rintro ⟨_, ⟨⟩, hboolean, hnull, -⟩
        exact hfits.elim hboolean hnull
      · rw [if_neg hfits]
        rw [Tag.fits_boolean_iff, not_or] at hfits
        constructor
        · intro hfault
          exact ⟨condition, rfl, hfits.1, hfits.2, (Except.error.inj hfault).symm⟩
        · rintro ⟨_, ⟨⟩, -, -, rfl⟩
          rfl

theorem postgres_compileUpdate_eq_error (style : Placeholder) {update : Update}
    {filter : Option Expr} {lowered : List Assignment} (hupdate : update.WellFormed)
    (hfilter : ∀ condition, filter = some condition → condition.WellFormed)
    (hlower : update.lower = .ok lowered) {fault : Fault} :
    postgres.compileUpdate style update filter = .error fault ↔
      ∃ condition, filter = some condition ∧
        condition.tag ≠ .boolean ∧ condition.tag ≠ .null ∧ fault = .filterTag condition.tag := by
  obtain ⟨drafts, hdrafts⟩ := exists_forall₂ fun assignment hmem =>
    postgres_draftAssignment_parameters (hupdate.lower hlower assignment hmem)
  have hall := hdrafts.imp fun _ _ hassignment => hassignment.1
  rw [compileUpdate, draftUpdate_of_drafts hlower hall, ← postgres_draftFilter_eq_error hfilter]
  cases postgres.draftFilter filter <;> simp [Except.map]

/-- An update made by successful calls fails at the first column of another
table, else at being empty or at the first patch of a column last assigned
something else than a document or null, else at a filter that is neither a
condition nor null.  Otherwise it compiles. -/
theorem postgres_update_faults (style : Placeholder) (table : String) (changes : List Change)
    (filter : Option Expr) (hmade : ∀ change ∈ changes, change.Made)
    (hfilter : ∀ condition, filter = some condition → condition.WellFormed) :
    (∀ fault, Update.ofChanges table changes = .error fault ↔
      ∃ before change after owner, changes = before ++ change :: after ∧
        (∀ earlier ∈ before, ∀ owner, ¬ earlier.target.ForeignTo table owner) ∧
        change.target.ForeignTo table owner ∧
        fault = .path (.foreignColumn change.target.path owner table)) ∧
    ∀ update, Update.ofChanges table changes = .ok update →
      (∀ fault, update.lower = .error fault ↔
        changes = [] ∧ fault = .emptyUpdate table ∨
        ∃ before patch after tag, Change.patches changes = before ++ patch :: after ∧
          (∀ earlier ∈ before, ∀ tag, ¬ earlier.RefusedFor (Change.assignments changes) tag) ∧
          patch.RefusedFor (Change.assignments changes) tag ∧
          fault = .operandTag .set (.json "subject") tag) ∧
      ∀ lowered, update.lower = .ok lowered →
        (∀ fault, postgres.compileUpdate style update filter = .error fault ↔
          ∃ condition, filter = some condition ∧
            condition.tag ≠ .boolean ∧ condition.tag ≠ .null ∧
            fault = .filterTag condition.tag) ∧
        ((∀ condition, filter = some condition →
            condition.tag = .boolean ∨ condition.tag = .null) →
          ∃ statement, postgres.compileUpdate style update filter = .ok statement) := by
  have hsound : ∀ change ∈ changes, change.Sound := fun change hmem => (hmade change hmem).sound
  have hpatches := Change.sound_patch hsound
  refine ⟨fun fault => Update.ofChanges_eq_error, ?_⟩
  intro update hupdate
  obtain rfl := Update.eq_collected_of_ofChanges hupdate
  refine ⟨?_, ?_⟩
  · intro fault
    rw [Update.lower_collected_eq_error fun patch hmem => (hpatches patch hmem).2,
      ← Change.eq_nil_iff]
  · intro lowered hlower
    have hwell : (Update.collected table (Change.assignments changes)
        (Change.patches changes)).WellFormed :=
      .collected (Change.sound_assignment hsound) fun patch hmem => (hpatches patch hmem).1
    refine ⟨fun fault => postgres_compileUpdate_eq_error style hwell hfilter hlower, ?_⟩
    intro htag
    cases hcompile : postgres.compileUpdate style
      (Update.collected table (Change.assignments changes) (Change.patches changes)) filter with
    | ok statement => exact ⟨statement, rfl⟩
    | error fault =>
        obtain ⟨condition, hsome, hboolean, hnull, -⟩ :=
          (postgres_compileUpdate_eq_error style hwell hfilter hlower).1 hcompile
        exact absurd (htag condition hsome) (by simp [hboolean, hnull])

/-- A foreign column among changes of which another would fail later, a text
between two patches of its column, and a filter that is a text. -/
theorem postgres_update_faults_text :
    let doc : ColumnRef := ⟨none, ["doc"], .jsonb⟩
    let foreign : ColumnRef := ⟨some "other", ["doc"], .jsonb⟩
    let patch (target : ColumnRef) (segment : String) : Patch :=
      ⟨target, [segment], .constant .jsonNull⟩
    let text : Expr := .constant (.text "x")
    let column : Column := ⟨none, "doc", .text⟩
    let changes : List Change :=
      [.patch (patch doc "a"), .set column text, .patch (patch doc "b")]
    Update.ofChanges "t" (changes ++ [.patch (patch foreign "c")]) =
        .error (.path (.foreignColumn "doc" "other" "t")) ∧
      (∃ update, Update.ofChanges "t" changes = .ok update ∧
        update.lower = .error (.operandTag .set (.json "subject") .text)) ∧
      ∃ update, Update.ofChanges "t" [.patch (patch doc "a")] = .ok update ∧
        postgres.compileUpdate .anonymous update (some text) = .error (.filterTag .text) := by
  intro doc foreign patch text column changes
  have hpatch : ∀ target segment, target.type = .jsonb → segment ≠ "" →
      (Change.patch (patch target segment)).Made := by
    rintro ⟨owner, segments, type⟩ segment rfl hsegment
    have hcall : Patch.of ⟨owner, segments, .jsonb⟩ [segment] (.constant .jsonNull) =
        .ok ⟨⟨owner, segments, .jsonb⟩, [segment], .constant .jsonNull⟩ := by
      rw [Patch.of, if_neg (by simpa using hsegment.symm)]
      rfl
    exact .patch (Expr.wellFormed_constant _) hcall
  have hchanges : ∀ change ∈ changes ++ [.patch (patch foreign "c")], change.Made := by
    simp only [changes, List.cons_append, List.nil_append, List.forall_mem_cons,
      List.not_mem_nil, false_imp_iff, implies_true, and_true]
    exact ⟨hpatch _ _ rfl (by decide), .set trivial, hpatch _ _ rfl (by decide),
      hpatch _ _ rfl (by decide)⟩
  have hown : ∀ change ∈ changes, change.Made := fun change hmem =>
    hchanges change (List.mem_append_left _ hmem)
  have htext : ∀ condition, some text = some condition → condition.WellFormed := by
    rintro _ ⟨⟩
    trivial
  refine ⟨?_, ⟨_, rfl, ?_⟩, _, rfl, ?_⟩
  · refine ((postgres_update_faults .anonymous "t" _ none hchanges (by simp)).1 _).2
      ⟨changes, .patch (patch foreign "c"), [], "other", rfl, ?_, ?_, rfl⟩
    · simp [changes, patch, doc, column, ColumnRef.ForeignTo, Change.target, Change.set,
        Column.ref]
    · exact ⟨rfl, by decide, by decide +kernel⟩
  · refine (((postgres_update_faults .anonymous "t" changes none hown (by simp)).2 _ rfl).1 _).2
      (.inr ⟨[], patch doc "a", [patch doc "b"], .text, rfl, by simp, ?_, rfl⟩)
    exact ⟨⟨column.ref, text⟩, rfl, rfl, by decide, by decide⟩
  · refine ((((postgres_update_faults .anonymous "t" [.patch (patch doc "a")] (some text)
      (List.forall_mem_singleton.2 (hpatch _ _ rfl (by decide))) htext).2 _ rfl).2 _ rfl).1 _).2
      ⟨text, rfl, by decide, by decide, rfl⟩

end Dialect

end JsonbAlgebra
