import JsonbAlgebra.Proofs.UpdateCalls

/-!
# Text does not depend on literals

Two runs of the compiler are compared, over trees that differ in nothing but
their constants.  Corresponding constants have one tag and take equally many
marks, and are otherwise arbitrary.  Every check looks at tags and every text is
made of templates, identifiers and marks, so the runs fail alike or write the
same text.

The relation is kept by each step: by drafts along the tree, by merges along
the patches, and by calls along the update that they build.
-/

namespace JsonbAlgebra

/-! ## Two runs -/

/-- Two computations that fail with one fault or succeed with related
results. -/
inductive Agree {ε α β : Type} (R : α → β → Prop) : Except ε α → Except ε β → Prop
  | error (fault : ε) : Agree R (.error fault) (.error fault)
  | ok {a : α} {b : β} (h : R a b) : Agree R (.ok a) (.ok b)

namespace Agree

variable {ε α β γ δ : Type} {R : α → β → Prop} {S : γ → δ → Prop} {x : Except ε α}
  {y : Except ε β}

theorem bind {f : α → Except ε γ} {g : β → Except ε δ} (h : Agree R x y)
    (hf : ∀ a b, R a b → Agree S (f a) (g b)) : Agree S (x >>= f) (y >>= g) := by
  cases h with
  | error fault => exact .error fault
  | ok hab => exact hf _ _ hab

theorem bind_same {z : Except ε α} {f : α → Except ε γ} {g : α → Except ε δ}
    (hf : ∀ a, Agree S (f a) (g a)) : Agree S (z >>= f) (z >>= g) := by
  cases z with
  | error fault => exact .error fault
  | ok a => exact hf a

theorem map {f : α → γ} {g : β → δ} (h : Agree R x y) (hf : ∀ a b, R a b → S (f a) (g b)) :
    Agree S (x.map f) (y.map g) := by
  cases h with
  | error fault => exact .error fault
  | ok hab => exact .ok (hf _ _ hab)

theorem mapError {ε' : Type} (f : ε → ε') (h : Agree R x y) :
    Agree R (x.mapError f) (y.mapError f) := by
  cases h with
  | error fault => exact .error (f fault)
  | ok hab => exact .ok hab

theorem eq_error_iff (h : Agree R x y) (fault : ε) : x = .error fault ↔ y = .error fault := by
  cases h with
  | error first => simp
  | ok hab => simp

theorem of_eq_ok {a : α} {b : β} (h : Agree R x y) (hx : x = .ok a) (hy : y = .ok b) :
    R a b := by
  subst hx hy
  cases h with
  | ok hab => exact hab

theorem mapM {f : α → Except ε γ} {g : β → Except ε δ} {as : List α} {bs : List β}
    (h : List.Forall₂ R as bs) (hf : ∀ a b, R a b → Agree S (f a) (g b)) :
    Agree (List.Forall₂ S) (as.mapM f) (bs.mapM g) := by
  induction h with
  | nil => exact .ok .nil
  | cons hfirst _ ih =>
      rw [List.mapM_cons, List.mapM_cons]
      refine (hf _ _ hfirst).bind fun c d hcd => ?_
      exact ih.bind fun cs ds hrest => .ok (.cons hcd hrest)

theorem foldlM {f : γ → α → Except ε γ} {g : δ → β → Except ε δ} {as : List α} {bs : List β}
    (h : List.Forall₂ R as bs)
    (hstep : ∀ c d a b, S c d → R a b → Agree S (f c a) (g d b)) {c : γ} {d : δ}
    (hstart : S c d) : Agree S (as.foldlM f c) (bs.foldlM g d) := by
  induction h generalizing c d with
  | nil => exact .ok hstart
  | cons hfirst _ ih =>
      rw [List.foldlM_cons, List.foldlM_cons]
      exact (hstep _ _ _ _ hstart hfirst).bind fun next other hnext => ih hnext

end Agree

/-! ## Constants of one form -/

structure Constant.SameForm (a b : Constant) : Prop where
  tag : a.tag = b.tag
  slots : a.slots = b.slots

namespace Constant.SameForm

theorem of_declared {a b : Constant} {type other : SqlType} (ha : a.declared = some type)
    (hb : b.declared = some other) (htag : type.tag = other.tag)
    (halist : a.isValueList = false) (hblist : b.isValueList = false) : a.SameForm b := by
  constructor
  · rw [tag_of_declared ha halist, tag_of_declared hb hblist, htag]
  · rw [slots_eq_one halist, slots_eq_one hblist]

theorem isValueList {a b : Constant} (h : a.SameForm b) : a.isValueList = b.isValueList := by
  rw [Bool.eq_iff_iff, ← tag_eq_valueList, ← tag_eq_valueList, h.tag]

end Constant.SameForm

/-! ## Drafts of one form -/

inductive Part.SameForm : Part → Part → Prop
  | sql (text : String) : SameForm (.sql text) (.sql text)
  | parameter {a b : Constant} (h : a.SameForm b) : SameForm (.parameter a) (.parameter b)

namespace Draft

def SameForm (first second : Draft) : Prop :=
  List.Forall₂ Part.SameForm first second

theorem SameForm.append {first second third fourth : Draft} (h : SameForm first second)
    (hrest : SameForm third fourth) : SameForm (first ++ third) (second ++ fourth) :=
  List.rel_append h hrest

theorem marks_eq (style : Placeholder) (position : Nat) (constant : Constant) :
    marks style position constant =
      if constant.isValueList then
        "(" ++ ", ".intercalate ((List.range' position constant.slots).map style.mark) ++ ")"
      else style.mark position := by
  obtain ⟨literal, declared⟩ := constant
  cases literal <;> rfl

theorem SameForm.textFrom_eq {first second : Draft} (h : SameForm first second)
    (style : Placeholder) (position : Nat) :
    textFrom style position first = textFrom style position second := by
  induction h generalizing position with
  | nil => rfl
  | cons hpart _ ih =>
      cases hpart with
      | sql text => rw [textFrom, textFrom, ih]
      | parameter hconstant =>
          rw [textFrom, textFrom, marks_eq, marks_eq, hconstant.isValueList, hconstant.slots, ih]

theorem SameForm.separate (separator : String) {drafts others : List Draft}
    (h : List.Forall₂ SameForm drafts others) :
    SameForm (separate separator drafts) (separate separator others) := by
  induction h with
  | nil => exact .nil
  | @cons first second firsts seconds hfirst hrest ih =>
      cases hrest with
      | nil => exact hfirst
      | cons hnext hothers =>
          rw [separate_cons_cons, separate_cons_cons]
          exact hfirst.append (.cons (.sql separator) ih)

theorem SameForm.flatten {drafts others : List Draft} (h : List.Forall₂ SameForm drafts others) :
    SameForm drafts.flatten others.flatten := by
  induction h with
  | nil => exact .nil
  | cons hfirst _ ih =>
      rw [List.flatten_cons, List.flatten_cons]
      exact hfirst.append ih

theorem SameForm.sql_eq {ε : Type} {draft other : Except ε Draft} (h : Agree SameForm draft other)
    (style : Placeholder) :
    (draft.map (finish style)).map Statement.sql =
      (other.map (finish style)).map Statement.sql := by
  cases h with
  | error fault => rfl
  | ok hsame => exact congrArg Except.ok (hsame.textFrom_eq style 1)

end Draft

namespace Template

theorem fillPiece_agree (template : Template) (operator : Operator) {operands others : List Draft}
    (h : List.Forall₂ Draft.SameForm operands others) (piece : Piece) :
    Agree Draft.SameForm (template.fillPiece operator operands piece)
      (template.fillPiece operator others piece) := by
  cases piece with
  | text value => exact .ok (.cons (.sql value) .nil)
  | operand index =>
      rw [fillPiece, fillPiece, h.length_eq]
      by_cases hindex : index < operands.length
      · have hother : index < others.length := h.length_eq ▸ hindex
        rw [List.getElem?_eq_getElem hindex, List.getElem?_eq_getElem hother]
        exact .ok (h.get hindex hother)
      · have hother : ¬ index < others.length := h.length_eq ▸ hindex
        rw [List.getElem?_eq_none (Nat.le_of_not_lt hindex),
          List.getElem?_eq_none (Nat.le_of_not_lt hother)]
        exact .error _
  | allOperands => exact .ok (Draft.SameForm.separate _ h)

theorem fill_agree (template : Template) (operator : Operator) (path : Bool)
    {operands others : List Draft} (h : List.Forall₂ Draft.SameForm operands others) :
    Agree Draft.SameForm (template.fill operator path operands)
      (template.fill operator path others) := by
  refine Agree.bind_same fun pieces => ?_
  have hpieces : List.Forall₂ Eq pieces pieces := List.forall₂_eq_eq_eq ▸ rfl
  have hdrafts := Agree.mapM hpieces fun piece other heq => by
    subst heq
    exact fillPiece_agree template operator h piece
  exact hdrafts.bind fun drafts others hsame => .ok (Draft.SameForm.flatten hsame)

end Template

/-! ## Trees of one form -/

namespace Expr

/-- The same tree up to constants of one form. -/
inductive SameTree : Expr → Expr → Prop
  | column (ref : ColumnRef) : SameTree (.column ref) (.column ref)
  | constant {a b : Constant} (h : a.SameForm b) : SameTree (.constant a) (.constant b)
  | operation (operator : Operator) {operands others : List Expr}
      (h : List.Forall₂ SameTree operands others) :
      SameTree (.operation operator operands) (.operation operator others)

theorem SameTree.tag_eq {e other : Expr} (h : e.SameTree other) : e.tag = other.tag := by
  induction e generalizing other with
  | column ref =>
      cases h with
      | column => rfl
  | constant value =>
      cases h with
      | constant hconstant => exact hconstant.tag
  | operation operator operands ih =>
      cases h with
      | @operation _ _ others hoperands =>
          have htags : List.Forall₂ (fun operand other => operand.tag = other.tag)
              operands others :=
            forall₂_imp_of_mem hoperands fun operand hmem _ hsame => ih operand hmem hsame
          have hmap : operands.map tag = others.map tag := by
            rw [← List.forall₂_eq_eq_eq]
            exact List.forall₂_map_left_iff.2 (List.forall₂_map_right_iff.2 htags)
          rw [tag, tag, tags_eq_map, tags_eq_map, hmap]

theorem isEmptyList_constant (constant : Constant) :
    (Expr.constant constant).isEmptyList = (constant.isValueList && constant.slots == 0) := by
  obtain ⟨literal, declared⟩ := constant
  cases literal with
  | list values => cases values <;> rfl
  | _ => rfl

theorem SameTree.isEmptyList_eq {e other : Expr} (h : e.SameTree other) :
    e.isEmptyList = other.isEmptyList := by
  cases h with
  | column ref => rfl
  | constant hconstant =>
      rw [isEmptyList_constant, isEmptyList_constant, hconstant.isValueList, hconstant.slots]
  | operation operator hoperands => rfl

theorem operandsFault?_eq (operator : Operator) {operands others : List Expr}
    (h : List.Forall₂ SameTree operands others) (index : Nat) :
    operandsFault? operator index operands = operandsFault? operator index others := by
  induction h generalizing index with
  | nil => rfl
  | cons hfirst _ ih =>
      rw [operandsFault?, operandsFault?, operandFault?, operandFault?, hfirst.tag_eq,
        hfirst.isEmptyList_eq, ih]

theorem apply_agree (operator : Operator) {operands others : List Expr}
    (h : List.Forall₂ SameTree operands others) :
    Agree SameTree (apply operator operands) (apply operator others) := by
  have hfault : applicationFault? operator operands = applicationFault? operator others := by
    rw [applicationFault?, applicationFault?, h.length_eq, operandsFault?_eq operator h]
  rw [apply, apply, hfault]
  cases applicationFault? operator others with
  | some fault => exact .error fault
  | none => exact .ok (.operation operator h)

theorem sameTree_pathOperand (path other : JsonPath) :
    (pathOperand path).SameTree (pathOperand other) :=
  .constant (.of_declared rfl rfl rfl rfl rfl)

end Expr

namespace Dialect

theorem takesPath_eq {operands others : List Expr}
    (h : List.Forall₂ Expr.SameTree operands others) :
    takesPath operands = takesPath others := by
  cases h with
  | nil => rfl
  | cons _ hrest =>
      cases hrest with
      | nil => rfl
      | cons hsecond _ =>
          simp only [takesPath, List.getElem?_cons_succ, List.getElem?_cons_zero, Option.map_some,
            hsecond.tag_eq]

/-- Drafts of one tree are the same text with parameters of one form between
it. -/
theorem draft_agree (dialect : Dialect) {e other : Expr} (h : e.SameTree other) :
    Agree Draft.SameForm (dialect.draft e) (dialect.draft other) := by
  induction e generalizing other with
  | column ref =>
      cases h with
      | column => exact .ok (.cons (.sql _) .nil)
  | constant value =>
      cases h with
      | constant hconstant => exact .ok (.cons (.parameter hconstant) .nil)
  | operation operator operands ih =>
      cases h with
      | @operation _ _ others hoperands =>
          have hoperand : List.Forall₂ (fun operand other =>
              Agree Draft.SameForm (dialect.draft operand) (dialect.draft other))
              operands others :=
            forall₂_imp_of_mem hoperands fun operand hmem _ hsame => ih operand hmem hsame
          have hdrafts := Agree.mapM hoperand fun _ _ hagree => hagree
          rw [draft, draft, draftAll_eq_mapM, draftAll_eq_mapM, takesPath_eq hoperands]
          exact hdrafts.bind fun drafts drafts' hsame => Template.fill_agree _ operator _ hsame

end Dialect

/-! ## Updates of one form -/

structure Assignment.SameForm (a b : Assignment) : Prop where
  target : a.target = b.target
  value : a.value.SameTree b.value

/-- Patches of one column; they may be at different paths. -/
structure Patch.SameForm (a b : Patch) : Prop where
  target : a.target = b.target
  value : a.value.SameTree b.value

structure Update.SameForm (a b : Update) : Prop where
  table : a.table = b.table
  assignments : List.Forall₂ Assignment.SameForm a.assignments b.assignments
  patches : List.Forall₂ Patch.SameForm a.patches b.patches

namespace Patch

theorem SameForm.around_agree {a b : Patch} (h : a.SameForm b) {current other : Expr}
    (hcurrent : current.SameTree other) :
    Agree Expr.SameTree (a.around current) (b.around other) :=
  Expr.apply_agree .set
    (.cons hcurrent (.cons (Expr.sameTree_pathOperand a.path b.path) (.cons h.value .nil)))

theorem SameForm.mergeInto_agree {a b : Patch} (h : a.SameForm b)
    {assignments others : List Assignment}
    (hassignments : List.Forall₂ Assignment.SameForm assignments others) :
    Agree (List.Forall₂ Assignment.SameForm) (a.mergeInto assignments) (b.mergeInto others) := by
  induction hassignments with
  | nil =>
      rw [mergeInto, mergeInto, h.target]
      refine (h.around_agree (.column b.target)).bind fun value other hvalue => ?_
      exact .ok (.cons ⟨rfl, hvalue⟩ .nil)
  | cons hfirst hrest ih =>
      rw [mergeInto, mergeInto, hfirst.target, h.target]
      split
      · refine (h.around_agree hfirst.value).bind fun value other hvalue => ?_
        exact .ok (.cons ⟨rfl, hvalue⟩ hrest)
      · exact ih.bind fun merged other hmerged => .ok (.cons hfirst hmerged)

end Patch

theorem isEmpty_eq_of_forall₂ {α β : Type} {R : α → β → Prop} {as : List α} {bs : List β}
    (h : List.Forall₂ R as bs) : as.isEmpty = bs.isEmpty := by
  cases h <;> rfl

namespace Update

theorem SameForm.isEmpty_eq {a b : Update} (h : a.SameForm b) : a.isEmpty = b.isEmpty := by
  rw [isEmpty, isEmpty, isEmpty_eq_of_forall₂ h.assignments, isEmpty_eq_of_forall₂ h.patches]

theorem SameForm.lower_agree {a b : Update} (h : a.SameForm b) :
    Agree (List.Forall₂ Assignment.SameForm) a.lower b.lower := by
  rw [lower, lower, h.isEmpty_eq, h.table]
  split
  · exact .error _
  · exact Agree.foldlM h.patches
      (fun _ _ _ _ hassignments hpatch => hpatch.mergeInto_agree hassignments)
      h.assignments

end Update

namespace Dialect

theorem draftAssignment_agree (dialect : Dialect) {a b : Assignment} (h : a.SameForm b) :
    Agree Draft.SameForm (dialect.draftAssignment a) (dialect.draftAssignment b) := by
  rw [draftAssignment, draftAssignment, h.target]
  exact (dialect.draft_agree h.value).bind fun value other hvalue => .ok (.cons (.sql _) hvalue)

theorem draftFilter_agree (dialect : Dialect) {filter other : Option Expr}
    (h : Option.Rel Expr.SameTree filter other) :
    Agree Draft.SameForm (dialect.draftFilter filter) (dialect.draftFilter other) := by
  cases h with
  | none => exact .ok .nil
  | some hfilter =>
      rw [draftFilter, draftFilter, hfilter.tag_eq]
      split
      · refine Agree.mapError _ ((dialect.draft_agree hfilter).map fun draft other hdraft => ?_)
        exact .cons (.sql " WHERE ") hdraft
      · exact .error _

theorem draftUpdate_agree (dialect : Dialect) {update other : Update} (h : update.SameForm other)
    {filter condition : Option Expr} (hfilter : Option.Rel Expr.SameTree filter condition) :
    Agree Draft.SameForm (dialect.draftUpdate update filter)
      (dialect.draftUpdate other condition) := by
  rw [draftUpdate, draftUpdate, h.table]
  refine h.lower_agree.bind fun assignments others hassignments => ?_
  have hdrafts := Agree.mapM hassignments fun _ _ hsame => dialect.draftAssignment_agree hsame
  refine (hdrafts.mapError _).bind fun drafts others hdrafts => ?_
  refine (dialect.draftFilter_agree hfilter).bind fun condition other hcondition => ?_
  exact .ok (.cons (.sql _) ((Draft.SameForm.separate _ hdrafts).append hcondition))

/-- Updates of one form compile to one text, at whatever paths their patches
are. -/
theorem compileUpdate_sql_eq (dialect : Dialect) (style : Placeholder) {update other : Update}
    (h : update.SameForm other) {filter condition : Option Expr}
    (hfilter : Option.Rel Expr.SameTree filter condition) :
    (dialect.compileUpdate style update filter).map Statement.sql =
      (dialect.compileUpdate style other condition).map Statement.sql :=
  Draft.SameForm.sql_eq (dialect.draftUpdate_agree h hfilter) style

end Dialect

/-! ## Calls of one form -/

/-- Calls on the same columns at the same paths, with literals and expressions
of one form. -/
inductive Call.SameForm : Call → Call → Prop
  | set (column : Column) {value other : Expr} (h : value.SameTree other) :
      SameForm (.set column value) (.set column other)
  | setNull (column : Column) : SameForm (.setNull column) (.setNull column)
  | setValue (column : Column) (value other : Document) :
      SameForm (.setValue column value) (.setValue column other)
  | setTyped (column : Column) (value other : Document) {type type' : SqlType}
      (htag : type.tag = type'.tag) :
      SameForm (.setTyped column value type) (.setTyped column other type')
  | setJson (column : Column) (path : String) (value other : Document) :
      SameForm (.setJson column path value) (.setJson column path other)
  | setJsonAt (column : Column) (inputs : List String) (value other : Document) :
      SameForm (.setJsonAt column inputs value) (.setJsonAt column inputs other)
  | setJsonExpr (column : Column) (inputs : List String) {value other : Expr}
      (h : value.SameTree other) :
      SameForm (.setJsonExpr column inputs value) (.setJsonExpr column inputs other)
  | patch (target : ColumnRef) (path : JsonPath) {value other : Expr}
      (h : value.SameTree other) :
      SameForm (.patch target path value) (.patch target path other)

structure Patch.Twin (a b : Patch) : Prop where
  form : a.SameForm b
  path : a.path = b.path

inductive Change.SameForm : Change → Change → Prop
  | assign {a b : Assignment} (h : a.SameForm b) : SameForm (.assign a) (.assign b)
  | patch {a b : Patch} (h : a.Twin b) : SameForm (.patch a) (.patch b)

theorem Patch.of_agree (target : ColumnRef) (path : JsonPath) {value other : Expr}
    (h : value.SameTree other) :
    Agree Patch.Twin (Patch.of target path value) (Patch.of target path other) := by
  rw [Patch.of, Patch.of, h.tag_eq]
  split
  · exact .error _
  · refine Agree.bind_same fun _ => ?_
    refine Agree.bind_same fun _ => ?_
    exact .ok ⟨⟨rfl, h⟩, rfl⟩

namespace Change

theorem SameForm.target_eq {change other : Change} (h : change.SameForm other) :
    change.target = other.target := by
  cases h with
  | assign hassignment => exact hassignment.target
  | patch hpatch => exact hpatch.form.target

theorem set_sameForm (column : Column) {value other : Expr} (h : value.SameTree other) :
    (set column value).SameForm (set column other) :=
  .assign ⟨rfl, h⟩

theorem setValue_sameForm (column : Column) (value other : Document) :
    (setValue column value).SameForm (setValue column other) := by
  rw [setValue_eq, setValue_eq]
  refine set_sameForm column (.constant ?_)
  -- whatever the document is, its type is that of the column
  exact .of_declared (Constant.declared_ofLiteral _ _) (Constant.declared_ofLiteral _ _) rfl
    (Constant.isValueList_ofLiteral _ _) (Constant.isValueList_ofLiteral _ _)

theorem setJsonExpr_agree (column : Column) (inputs : List String) {value other : Expr}
    (h : value.SameTree other) :
    Agree SameForm (setJsonExpr column inputs value) (setJsonExpr column inputs other) := by
  refine Agree.bind_same fun path => ?_
  exact (Patch.of_agree column.ref path h).bind fun patch other hpatch => .ok (.patch hpatch)

end Change

theorem Expr.sameTree_jsonOperand (value other : Document) :
    (jsonOperand value).SameTree (jsonOperand other) :=
  .constant (.of_declared rfl rfl rfl rfl rfl)

theorem Call.SameForm.change_agree {call other : Call} (h : call.SameForm other) :
    Agree Change.SameForm call.change other.change := by
  cases h with
  | set column h => exact .ok (Change.set_sameForm column h)
  | setNull column => exact .ok (Change.set_sameForm column (.constant ⟨rfl, rfl⟩))
  | setValue column value other => exact .ok (Change.setValue_sameForm column value other)
  | setTyped column value other htag =>
      have hform : (Constant.typed value _).SameForm (Constant.typed other _) :=
        .of_declared rfl rfl htag rfl rfl
      exact .ok (Change.set_sameForm column (.constant hform))
  | setJson column path value other =>
      exact Change.setJsonExpr_agree column [path] (Expr.sameTree_jsonOperand value other)
  | setJsonAt column inputs value other =>
      exact Change.setJsonExpr_agree column inputs (Expr.sameTree_jsonOperand value other)
  | setJsonExpr column inputs h => exact Change.setJsonExpr_agree column inputs h
  | patch target path h =>
      exact (Patch.of_agree target path h).map fun _ _ hpatch => .patch hpatch

/-! ## The updates that calls of one form build -/

theorem Assignment.SameForm.place {a b : Assignment} (h : a.SameForm b)
    {assignments others : List Assignment}
    (hothers : List.Forall₂ Assignment.SameForm assignments others) :
    List.Forall₂ Assignment.SameForm (a.place assignments) (b.place others) := by
  induction hothers with
  | nil => exact .cons h .nil
  | cons hfirst hrest ih =>
      rw [Assignment.place, Assignment.place, hfirst.target, h.target]
      split
      · exact .cons h hrest
      · exact .cons hfirst ih

theorem Patch.Twin.sameKey_eq {a b : Patch} (h : a.Twin b) {c d : Patch} (hother : c.Twin d) :
    sameKey a c = sameKey b d := by
  rw [sameKey, sameKey, h.form.target, h.path, hother.form.target, hother.path]

namespace Update

theorem collected_sameForm (table : String) {changes others : List Change}
    (h : List.Forall₂ Change.SameForm changes others) :
    (collected table (Change.assignments changes) (Change.patches changes)).SameForm
      (collected table (Change.assignments others) (Change.patches others)) := by
  have hassignments : List.Forall₂ Assignment.SameForm (Change.assignments changes)
      (Change.assignments others) := by
    refine List.rel_filterMap (fun change other hchange => ?_) h
    cases hchange with
    | assign hassignment => exact .some hassignment
    | patch hpatch => exact .none
  have hpatches : List.Forall₂ Patch.Twin (Change.patches changes) (Change.patches others) := by
    refine List.rel_filterMap (fun change other hchange => ?_) h
    cases hchange with
    | assign hassignment => exact .none
    | patch hpatch => exact .some hpatch
  constructor
  · rfl
  · exact List.rel_foldl (fun _ _ hplaced _ _ hassignment => hassignment.place hplaced) .nil
      hassignments
  · -- the paths decide which patches are kept, and only then are they forgotten
    rw [collected, collected, foldl_addNew_nil, foldl_addNew_nil]
    have hkept := rel_eraseDupsBy (fun _ _ hab _ _ hcd => hab.sameKey_eq hcd) hpatches
    exact hkept.imp fun _ _ hpatch => hpatch.form

theorem ofChanges_agree (table : String) {changes others : List Change}
    (h : List.Forall₂ Change.SameForm changes others) :
    Agree SameForm (ofChanges table changes) (ofChanges table others) := by
  have hforeign : (changes.findSome? fun change => foreign? table change.target) =
      others.findSome? fun change => foreign? table change.target := by
    induction h with
    | nil => rfl
    | cons hfirst _ ih =>
        rw [List.findSome?_cons, List.findSome?_cons, ih, hfirst.target_eq]
  rw [ofChanges_eq, ofChanges_eq, hforeign]
  split
  · exact .error _
  · exact .ok (collected_sameForm table h)

theorem ofCalls_agree (table : String) {calls others : List Call}
    (h : List.Forall₂ Call.SameForm calls others) :
    Agree SameForm (ofCalls table calls) (ofCalls table others) := by
  have hchanges := Agree.mapM h fun _ _ hcall => hcall.change_agree
  exact hchanges.bind fun changes others hsame => ofChanges_agree table hsame

end Update

namespace Dialect

/-- The text of an expression depends on the tags of its constants and on the
number of their marks only, and so does the text of an update that calls build,
with a filter or without one.  Where one of two such runs fails, the other fails
in the same way. -/
theorem sql_eq_of_sameForm (dialect : Dialect) (style : Placeholder) :
    (∀ e other : Expr, e.SameTree other →
      (dialect.compile style e).map Statement.sql =
        (dialect.compile style other).map Statement.sql) ∧
    ∀ (table : String) (calls others : List Call), List.Forall₂ Call.SameForm calls others →
      (∀ fault, Update.ofCalls table calls = .error fault ↔
        Update.ofCalls table others = .error fault) ∧
      ∀ update other, Update.ofCalls table calls = .ok update →
        Update.ofCalls table others = .ok other →
        ∀ filter condition, Option.Rel Expr.SameTree filter condition →
          (dialect.compileUpdate style update filter).map Statement.sql =
            (dialect.compileUpdate style other condition).map Statement.sql := by
  constructor
  · intro e other h
    exact Draft.SameForm.sql_eq (dialect.draft_agree h) style
  · intro table calls others h
    have hupdates := Update.ofCalls_agree table h
    refine ⟨hupdates.eq_error_iff, ?_⟩
    intro update other hupdate hother filter condition hfilter
    exact dialect.compileUpdate_sql_eq style (hupdates.of_eq_ok hupdate hother) hfilter

/-- Quotes, marks and brackets in a literal change nothing, and neither does the
number of keys in a path. -/
theorem sql_eq_of_sameForm_quoted :
    let doc : Column := .jsonb "doc"
    let guard (path : List String) (first second : Document) : Expr :=
      .operation .inList
        [.operation .getText [.ofColumn doc, .constant (.textArray path)],
          .constant (.valueList [first, second])]
    let calls (title part : Document) : List Call :=
      [.setValue ⟨none, "title", .text⟩ title, .setJsonAt doc ["a", "b"] part]
    let first := guard ["k"] .null (.string "$2, ?)")
    let second := guard ["k", "'", "x"] (.array []) (.boolean true)
    (postgres.compile .numbered first).map Statement.sql =
        (postgres.compile .numbered second).map Statement.sql ∧
      ∃ update other, Update.ofCalls "t" (calls .null .null) = .ok update ∧
        Update.ofCalls "t" (calls (.string "'; --") (.array [.null])) = .ok other ∧
        (postgres.compileUpdate .anonymous update (some first)).map Statement.sql =
          (postgres.compileUpdate .anonymous other (some second)).map Statement.sql := by
  intro doc guard calls first second
  have htree : first.SameTree second := by
    refine .operation .inList (.cons (.operation .getText ?_) (.cons (.constant ⟨rfl, rfl⟩) .nil))
    exact .cons (.column _) (.cons (.constant ⟨rfl, rfl⟩) .nil)
  have hcalls : List.Forall₂ Call.SameForm (calls .null .null)
      (calls (.string "'; --") (.array [.null])) :=
    .cons (.setValue _ _ _) (.cons (.setJsonAt _ _ _ _) .nil)
  refine ⟨(sql_eq_of_sameForm postgres .numbered).1 _ _ htree, _, _, rfl, rfl, ?_⟩
  exact ((sql_eq_of_sameForm postgres .anonymous).2 "t" _ _ hcalls).2 _ _ rfl rfl _ _ (.some htree)

end Dialect

end JsonbAlgebra
