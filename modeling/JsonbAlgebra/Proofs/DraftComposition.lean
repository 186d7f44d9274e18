import JsonbAlgebra.Proofs.ExprInduction
import JsonbAlgebra.Proofs.Success
import JsonbAlgebra.Update

/-!
# The composition of drafts

A draft is spliced together from the drafts of operands before any position
is known.  The first half of this module says how text, parameters and the
number of marks follow a splice; the second takes a successful draft of an
expression or of an update apart into the drafts that it was made from.
-/

namespace JsonbAlgebra

namespace Draft

def slots (draft : Draft) : Nat :=
  (parameters draft).foldr (fun constant count => constant.slots + count) 0

@[simp] theorem parameters_nil : parameters [] = [] :=
  rfl

@[simp] theorem parameters_sql (text : String) (rest : Draft) :
    parameters (.sql text :: rest) = parameters rest :=
  rfl

@[simp] theorem parameters_parameter (constant : Constant) (rest : Draft) :
    parameters (.parameter constant :: rest) = constant :: parameters rest :=
  rfl

@[simp] theorem parameters_append (first second : Draft) :
    parameters (first ++ second) = parameters first ++ parameters second :=
  List.filterMap_append

theorem separate_cons_cons (separator : String) (first next : Draft) (drafts : List Draft) :
    separate separator (first :: next :: drafts) =
      first ++ .sql separator :: separate separator (next :: drafts) := by
  simp [separate]

theorem parameters_separate (separator : String) (drafts : List Draft) :
    parameters (separate separator drafts) = drafts.flatMap parameters := by
  induction drafts with
  | nil => rfl
  | cons draft drafts ih =>
      cases drafts with
      | nil => simp [separate]
      | cons next drafts => simpa [separate_cons_cons] using ih

@[simp] theorem slots_nil : slots [] = 0 :=
  rfl

@[simp] theorem slots_sql (text : String) (rest : Draft) :
    slots (.sql text :: rest) = slots rest :=
  rfl

@[simp] theorem slots_parameter (constant : Constant) (rest : Draft) :
    slots (.parameter constant :: rest) = constant.slots + slots rest :=
  rfl

@[simp] theorem slots_append (first second : Draft) :
    slots (first ++ second) = slots first + slots second := by
  induction first with
  | nil => simp
  | cons part rest ih =>
      cases part with
      | sql text => exact ih
      | parameter constant => rw [List.cons_append, slots_parameter, ih, slots_parameter, Nat.add_assoc]

/-- The marks of the second draft go on where those of the first end. -/
theorem textFrom_append (style : Placeholder) (position : Nat) (first second : Draft) :
    textFrom style position (first ++ second) =
      textFrom style position first ++ textFrom style (position + slots first) second := by
  induction first generalizing position with
  | nil => simp [textFrom]
  | cons part first ih =>
      cases part with
      | sql text => simp [textFrom, ih, String.append_assoc]
      | parameter constant =>
          simp [textFrom, ih, String.append_assoc, Nat.add_assoc]

end Draft

namespace Template

theorem fill_eq_ok {template : Template} {operator : Operator} {path : Bool}
    {operands : List Draft} {draft : Draft} :
    template.fill operator path operands = .ok draft ↔
      ∃ pieces drafts, template.pieces path = .ok pieces ∧
        List.Forall₂ (fun piece d => template.fillPiece operator operands piece = .ok d)
          pieces drafts ∧
        draft = drafts.flatten := by
  unfold fill
  constructor
  · intro h
    obtain ⟨pieces, hpieces, h⟩ := bind_eq_ok.1 h
    obtain ⟨drafts, hdrafts, h⟩ := bind_eq_ok.1 h
    cases h
    exact ⟨pieces, drafts, hpieces, mapM_eq_ok.1 hdrafts, rfl⟩
  · rintro ⟨pieces, drafts, hpieces, hdrafts, rfl⟩
    exact bind_eq_ok.2 ⟨pieces, hpieces, bind_eq_ok.2 ⟨drafts, mapM_eq_ok.2 hdrafts, rfl⟩⟩

end Template

namespace Dialect

theorem draftAll_eq_mapM (dialect : Dialect) (operands : List Expr) :
    dialect.draftAll operands = operands.mapM dialect.draft := by
  induction operands with
  | nil => rfl
  | cons operand operands ih =>
      rw [draftAll, ih, List.mapM_cons]

theorem draftAll_eq_ok {dialect : Dialect} {operands : List Expr} {drafts : List Draft} :
    dialect.draftAll operands = .ok drafts ↔
      List.Forall₂ (fun operand draft => dialect.draft operand = .ok draft)
        operands drafts := by
  rw [draftAll_eq_mapM, mapM_eq_ok]

theorem draft_operation_eq_ok {dialect : Dialect} {operator : Operator}
    {operands : List Expr} {draft : Draft} :
    dialect.draft (.operation operator operands) = .ok draft ↔
      ∃ drafts,
        List.Forall₂ (fun operand d => dialect.draft operand = .ok d) operands drafts ∧
        (dialect.template operator).fill operator (takesPath operands) drafts =
          .ok draft := by
  rw [Dialect.draft, bind_eq_ok]
  simp only [draftAll_eq_ok]

theorem compile_eq_ok {dialect : Dialect} {style : Placeholder} {e : Expr}
    {statement : Statement} :
    dialect.compile style e = .ok statement ↔
      ∃ draft, dialect.draft e = .ok draft ∧ draft.finish style = statement :=
  map_eq_ok

theorem compile_eq_error {dialect : Dialect} {style : Placeholder} {e : Expr}
    {fault : TemplateFault} :
    dialect.compile style e = .error fault ↔ dialect.draft e = .error fault :=
  map_eq_error

theorem compileUpdate_eq_ok {dialect : Dialect} {style : Placeholder} {update : Update}
    {filter : Option Expr} {statement : Statement} :
    dialect.compileUpdate style update filter = .ok statement ↔
      ∃ draft, dialect.draftUpdate update filter = .ok draft ∧
        draft.finish style = statement :=
  map_eq_ok

theorem draftAssignment_eq_ok {dialect : Dialect} {assignment : Assignment}
    {draft : Draft} :
    dialect.draftAssignment assignment = .ok draft ↔
      ∃ value, dialect.draft assignment.value = .ok value ∧
        draft =
          .sql (Identifier.qualified assignment.target.segments ++ " = ") :: value := by
  unfold draftAssignment
  rw [bind_eq_ok]
  exact exists_congr fun value => and_congr_right fun _ =>
    ⟨fun h => (Except.ok.inj h).symm, fun h => congrArg Except.ok h.symm⟩

theorem draftFilter_none {dialect : Dialect} {draft : Draft} :
    dialect.draftFilter none = .ok draft ↔ draft = [] :=
  ⟨fun h => (Except.ok.inj h).symm, fun h => congrArg Except.ok h.symm⟩

theorem draftFilter_some {dialect : Dialect} {filter : Expr} {draft : Draft} :
    dialect.draftFilter (some filter) = .ok draft ↔
      filter.tag.fits .boolean = true ∧
        ∃ condition, dialect.draft filter = .ok condition ∧
          draft = .sql " WHERE " :: condition := by
  simp only [draftFilter]
  by_cases hfits : filter.tag.fits .boolean = true
  · rw [if_pos hfits, mapError_eq_ok, map_eq_ok]
    simp only [hfits, true_and]
    exact exists_congr fun condition => and_congr_right fun _ => eq_comm
  · simp [hfits]

theorem draftUpdate_eq_ok {dialect : Dialect} {update : Update} {filter : Option Expr}
    {draft : Draft} :
    dialect.draftUpdate update filter = .ok draft ↔
      ∃ assignments drafts condition,
        update.lower = .ok assignments ∧
        List.Forall₂ (fun assignment d => dialect.draftAssignment assignment = .ok d)
          assignments drafts ∧
        dialect.draftFilter filter = .ok condition ∧
        draft =
          .sql ("UPDATE " ++ Identifier.qualified (Text.pieces update.table) ++ " SET ") ::
            (Draft.separate ", " drafts ++ condition) := by
  unfold draftUpdate
  constructor
  · intro h
    obtain ⟨assignments, hlower, h⟩ := bind_eq_ok.1 h
    obtain ⟨drafts, hdrafts, h⟩ := bind_eq_ok.1 h
    obtain ⟨condition, hcondition, h⟩ := bind_eq_ok.1 h
    cases h
    exact ⟨assignments, drafts, condition, hlower,
      mapM_eq_ok.1 (mapError_eq_ok.1 hdrafts), hcondition, rfl⟩
  · rintro ⟨assignments, drafts, condition, hlower, hdrafts, hcondition, rfl⟩
    refine bind_eq_ok.2 ⟨assignments, hlower, ?_⟩
    refine bind_eq_ok.2 ⟨drafts, mapError_eq_ok.2 (mapM_eq_ok.2 hdrafts), ?_⟩
    exact bind_eq_ok.2 ⟨condition, hcondition, rfl⟩

end Dialect

end JsonbAlgebra
