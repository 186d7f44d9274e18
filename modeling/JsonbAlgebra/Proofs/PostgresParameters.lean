import JsonbAlgebra.Proofs.DraftComposition
import JsonbAlgebra.Proofs.PostgresPhrases
import JsonbAlgebra.Proofs.UpdateMerge

/-!
# The parameters of PostgreSQL statements

The PostgreSQL templates name every operand once and in order.  A statement
of that dialect therefore always compiles, and its parameters are the
constants of the expression from left to right, none lost, repeated or moved.

A pattern says which operands it names by their indices, and it is enough to
know the indices: text plays no part in the parameters of a draft.
-/

namespace JsonbAlgebra

namespace Expr

mutual

/-- The constants in an expression, from left to right. -/
def constants : Expr → List Constant
  | .column _ => []
  | .constant value => [value]
  | .operation _ operands => constantsAll operands

def constantsAll : List Expr → List Constant
  | [] => []
  | operand :: operands => constants operand ++ constantsAll operands

end

theorem constantsAll_eq_flatMap (operands : List Expr) :
    constantsAll operands = operands.flatMap constants := by
  induction operands with
  | nil => rw [constantsAll, List.flatMap_nil]
  | cons operand operands ih => rw [constantsAll, List.flatMap_cons, ih]

end Expr

theorem flatMap_eq_of_forall₂ {α β γ : Type} {f : α → List γ} {g : β → List γ}
    {as : List α} {bs : List β} (h : List.Forall₂ (fun a b => g b = f a) as bs) :
    bs.flatMap g = as.flatMap f := by
  induction h with
  | nil => rfl
  | cons hfirst _ ih => rw [List.flatMap_cons, List.flatMap_cons, hfirst, ih]

/-! ## Filling a template in order -/

namespace Template

/-- The operands that a piece names among a number of them, by index. -/
def Piece.indices (count : Nat) : Piece → List Nat
  | .text _ => []
  | .operand index => [index]
  | .allOperands => List.range count

def parametersAt (operands : List Draft) (index : Nat) : List Constant :=
  (operands[index]?.map Draft.parameters).getD []

theorem flatMap_parametersAt (operands : List Draft) :
    (List.range operands.length).flatMap (parametersAt operands) =
      operands.flatMap Draft.parameters := by
  induction operands with
  | nil => rfl
  | cons operand operands ih =>
      rw [List.length_cons, List.range_succ_eq_map, List.flatMap_cons, List.flatMap_cons,
        List.flatMap_map, ← ih]
      congr 1

theorem fillPiece_parameters (template : Template) (operator : Operator)
    {operands : List Draft} {piece : Piece}
    (hindices : ∀ index ∈ piece.indices operands.length, index < operands.length) :
    ∃ draft, template.fillPiece operator operands piece = .ok draft ∧
      Draft.parameters draft =
        (piece.indices operands.length).flatMap (parametersAt operands) := by
  cases piece with
  | text value => exact ⟨_, rfl, rfl⟩
  | operand index =>
      have hindex : index < operands.length := hindices index List.mem_cons_self
      refine ⟨operands[index], ?_, ?_⟩
      · simp [fillPiece, List.getElem?_eq_getElem hindex]
      · simp [Piece.indices, parametersAt, List.getElem?_eq_getElem hindex]
  | allOperands =>
      refine ⟨_, rfl, ?_⟩
      rw [Draft.parameters_separate, Piece.indices, flatMap_parametersAt]

theorem fillPieces_parameters (template : Template) (operator : Operator)
    {operands : List Draft} {pieces : List Piece}
    (hindices : ∀ index ∈ pieces.flatMap (Piece.indices operands.length),
      index < operands.length) :
    ∃ drafts,
      List.Forall₂ (fun piece d => template.fillPiece operator operands piece = .ok d)
        pieces drafts ∧
      Draft.parameters drafts.flatten =
        (pieces.flatMap (Piece.indices operands.length)).flatMap (parametersAt operands) := by
  induction pieces with
  | nil => exact ⟨[], .nil, rfl⟩
  | cons piece pieces ih =>
      rw [List.flatMap_cons, List.forall_mem_append] at hindices
      obtain ⟨draft, hdraft, hfirst⟩ := fillPiece_parameters template operator hindices.1
      obtain ⟨drafts, hdrafts, hrest⟩ := ih hindices.2
      refine ⟨draft :: drafts, .cons hdraft hdrafts, ?_⟩
      rw [List.flatten_cons, Draft.parameters_append, hfirst, hrest, List.flatMap_cons,
        List.flatMap_append]

/-- A template whose two patterns name each operand once and in order,
however many of them the operator admits. -/
def InOrder (template : Template) (operator : Operator) : Prop :=
  ∀ path count, operator.contract.admits count = true →
    ∃ pieces, template.pieces path = .ok pieces ∧
      pieces.flatMap (Piece.indices count) = List.range count

theorem InOrder.fill {template : Template} {operator : Operator}
    (horder : template.InOrder operator) (path : Bool) {operands : List Draft}
    (hadmits : operator.contract.admits operands.length = true) :
    ∃ draft, template.fill operator path operands = .ok draft ∧
      Draft.parameters draft = operands.flatMap Draft.parameters := by
  obtain ⟨pieces, hpieces, hindices⟩ := horder path operands.length hadmits
  have hbound : ∀ index ∈ pieces.flatMap (Piece.indices operands.length),
      index < operands.length := by
    intro index hindex
    rw [hindices] at hindex
    exact List.mem_range.1 hindex
  obtain ⟨drafts, hdrafts, hparameters⟩ :=
    fillPieces_parameters template operator hbound
  refine ⟨drafts.flatten, fill_eq_ok.2 ⟨pieces, drafts, hpieces, hdrafts, rfl⟩, ?_⟩
  rw [hparameters, hindices, flatMap_parametersAt]

end Template

/-! ## The PostgreSQL templates -/

namespace Phrase

theorem indices_laterPieces (phrase : Phrase) (count index rest : Nat) :
    (phrase.laterPieces index rest).flatMap (Template.Piece.indices count) =
      List.range' (index + 1) rest := by
  induction rest generalizing index with
  | zero => rfl
  | succ rest ih =>
      rw [laterPieces, List.flatMap_cons, List.flatMap_cons, ih, List.range'_succ]
      rfl

theorem indices_pieces (phrase : Phrase) {count : Nat} (hpos : 0 < count) :
    (phrase.pieces (some count)).flatMap (Template.Piece.indices count) =
      List.range count := by
  obtain _ | rest := count
  · cases hpos
  · rw [pieces, List.flatMap_cons, List.flatMap_cons, Nat.add_sub_cancel,
      indices_laterPieces, List.range_eq_range', List.range'_succ]
    rfl

end Phrase

namespace Dialect

theorem postgresTemplate_inOrder (operator : Operator) :
    (postgresTemplate operator).InOrder operator := by
  intro path count hadmits
  refine ⟨_, postgresTemplate_pieces operator path, ?_⟩
  cases hmost : operator.contract.most with
  | some most =>
      have hpos := (postgresPhrase_takes path hadmits).pos
      rw [Operator.admits_iff_of_most hmost] at hadmits
      subst hadmits
      exact Phrase.indices_pieces _ hpos
  | none => simp [Phrase.pieces, Template.Piece.indices]

theorem postgres_draft_parameters {e : Expr} (h : e.WellFormed) :
    ∃ draft, postgres.draft e = .ok draft ∧ Draft.parameters draft = e.constants := by
  induction e with
  | column ref => exact ⟨_, rfl, rfl⟩
  | constant value => exact ⟨_, rfl, rfl⟩
  | operation operator operands ih =>
      obtain ⟨hfault, hoperands⟩ := Expr.wellFormed_operation_iff.1 h
      obtain ⟨drafts, hdrafts⟩ := exists_forall₂ fun operand hmem =>
        ih operand hmem (hoperands operand hmem)
      have hlength : drafts.length = operands.length := hdrafts.length_eq.symm
      have hadmits := (Expr.applicationFault?_eq_none hfault).1
      rw [← hlength] at hadmits
      obtain ⟨draft, hfill, hparameters⟩ :=
        (postgresTemplate_inOrder operator).fill (takesPath operands) hadmits
      refine ⟨draft, draft_operation_eq_ok.2 ⟨drafts, ?_, hfill⟩, ?_⟩
      · exact hdrafts.imp fun _ _ hoperand => hoperand.1
      · rw [hparameters, Expr.constants, Expr.constantsAll_eq_flatMap]
        exact flatMap_eq_of_forall₂ (hdrafts.imp fun _ _ hoperand => hoperand.2)

theorem postgres_draftAssignment_parameters {assignment : Assignment}
    (h : assignment.value.WellFormed) :
    ∃ draft, postgres.draftAssignment assignment = .ok draft ∧
      Draft.parameters draft = assignment.value.constants := by
  obtain ⟨value, hvalue, hparameters⟩ := postgres_draft_parameters h
  exact ⟨_, draftAssignment_eq_ok.2 ⟨value, hvalue, rfl⟩, hparameters⟩

theorem postgres_draftFilter_parameters {filter : Option Expr}
    (h : ∀ condition, filter = some condition →
      condition.WellFormed ∧ (condition.tag = .boolean ∨ condition.tag = .null)) :
    ∃ draft, postgres.draftFilter filter = .ok draft ∧
      Draft.parameters draft = filter.elim [] Expr.constants := by
  cases filter with
  | none => exact ⟨[], rfl, rfl⟩
  | some condition =>
      obtain ⟨hcondition, htag⟩ := h condition rfl
      obtain ⟨value, hvalue, hparameters⟩ := postgres_draft_parameters hcondition
      have hfits : condition.tag.fits .boolean = true := by
        rcases htag with htag | htag <;> rw [htag] <;> rfl
      exact ⟨_, draftFilter_some.2 ⟨hfits, value, hvalue, rfl⟩, hparameters⟩

theorem postgres_compileUpdate_parameters (style : Placeholder) {update : Update}
    {filter : Option Expr} {lowered : List Assignment} (hupdate : update.WellFormed)
    (hlower : update.lower = .ok lowered)
    (hfilter : ∀ condition, filter = some condition →
      condition.WellFormed ∧ (condition.tag = .boolean ∨ condition.tag = .null)) :
    ∃ statement, postgres.compileUpdate style update filter = .ok statement ∧
      statement.parameters =
        lowered.flatMap (fun assignment => assignment.value.constants) ++
          filter.elim [] Expr.constants := by
  obtain ⟨drafts, hdrafts⟩ := exists_forall₂ fun assignment hmem =>
    postgres_draftAssignment_parameters (hupdate.lower hlower assignment hmem)
  obtain ⟨condition, hcondition, hparameters⟩ := postgres_draftFilter_parameters hfilter
  have hset : drafts.flatMap Draft.parameters =
      lowered.flatMap fun assignment => assignment.value.constants :=
    flatMap_eq_of_forall₂ (hdrafts.imp fun _ _ hassignment => hassignment.2)
  have hdraft := draftUpdate_eq_ok.2
    ⟨lowered, drafts, condition, hlower, hdrafts.imp fun _ _ hassignment => hassignment.1,
      hcondition, rfl⟩
  refine ⟨_, compileUpdate_eq_ok.2 ⟨_, hdraft, rfl⟩, ?_⟩
  simp only [Draft.finish, Draft.parameters_sql, Draft.parameters_append,
    Draft.parameters_separate, hset, hparameters]

/-- Well-formed expressions and updates compile, and their parameters are the
constants from left to right. -/
theorem postgres_compile_parameters (style : Placeholder) :
    (∀ e : Expr, e.WellFormed →
      ∃ statement, postgres.compile style e = .ok statement ∧
        statement.parameters = e.constants) ∧
    (∀ (update : Update) (filter : Option Expr) (lowered : List Assignment),
      update.WellFormed → update.lower = .ok lowered →
      (∀ condition, filter = some condition →
        condition.WellFormed ∧ (condition.tag = .boolean ∨ condition.tag = .null)) →
      ∃ statement, postgres.compileUpdate style update filter = .ok statement ∧
        statement.parameters =
          lowered.flatMap (fun assignment => assignment.value.constants) ++
            filter.elim [] Expr.constants) := by
  constructor
  · intro e he
    obtain ⟨draft, hdraft, hparameters⟩ := postgres_draft_parameters he
    exact ⟨_, compile_eq_ok.2 ⟨draft, hdraft, rfl⟩, hparameters⟩
  · intro update filter lowered hupdate hlower hfilter
    exact postgres_compileUpdate_parameters style hupdate hlower hfilter

/-- Constants at several depths, and an update whose one column is assigned,
patched and guarded. -/
theorem postgres_compile_parameters_guarded :
    let key : Constant := .text "k"
    let list : Constant := .valueList [.string "a", .string "b"]
    let path : Constant := .textArray ["p", "q"]
    let guard : Expr := .operation .inList [.constant key, .constant list]
    let e : Expr := .operation .caseWhen
      [guard, .operation .get [.column ⟨none, ["doc"], .jsonb⟩, .constant path],
        .constant .jsonNull]
    let update : Update := ⟨"t", [⟨⟨none, ["doc"], .jsonb⟩, .constant .null⟩],
      [⟨⟨none, ["doc"], .jsonb⟩, ["p"], .constant .jsonNull⟩]⟩
    (∃ statement, postgres.compile .anonymous e = .ok statement ∧
      statement.parameters = [key, list, path, .jsonNull]) ∧
    ∃ statement, postgres.compileUpdate .numbered update (some guard) = .ok statement ∧
      statement.parameters = [.null, .textArray ["p"], .jsonNull, key, list] := by
  constructor
  · exact (postgres_compile_parameters .anonymous).1 _
      ⟨rfl, ⟨rfl, trivial, trivial, trivial⟩, ⟨rfl, trivial, trivial, trivial⟩, trivial, trivial⟩
  · have hlower : Update.lower ⟨"t", [⟨⟨none, ["doc"], .jsonb⟩, .constant .null⟩],
          [⟨⟨none, ["doc"], .jsonb⟩, ["p"], .constant .jsonNull⟩]⟩ =
        .ok [⟨⟨none, ["doc"], .jsonb⟩, .operation .set
          [.constant .null, .constant (.textArray ["p"]), .constant .jsonNull]⟩] := by
      rfl
    refine (postgres_compile_parameters .numbered).2 _ (some _) _ ⟨?_, ?_⟩ hlower ?_
    · exact List.forall_mem_singleton.2 trivial
    · exact List.forall_mem_singleton.2 trivial
    · rintro condition ⟨⟩
      exact ⟨⟨rfl, trivial, trivial, trivial⟩, .inl rfl⟩

end Dialect

end JsonbAlgebra
