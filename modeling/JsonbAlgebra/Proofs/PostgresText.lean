import JsonbAlgebra.Proofs.PhraseDrafts
import JsonbAlgebra.Proofs.PostgresParameters

/-!
# The text of PostgreSQL statements

With question marks as marks the text of a statement does not depend on the
positions of its parameters.  It can then be written down by recursion over the
expression, one phrase of the dialect for each operation.
-/

namespace JsonbAlgebra

/-! ## Drafts without positions -/

/-- A number of question marks with commas between them. -/
def questionMarks : Nat → List Char
  | 0 => []
  | 1 => ['?']
  | count + 2 => '?' :: ',' :: ' ' :: questionMarks (count + 1)

/-- The marks of a constant, when all of them are question marks. -/
def Constant.markText (constant : Constant) : List Char :=
  match constant.literal with
  | .list values => '(' :: (questionMarks values.length ++ [')'])
  | _ => ['?']

theorem toList_intercalate_marks (position count : Nat) :
    (", ".intercalate ((List.range' position count).map (Placeholder.mark .anonymous))).toList =
      questionMarks count := by
  induction count using questionMarks.induct generalizing position with
  | case1 => rfl
  | case2 => exact String.toList_ofList
  | case3 count ih =>
      rw [List.range'_succ, List.map_cons, List.range'_succ, List.map_cons,
        String.intercalate_cons_cons, ← List.map_cons, ← List.range'_succ,
        String.toList_append, ih, questionMarks]
      simp [Placeholder.mark]

namespace Draft

theorem toList_marks_anonymous (position : Nat) (constant : Constant) :
    (marks .anonymous position constant).toList = constant.markText := by
  unfold marks Constant.markText
  cases constant.literal with
  | list values =>
      rw [String.toList_append, String.toList_append, toList_intercalate_marks]
      simp
  | null | scalar | array => exact String.toList_ofList

/-- The text of a draft with question marks as marks. -/
def chars (draft : Draft) : List Char :=
  (textFrom .anonymous 1 draft).toList

theorem toList_textFrom_anonymous (position : Nat) (draft : Draft) :
    (textFrom .anonymous position draft).toList = chars draft := by
  rw [chars]
  generalize 1 = start
  induction draft generalizing position start with
  | nil => rfl
  | cons part rest ih =>
      cases part with
      | sql text =>
          rw [textFrom, textFrom, String.toList_append, String.toList_append, ih _ start]
      | parameter constant =>
          rw [textFrom, textFrom, String.toList_append, String.toList_append,
            toList_marks_anonymous, toList_marks_anonymous,
            ih _ (start + constant.slots)]

theorem chars_append (first second : Draft) :
    chars (first ++ second) = chars first ++ chars second := by
  rw [chars, textFrom_append, String.toList_append, toList_textFrom_anonymous,
    toList_textFrom_anonymous]

theorem chars_sql (text : String) : chars [.sql text] = text.toList := by
  rw [chars, textFrom, textFrom, String.append_empty]

theorem chars_parameter (constant : Constant) :
    chars [.parameter constant] = constant.markText := by
  rw [chars, textFrom, textFrom, String.append_empty, toList_marks_anonymous]

end Draft

/-! ## The text of phrases -/

namespace Phrase

/-- A phrase from behind the operand at an index on, with the texts of the
operands that are left. -/
def laterText (phrase : Phrase) : Nat → List (List Char) → List Char
  | _, [] => phrase.closing.toList
  | index, operand :: operands =>
    (phrase.link index).toList ++ (operand ++ phrase.laterText (index + 1) operands)

theorem laterText_nil (phrase : Phrase) (index : Nat) :
    phrase.laterText index [] = phrase.closing.toList :=
  rfl

theorem laterText_cons (phrase : Phrase) (index : Nat) (operand : List Char)
    (operands : List (List Char)) :
    phrase.laterText index (operand :: operands) =
      (phrase.link index).toList ++ (operand ++ phrase.laterText (index + 1) operands) :=
  rfl

def text (phrase : Phrase) : List (List Char) → List Char
  | [] => phrase.opening.toList ++ phrase.closing.toList
  | operand :: operands => phrase.opening.toList ++ (operand ++ phrase.laterText 0 operands)

theorem chars_laterDraft (phrase : Phrase) (index : Nat) (operands : List Draft) :
    Draft.chars (phrase.laterDraft index operands) =
      phrase.laterText index (operands.map Draft.chars) := by
  induction operands generalizing index with
  | nil => exact Draft.chars_sql phrase.closing
  | cons operand operands ih =>
      have hlink : phrase.laterDraft index (operand :: operands) =
          [.sql (phrase.link index)] ++ (operand ++ phrase.laterDraft (index + 1) operands) := rfl
      rw [hlink, Draft.chars_append, Draft.chars_append, Draft.chars_sql, ih]
      rfl

theorem chars_draft (phrase : Phrase) (operands : List Draft) :
    Draft.chars (phrase.draft operands) = phrase.text (operands.map Draft.chars) := by
  cases operands with
  | nil =>
      have hempty : phrase.draft [] = [.sql phrase.opening] ++ [.sql phrase.closing] := rfl
      rw [hempty, Draft.chars_append, Draft.chars_sql, Draft.chars_sql]
      rfl
  | cons operand operands =>
      have hopening : phrase.draft (operand :: operands) =
          [.sql phrase.opening] ++ (operand ++ phrase.laterDraft 0 operands) := rfl
      rw [hopening, Draft.chars_append, Draft.chars_append, Draft.chars_sql, chars_laterDraft]
      rfl

end Phrase

/-! ## The text of expressions -/

namespace Expr

mutual

/-- The PostgreSQL text of an expression, with question marks as marks. -/
def postgresText : Expr → List Char
  | .column ref => (Identifier.qualified ref.identifiers).toList
  | .constant value => value.markText
  | .operation operator operands =>
    (Dialect.postgresPhrase operator (Dialect.takesPath operands)).text (postgresTexts operands)

def postgresTexts : List Expr → List (List Char)
  | [] => []
  | operand :: operands => postgresText operand :: postgresTexts operands

end

theorem postgresTexts_eq_map (operands : List Expr) :
    postgresTexts operands = operands.map postgresText := by
  induction operands with
  | nil => rfl
  | cons operand operands ih => rw [postgresTexts, ih, List.map_cons]

end Expr

namespace Dialect

theorem chars_of_postgres_draft {e : Expr} (he : e.WellFormed) {draft : Draft}
    (h : postgres.draft e = .ok draft) : Draft.chars draft = e.postgresText := by
  induction e generalizing draft with
  | column ref =>
      rw [Dialect.draft] at h
      cases h
      exact Draft.chars_sql _
  | constant value =>
      rw [Dialect.draft] at h
      cases h
      exact Draft.chars_parameter value
  | operation operator operands ih =>
      obtain ⟨hfault, hoperands⟩ := Expr.wellFormed_operation_iff.1 he
      obtain ⟨drafts, hdrafts, rfl⟩ := postgres_draft_operation_eq_ok hfault h
      have htexts : List.Forall₂ (fun operand d => Draft.chars d = Expr.postgresText operand)
          operands drafts :=
        forall₂_imp_of_mem hdrafts fun operand hmem _ hdraft =>
          ih operand hmem (hoperands operand hmem) hdraft
      have hmap : drafts.map Draft.chars = operands.map Expr.postgresText := by
        rw [← List.forall₂_eq_eq_eq, List.forall₂_map_left_iff, List.forall₂_map_right_iff]
        exact htexts.flip
      rw [Phrase.chars_draft, hmap, Expr.postgresText, Expr.postgresTexts_eq_map]

theorem postgres_compile_text {e : Expr} (he : e.WellFormed) {statement : Statement}
    (h : postgres.compile .anonymous e = .ok statement) :
    statement.sql.toList = e.postgresText := by
  obtain ⟨draft, hdraft, rfl⟩ := compile_eq_ok.1 h
  exact chars_of_postgres_draft he hdraft

theorem postgres_compile_constants {e : Expr} (he : e.WellFormed) {statement : Statement}
    {style : Placeholder} (h : postgres.compile style e = .ok statement) :
    statement.parameters = e.constants := by
  obtain ⟨draft, hdraft, rfl⟩ := compile_eq_ok.1 h
  obtain ⟨expected, hexpected, hparameters⟩ := postgres_draft_parameters he
  obtain rfl : expected = draft := Except.ok.inj (hexpected.symm.trans hdraft)
  exact hparameters

end Dialect

end JsonbAlgebra
