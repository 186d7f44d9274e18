import JsonbAlgebra.Proofs.DraftComposition

/-!
# Compilation in a single pass

A statement is compiled in two passes: operands are drafted once and spliced
into templates, and positions are counted only when the draft is finished.
The writer below has one pass instead.  It goes through the text from left to
right, carries the next position along, and writes an operand afresh each
time that a template refers to it.

Both ways give the same statement.  The argument is a simulation between
writers and drafts: a writer realizes a draft if it extends every page by the
text of the draft from the page's next position on.  Each way of splicing
drafts is realized by the corresponding way of running writers in turn.
-/

namespace JsonbAlgebra

/-- What is written so far, and the position that the next mark will have. -/
structure Page where
  sql : String
  parameters : List Constant
  next : Nat

namespace Page

def blank : Page :=
  ⟨"", [], 1⟩

def statement (page : Page) : Statement :=
  ⟨page.sql, page.parameters⟩

end Page

abbrev Writer :=
  Page → Except TemplateFault Page

namespace Writer

def text (value : String) : Writer := fun page =>
  .ok { page with sql := page.sql ++ value }

/-- Writes one mark, or for a value list one mark for each value in brackets. -/
def constant (style : Placeholder) (value : Constant) : Writer := fun page =>
  match value.literal with
  | .list values =>
    let marks := (List.range values.length).map fun offset => style.mark (page.next + offset)
    .ok ⟨page.sql ++ "(" ++ ", ".intercalate marks ++ ")", page.parameters ++ [value],
      page.next + values.length⟩
  | _ => .ok ⟨page.sql ++ style.mark page.next, page.parameters ++ [value], page.next + 1⟩

def sequence : List Writer → Writer
  | [], page => .ok page
  | writer :: writers, page => do
    let page ← writer page
    sequence writers page

/-- Runs writers in turn, with a text between neighbours. -/
def joined (separator : String) : List Writer → Writer
  | [] => sequence []
  | [writer] => writer
  | writer :: next :: writers =>
    sequence [writer, text separator, joined separator (next :: writers)]

end Writer

namespace Template

/-- Writes a piece of a template; a piece that refers to an operand runs the
operand's writer once more. -/
def pieceWriter (template : Template) (operator : Operator) (operands : List Writer) :
    Piece → Writer
  | .text value => Writer.text value
  | .operand index =>
    match operands[index]? with
    | some writer => writer
    | none => fun _ =>
      .error (.beyondOperands template.pattern (index + 1) operator operands.length)
  | .allOperands => Writer.joined template.separator operands

def writer (template : Template) (operator : Operator) (path : Bool)
    (operands : List Writer) : Writer := fun page => do
  let pieces ← template.pieces path
  Writer.sequence (pieces.map (template.pieceWriter operator operands)) page

end Template

namespace Dialect

mutual

def writer (dialect : Dialect) (style : Placeholder) : Expr → Writer
  | .column ref => Writer.text (Identifier.qualified ref.identifiers)
  | .constant value => Writer.constant style value
  | .operation operator operands =>
    (dialect.template operator).writer operator (takesPath operands)
      (writers dialect style operands)

def writers (dialect : Dialect) (style : Placeholder) : List Expr → List Writer
  | [] => []
  | operand :: operands => writer dialect style operand :: writers dialect style operands

end

def assignmentWriter (dialect : Dialect) (style : Placeholder) (assignment : Assignment) :
    Writer :=
  Writer.sequence
    [Writer.text (Identifier.qualified assignment.target.segments), Writer.text " = ",
      dialect.writer style assignment.value]

def write (dialect : Dialect) (style : Placeholder) (e : Expr) :
    Except TemplateFault Statement :=
  (dialect.writer style e Page.blank).map Page.statement

/-- The statement of an update, written in one pass: one count of positions
runs through the assignments and the condition. -/
def writeUpdate (dialect : Dialect) (style : Placeholder) (update : Update)
    (filter : Option Expr) : Except Fault Statement := do
  let assignments ← update.lower
  let page ← (Writer.sequence
    [Writer.text "UPDATE ", Writer.text (Identifier.qualified (Text.pieces update.table)),
      Writer.text " SET ",
      Writer.joined ", " (assignments.map (dialect.assignmentWriter style))]
    Page.blank).mapError .template
  match filter with
  | none => return page.statement
  | some condition =>
    if condition.tag.fits .boolean then
      let page ← (Writer.sequence [Writer.text " WHERE ", dialect.writer style condition]
        page).mapError .template
      return page.statement
    else .error (.filterTag condition.tag)

end Dialect

/-! ## Writers and drafts -/

def Page.extend (style : Placeholder) (draft : Draft) (page : Page) : Page :=
  ⟨page.sql ++ Draft.textFrom style page.next draft,
    page.parameters ++ Draft.parameters draft, page.next + Draft.slots draft⟩

def Writer.Realizes (style : Placeholder) (writer : Writer) (draft : Draft) : Prop :=
  ∀ page, writer page = .ok (page.extend style draft)

theorem Page.extend_nil (style : Placeholder) (page : Page) :
    page.extend style [] = page := by
  simp [Page.extend, Draft.textFrom]

theorem Page.extend_append (style : Placeholder) (first second : Draft) (page : Page) :
    page.extend style (first ++ second) = (page.extend style first).extend style second := by
  simp [Page.extend, Draft.textFrom_append, String.append_assoc, Nat.add_assoc]

namespace Writer

variable {style : Placeholder}

theorem text_realizes (value : String) :
    (text value).Realizes style [.sql value] := by
  intro page
  simp [text, Page.extend, Draft.textFrom]

theorem constant_realizes (value : Constant) :
    (constant style value).Realizes style [.parameter value] := by
  intro page
  unfold constant
  cases hliteral : value.literal with
  | list values =>
      have hmarks :
          (List.range values.length).map (fun offset => style.mark (page.next + offset)) =
            (List.range' page.next values.length).map style.mark := by
        rw [List.range'_eq_map_range, List.map_map]
        rfl
      simp [hmarks, Page.extend, Draft.textFrom, Draft.marks, Constant.slots, hliteral,
        String.append_assoc]
  | _ =>
      simp [Page.extend, Draft.textFrom, Draft.marks, Constant.slots, hliteral]

theorem realizes_nil : (sequence []).Realizes style [] := by
  intro page
  rw [sequence, Page.extend_nil]

theorem Realizes.cons {writer : Writer} {writers : List Writer} {first rest : Draft}
    (hfirst : writer.Realizes style first) (hrest : (sequence writers).Realizes style rest) :
    (sequence (writer :: writers)).Realizes style (first ++ rest) := by
  intro page
  rw [sequence, hfirst page, Page.extend_append]
  exact hrest (page.extend style first)

theorem sequence_realizes {writers : List Writer} {drafts : List Draft}
    (h : List.Forall₂ (Realizes style) writers drafts) :
    (sequence writers).Realizes style drafts.flatten := by
  induction h with
  | nil => exact realizes_nil
  | cons hfirst _ ih => exact hfirst.cons ih

theorem joined_realizes (separator : String) {writers : List Writer} {drafts : List Draft}
    (h : List.Forall₂ (Realizes style) writers drafts) :
    (joined separator writers).Realizes style (Draft.separate separator drafts) := by
  induction h with
  | nil => exact realizes_nil
  | cons hfirst hothers ih =>
      cases hothers with
      | nil => exact hfirst
      | cons hnext hothers =>
          rw [joined, Draft.separate_cons_cons]
          simpa using sequence_realizes
            (.cons hfirst (.cons (text_realizes separator) (.cons ih .nil)))

end Writer

/-! ## The simulation -/

theorem Template.pieceWriter_realizes {style : Placeholder} {template : Template}
    {operator : Operator} {writers : List Writer} {operands : List Draft}
    (hoperands : List.Forall₂ (Writer.Realizes style) writers operands)
    {piece : Piece} {draft : Draft}
    (hfill : template.fillPiece operator operands piece = .ok draft) :
    (template.pieceWriter operator writers piece).Realizes style draft := by
  cases piece with
  | text value =>
      cases hfill
      exact Writer.text_realizes value
  | operand index =>
      cases hoperand : operands[index]? with
      | none => simp [fillPiece, hoperand] at hfill
      | some operand =>
          simp only [fillPiece, hoperand, Except.ok.injEq] at hfill
          subst hfill
          obtain ⟨hindex, hget⟩ := List.getElem?_eq_some_iff.1 hoperand
          have hindex' : index < writers.length := hoperands.length_eq ▸ hindex
          have hwriter := (List.forall₂_iff_get.1 hoperands).2 index hindex' hindex
          simp only [List.get_eq_getElem, hget] at hwriter
          simpa [pieceWriter, List.getElem?_eq_getElem hindex'] using hwriter
  | allOperands =>
      cases hfill
      exact Writer.joined_realizes template.separator hoperands

theorem Template.writer_realizes {style : Placeholder} {template : Template}
    {operator : Operator} {path : Bool} {writers : List Writer} {operands : List Draft}
    {draft : Draft}
    (hoperands : List.Forall₂ (Writer.Realizes style) writers operands)
    (hfill : template.fill operator path operands = .ok draft) :
    (template.writer operator path writers).Realizes style draft := by
  obtain ⟨pieces, drafts, hpieces, hdrafts, rfl⟩ := fill_eq_ok.1 hfill
  have hwriters : List.Forall₂ (Writer.Realizes style)
      (pieces.map (template.pieceWriter operator writers)) drafts := by
    rw [List.forall₂_map_left_iff]
    exact hdrafts.imp fun _ _ hpiece => pieceWriter_realizes hoperands hpiece
  intro page
  unfold writer
  rw [hpieces]
  exact Writer.sequence_realizes hwriters page

namespace Dialect

variable {dialect : Dialect} (style : Placeholder)

theorem writers_eq_map (operands : List Expr) :
    dialect.writers style operands = operands.map (dialect.writer style) := by
  induction operands with
  | nil => rw [writers, List.map_nil]
  | cons operand operands ih => rw [writers, List.map_cons, ih]

/-- The writer of an expression realizes its draft.  Operands are drafted
once, before the template is read, and the induction hypothesis holds for
every page, so it serves each reference to an operand. -/
theorem writer_realizes {e : Expr} {draft : Draft} (h : dialect.draft e = .ok draft) :
    (dialect.writer style e).Realizes style draft := by
  induction e generalizing draft with
  | column ref =>
      rw [Dialect.draft] at h
      cases h
      rw [Dialect.writer]
      exact Writer.text_realizes _
  | constant value =>
      rw [Dialect.draft] at h
      cases h
      rw [Dialect.writer]
      exact Writer.constant_realizes value
  | operation operator operands ih =>
      obtain ⟨drafts, hdrafts, hfill⟩ := draft_operation_eq_ok.1 h
      have hoperands : List.Forall₂ (Writer.Realizes style)
          (dialect.writers style operands) drafts := by
        rw [writers_eq_map style, List.forall₂_map_left_iff]
        exact forall₂_imp_of_mem hdrafts fun operand hmem _ hdraft => ih operand hmem hdraft
      rw [Dialect.writer]
      exact Template.writer_realizes hoperands hfill

theorem assignmentWriter_realizes {assignment : Assignment} {draft : Draft}
    (h : dialect.draftAssignment assignment = .ok draft) :
    (dialect.assignmentWriter style assignment).Realizes style draft := by
  obtain ⟨value, hvalue, rfl⟩ := draftAssignment_eq_ok.1 h
  intro page
  have hsequence := Writer.sequence_realizes
    (.cons (Writer.text_realizes (Identifier.qualified assignment.target.segments))
      (.cons (Writer.text_realizes " = ") (.cons (writer_realizes style hvalue) .nil)))
  rw [assignmentWriter, hsequence page]
  simp [Page.extend, Draft.textFrom, String.append_assoc]

theorem write_of_draft {e : Expr} {draft : Draft} (h : dialect.draft e = .ok draft) :
    dialect.write style e = .ok (draft.finish style) := by
  rw [write, writer_realizes style h Page.blank]
  simp [Except.map, Page.statement, Page.extend, Page.blank, Draft.finish]

theorem writeUpdate_of_draft {update : Update} {filter : Option Expr} {draft : Draft}
    (h : dialect.draftUpdate update filter = .ok draft) :
    dialect.writeUpdate style update filter = .ok (draft.finish style) := by
  obtain ⟨assignments, drafts, condition, hlower, hdrafts, hcondition, rfl⟩ :=
    draftUpdate_eq_ok.1 h
  have hwriters : List.Forall₂ (Writer.Realizes style)
      (assignments.map (dialect.assignmentWriter style)) drafts := by
    rw [List.forall₂_map_left_iff]
    exact hdrafts.imp fun _ _ hassignment => assignmentWriter_realizes style hassignment
  have hset := Writer.sequence_realizes
    (.cons (Writer.text_realizes "UPDATE ")
      (.cons (Writer.text_realizes (Identifier.qualified (Text.pieces update.table)))
        (.cons (Writer.text_realizes " SET ")
          (.cons (Writer.joined_realizes ", " hwriters) .nil))))
  simp only [writeUpdate, hlower, bind, Except.bind]
  rw [hset Page.blank]
  cases filter with
  | none =>
      cases draftFilter_none.1 hcondition
      simp [pure, Except.pure, Except.mapError, Page.statement, Page.extend, Page.blank,
        Draft.finish, Draft.textFrom, String.append_assoc]
  | some filter =>
      obtain ⟨hfits, value, hvalue, rfl⟩ := draftFilter_some.1 hcondition
      have hwhere := Writer.sequence_realizes
        (.cons (Writer.text_realizes " WHERE ")
          (.cons (writer_realizes style hvalue) .nil))
      simp [pure, Except.pure, Except.mapError, hfits, hwhere _,
        Page.statement, Page.extend, Page.blank, Draft.finish, Draft.textFrom,
        Draft.textFrom_append, String.append_assoc]

/-- Whenever a statement compiles, under any templates and with either kind
of mark, the single pass writes the same statement. -/
theorem compile_eq_write (dialect : Dialect) (style : Placeholder) :
    (∀ e statement, dialect.compile style e = .ok statement →
      dialect.write style e = .ok statement) ∧
    (∀ update filter statement, dialect.compileUpdate style update filter = .ok statement →
      dialect.writeUpdate style update filter = .ok statement) := by
  constructor
  · intro e statement h
    obtain ⟨draft, hdraft, rfl⟩ := compile_eq_ok.1 h
    exact write_of_draft style hdraft
  · intro update filter statement h
    obtain ⟨draft, hdraft, rfl⟩ := compileUpdate_eq_ok.1 h
    exact writeUpdate_of_draft style hdraft

/-- A template that refers to both operands twice, over a value list of two:
six positions for two constants, and one more in front of them in the update. -/
theorem compile_eq_write_repeated_operands :
    ∃ dialect,
      postgres.override .inList
          (.ofPattern "(\x7b1\x7d IN \x7b2\x7d OR \x7b2\x7d IS \x7b1\x7d)") = .ok dialect ∧
      let key : Constant := .text "k"
      let list : Constant := .valueList [.string "a", .string "b"]
      let e : Expr := .operation .inList [.constant key, .constant list]
      let update : Update := ⟨"t", [⟨⟨none, ["c"], .text⟩, .constant key⟩], []⟩
      dialect.write .numbered e =
          .ok ⟨"($1 IN ($2, $3) OR ($4, $5) IS $6)", [key, list, list, key]⟩ ∧
        dialect.writeUpdate .numbered update (some e) =
          .ok ⟨"UPDATE t SET c = $1 WHERE ($2 IN ($3, $4) OR ($5, $6) IS $7)",
            [key, key, list, list, key]⟩ := by
  refine ⟨_, rfl, ?_, ?_⟩
  · exact (compile_eq_write _ .numbered).1 _ _ rfl
  · exact (compile_eq_write _ .numbered).2 _ _ _ rfl

end Dialect

end JsonbAlgebra
