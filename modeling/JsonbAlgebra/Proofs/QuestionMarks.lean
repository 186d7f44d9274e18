import JsonbAlgebra.Proofs.Alignment
import JsonbAlgebra.Proofs.PostgresText
import JsonbAlgebra.Proofs.Quotation
import Mathlib.Algebra.GroupWithZero.Nat

/-!
# Question marks in statements

With anonymous marks every parameter leaves question marks, and a driver that knows
only the text takes each question mark outside quotes for a parameter.  Names never
add to them, since they are quoted.  The one operator that is a question mark itself
is the test for a key, so a driver counts one too many for each such test, and finds
the parameters in their places if there is none.
-/

namespace JsonbAlgebra

namespace Expr

mutual

/-- The number of tests for a key in an expression. -/
def keyTests : Expr → Nat
  | .column _ | .constant _ => 0
  | .operation operator operands =>
    (if operator = .containsKey then 1 else 0) + keyTestsAll operands

def keyTestsAll : List Expr → Nat
  | [] => 0
  | operand :: operands => keyTests operand + keyTestsAll operands

end

theorem keyTestsAll_eq_sum (operands : List Expr) :
    keyTestsAll operands = (operands.map keyTests).sum := by
  induction operands with
  | nil => rfl
  | cons operand operands ih => rw [keyTestsAll, ih, List.map_cons, List.sum_cons]

end Expr

/-! ## Question marks replaced -/

namespace Text

/-- The text with marks for its question marks outside quotes, which have the
positions from a first one on. -/
def withMarks (mark : Nat → String) (position : Nat) (text : List Char) : String :=
  let pieces := splitBare '?' false text
  interleave mark position (String.ofList pieces.1) (pieces.2.map String.ofList)

/-- The text with its question marks outside quotes numbered from the left, as a
driver does that knows nothing of the parameters. -/
def renumber (text : String) : String :=
  withMarks (Placeholder.mark .numbered) 1 text.toList

section

variable (mark : Nat → String) (position : Nat)

theorem withMarks_closed {text : List Char} (h : Closed '?' text) (rest : List Char) :
    withMarks mark position (text ++ rest) =
      String.ofList text ++ withMarks mark position rest := by
  rw [withMarks, h, String.ofList_append, interleave_append]
  rfl

theorem withMarks_mark (rest : List Char) :
    withMarks mark position ('?' :: rest) = mark position ++ withMarks mark (position + 1) rest := by
  rw [withMarks, splitBare_mark (by decide), List.map_cons, interleave, String.ofList_nil,
    String.empty_append]
  rfl

theorem withMarks_questionMarks (count : Nat) (rest : List Char) :
    withMarks mark position (questionMarks count ++ rest) =
      ", ".intercalate ((List.range' position count).map mark) ++
        withMarks mark (position + count) rest := by
  induction count using questionMarks.induct generalizing position with
  | case1 =>
      rw [questionMarks, List.nil_append, List.range'_zero, List.map_nil,
        String.intercalate_nil, String.empty_append, Nat.add_zero]
  | case2 =>
      rw [questionMarks, List.singleton_append, withMarks_mark, List.range'_one,
        List.map_singleton, String.intercalate_singleton]
  | case3 count ih =>
      have hcomma : Closed '?' [',', ' '] := closed_of_all (by decide)
      have hposition : position + 1 + (count + 1) = position + (count + 2) := by omega
      have hmarks : ", ".intercalate ((List.range' position (count + 2)).map mark) =
          mark position ++ (", " ++
            ", ".intercalate ((List.range' (position + 1) (count + 1)).map mark)) := by
        rw [List.range'_succ, List.map_cons, List.range'_succ, List.map_cons,
          String.intercalate_cons_cons, String.append_assoc]
      have htext : questionMarks (count + 2) ++ rest =
          '?' :: ([',', ' '] ++ (questionMarks (count + 1) ++ rest)) := rfl
      rw [htext, withMarks_mark, withMarks_closed mark _ hcomma, ih, hposition, hmarks]
      simp only [String.append_assoc]

end

end Text

/-! ## Drafts with bare question marks -/

namespace Draft

/-- A draft whose texts are passed over in the search for question marks, but for a
number of them that are one question mark each. -/
inductive Marked : Nat → Draft → Prop
  | nil : Marked 0 []
  | sql {text : String} {count : Nat} {rest : Draft} (htext : Text.Closed '?' text.toList)
      (hrest : Marked count rest) : Marked count (.sql text :: rest)
  | mark {text : String} {count : Nat} {rest : Draft} (htext : Text.Bears '?' 1 text.toList)
      (hrest : Marked count rest) : Marked (count + 1) (.sql text :: rest)
  | parameter (constant : Constant) {count : Nat} {rest : Draft} (hrest : Marked count rest) :
      Marked count (.parameter constant :: rest)

theorem Marked.append {first second : Draft} {count more : Nat} (hfirst : Marked count first)
    (hsecond : Marked more second) : Marked (count + more) (first ++ second) := by
  induction hfirst with
  | nil =>
      rw [Nat.zero_add]
      exact hsecond
  | sql htext _ ih => exact .sql htext ih
  | mark htext _ ih =>
      rw [Nat.add_right_comm]
      exact .mark htext ih
  | parameter constant _ ih => exact .parameter constant ih

theorem Marked.separate {separator : String} (hseparator : Text.Closed '?' separator.toList)
    {counts : List Nat} {drafts : List Draft} (h : List.Forall₂ Marked counts drafts) :
    Marked counts.sum (Draft.separate separator drafts) := by
  induction h with
  | nil => exact .nil
  | cons hfirst hothers ih =>
      rw [List.sum_cons]
      cases hothers with
      | nil => exact hfirst
      | cons hnext hrest =>
          rw [separate_cons_cons]
          exact hfirst.append (.sql hseparator ih)

theorem chars_cons_sql (text : String) (rest : Draft) :
    chars (.sql text :: rest) = text.toList ++ chars rest := by
  rw [← chars_sql, ← chars_append, List.singleton_append]

theorem chars_cons_parameter (constant : Constant) (rest : Draft) :
    chars (.parameter constant :: rest) = constant.markText ++ chars rest := by
  rw [← chars_parameter, ← chars_append, List.singleton_append]

/-! ## What a driver counts -/

theorem bears_questionMarks (count : Nat) : Text.Bears '?' count (questionMarks count) := by
  induction count using questionMarks.induct with
  | case1 => exact Text.closed_nil.bears
  | case2 => exact Text.bears_mark (by decide)
  | case3 count ih =>
      have hcomma : Text.Closed '?' [',', ' '] := Text.closed_of_all (by decide)
      have hmark : Text.Bears '?' 1 ['?'] := Text.bears_mark (by decide)
      have hall := hmark.append (hcomma.bears.append ih)
      rw [Nat.zero_add, Nat.add_comm] at hall
      exact hall

theorem bears_markText (constant : Constant) :
    Text.Bears '?' constant.slots constant.markText := by
  obtain ⟨literal, declared⟩ := constant
  cases literal with
  | list values =>
      have hopening : Text.Closed '?' ['('] := Text.closed_of_all (by decide)
      have hclosing : Text.Closed '?' [')'] := Text.closed_of_all (by decide)
      have hall := hopening.bears.append ((bears_questionMarks values.length).append hclosing.bears)
      rw [Nat.zero_add, Nat.add_zero] at hall
      exact hall
  | _ => exact Text.bears_mark (by decide)

theorem Marked.bears {draft : Draft} {count : Nat} (h : Marked count draft) :
    Text.Bears '?' (slots draft + count) (chars draft) := by
  induction h with
  | nil => exact Text.closed_nil.bears
  | @sql text count rest htext _ ih =>
      have hall := htext.bears.append ih
      rw [Nat.zero_add, ← chars_cons_sql] at hall
      exact hall
  | @mark text count rest htext _ ih =>
      have hall := htext.append ih
      rw [← chars_cons_sql, Nat.add_comm, Nat.add_assoc] at hall
      exact hall
  | @parameter constant count rest _ ih =>
      have hall := (bears_markText constant).append ih
      rw [← chars_cons_parameter, ← Nat.add_assoc] at hall
      exact hall

/-! ## What a driver numbers -/

theorem withMarks_markText (style : Placeholder) (position : Nat) (constant : Constant)
    (rest : List Char) :
    Text.withMarks style.mark position (constant.markText ++ rest) =
      marks style position constant ++
        Text.withMarks style.mark (position + constant.slots) rest := by
  obtain ⟨literal, declared⟩ := constant
  cases literal with
  | list values =>
      have hopening : Text.Closed '?' ['('] := Text.closed_of_all (by decide)
      have hclosing : Text.Closed '?' [')'] := Text.closed_of_all (by decide)
      have htext : Constant.markText ⟨.list values, declared⟩ ++ rest =
          ['('] ++ (questionMarks values.length ++ ([')'] ++ rest)) := by
        simp [Constant.markText]
      rw [htext, Text.withMarks_closed _ _ hopening, Text.withMarks_questionMarks,
        Text.withMarks_closed _ _ hclosing, ← String.append_assoc, ← String.append_assoc]
      rfl
  | _ => exact Text.withMarks_mark style.mark position rest

/-- Between texts without bare question marks, those that are found are the marks of
the parameters. -/
theorem Marked.textFrom_eq {draft : Draft} (h : Marked 0 draft) (style : Placeholder)
    (position : Nat) :
    textFrom style position draft = Text.withMarks style.mark position (chars draft) := by
  generalize hcount : 0 = count at h
  induction h generalizing position with
  | nil => rfl
  | @sql text count rest htext _ ih =>
      rw [chars_cons_sql, Text.withMarks_closed _ _ htext, textFrom, ih _ hcount, String.ofList_toList]
  | mark => cases hcount
  | @parameter constant count rest _ ih =>
      rw [chars_cons_parameter, withMarks_markText, textFrom, ih _ hcount]

end Draft

/-! ## Phrases with bare question marks -/

namespace Phrase

/-- No bare question mark stands between the operands or around them. -/
structure Unasking (phrase : Phrase) : Prop where
  opening : Text.Closed '?' phrase.opening.toList
  link : ∀ index, Text.Closed '?' (phrase.link index).toList
  closing : Text.Closed '?' phrase.closing.toList

theorem Unasking.marked_laterDraft {phrase : Phrase} (h : phrase.Unasking) {counts : List Nat}
    {operands : List Draft} (hoperands : List.Forall₂ Draft.Marked counts operands) (index : Nat) :
    Draft.Marked counts.sum (phrase.laterDraft index operands) := by
  induction hoperands generalizing index with
  | nil => exact .sql h.closing .nil
  | cons hfirst _ ih =>
      rw [List.sum_cons]
      exact .sql (h.link index) (hfirst.append (ih (index + 1)))

theorem Unasking.marked_draft {phrase : Phrase} (h : phrase.Unasking) {counts : List Nat}
    {operands : List Draft} (hoperands : List.Forall₂ Draft.Marked counts operands) :
    Draft.Marked counts.sum (phrase.draft operands) := by
  cases hoperands with
  | nil => exact .sql h.opening (.sql h.closing .nil)
  | cons hfirst hothers =>
      rw [List.sum_cons]
      exact .sql h.opening (hfirst.append (h.marked_laterDraft hothers 0))

/-- The word that a phrase adds to what all phrases of its kind have. -/
def word : Phrase → String
  | .call name => name
  | .chain word => word
  | .cast type => type
  | .test state => state
  | .negation | .choice => ""

theorem unasking_of_word {phrase : Phrase} (h : Text.Closed '?' phrase.word.toList) :
    phrase.Unasking := by
  have hplain (text : String) (htext : text.toList.all (fun c => c != '"' && c != '?') = true) :
      Text.Closed '?' text.toList := Text.closed_of_all htext
  have hbracket : Text.Closed '?' ")".toList := hplain ")" (by decide)
  have hblank : Text.Closed '?' " ".toList := hplain " " (by decide)
  constructor
  · cases phrase with
    | call name => exact h.append_string (hplain "(" (by decide))
    | negation => exact hplain "(NOT " (by decide)
    | choice => exact hplain "(CASE WHEN " (by decide)
    | chain | cast | test => exact hplain "(" (by decide)
  · intro index
    cases phrase with
    | chain word =>
        exact (hblank.append_string h).append_string hblank
    | choice =>
        cases index with
        | zero => exact hplain " THEN " (by decide)
        | succ index => exact hplain " ELSE " (by decide)
    | call | cast | test | negation => exact hplain ", " (by decide)
  · cases phrase with
    | cast type => exact (hplain ")::" (by decide)).append_string h
    | test state => exact ((hplain " IS " (by decide)).append_string h).append_string hbracket
    | choice => exact hplain " END)" (by decide)
    | call | chain | negation => exact hbracket

/-- The question mark between two operands is the one bare mark more. -/
theorem marked_key_draft {count more : Nat} {first second : Draft}
    (hfirst : Draft.Marked count first) (hsecond : Draft.Marked more second) :
    Draft.Marked (1 + (count + more)) ((chain "?").draft [first, second]) := by
  have hopening : Text.Closed '?' "(".toList := Text.closed_of_all (by decide)
  have hclosing : Text.Closed '?' ")".toList := Text.closed_of_all (by decide)
  have hblank : Text.Closed '?' [' '] := Text.closed_of_all (by decide)
  have hmark : Text.Bears '?' 1 ['?'] := Text.bears_mark (by decide)
  have hlink : Text.Bears '?' 1 " ? ".toList := hblank.bears.append (hmark.append hblank.bears)
  have hbehind : Draft.Marked (more + 0) (second ++ [.sql ")"]) :=
    hsecond.append (.sql hclosing .nil)
  have hall := hfirst.append (.mark hlink hbehind)
  rw [Nat.add_zero, ← Nat.add_assoc, Nat.add_comm _ 1] at hall
  exact .sql hopening hall

end Phrase

/-! ## Statements -/

namespace Dialect

theorem postgresPhrase_unasking {operator : Operator} (h : operator ≠ .containsKey)
    (path : Bool) : (postgresPhrase operator path).Unasking := by
  apply Phrase.unasking_of_word
  cases operator with
  | containsKey => exact absurd rfl h
  | _ => cases path <;> exact Text.closed_of_all (by decide)

theorem closed_qualified (names : List String) :
    Text.Closed '?' (Identifier.qualified names).toList :=
  Identifier.closed_qualified (by decide) (by decide) (by decide) names

theorem marked_draft {e : Expr} (he : e.WellFormed) {draft : Draft}
    (h : postgres.draft e = .ok draft) : Draft.Marked e.keyTests draft := by
  induction e generalizing draft with
  | column ref =>
      cases h
      exact .sql (closed_qualified ref.identifiers) .nil
  | constant value =>
      cases h
      exact .parameter value .nil
  | operation operator operands ih =>
      obtain ⟨hfault, hoperands⟩ := Expr.wellFormed_operation_iff.1 he
      obtain ⟨drafts, hdrafts, rfl⟩ := postgres_draft_operation_eq_ok hfault h
      have hmarked : List.Forall₂ Draft.Marked (operands.map Expr.keyTests) drafts :=
        List.forall₂_map_left_iff.2 (forall₂_imp_of_mem hdrafts fun operand hmem _ hdraft =>
          ih operand hmem (hoperands operand hmem) hdraft)
      rw [Expr.keyTests, Expr.keyTestsAll_eq_sum]
      by_cases hkey : operator = .containsKey
      · subst hkey
        have hlength : operands.length = 2 :=
          (Operator.admits_iff_of_most rfl).1 (Expr.applicationFault?_eq_none hfault).1
        obtain ⟨first, second, rfl⟩ := List.length_eq_two.1 hlength
        obtain _ | ⟨hfirst, _ | ⟨hsecond, _ | _⟩⟩ := hmarked
        rw [if_pos rfl]
        exact Phrase.marked_key_draft hfirst hsecond
      · rw [if_neg hkey, Nat.zero_add]
        exact (postgresPhrase_unasking hkey _).marked_draft hmarked

theorem marked_assignment {assignment : Assignment} (hvalue : assignment.value.WellFormed)
    {draft : Draft} (h : postgres.draftAssignment assignment = .ok draft) :
    Draft.Marked assignment.value.keyTests draft := by
  obtain ⟨value, hdraft, rfl⟩ := draftAssignment_eq_ok.1 h
  have hname := closed_qualified assignment.target.segments
  have hequals : Text.Closed '?' " = ".toList := Text.closed_of_all (by decide)
  exact .sql (hname.append_string hequals) (marked_draft hvalue hdraft)

theorem marked_filter {filter : Option Expr}
    (hfilter : ∀ condition, filter = some condition → condition.WellFormed) {draft : Draft}
    (h : postgres.draftFilter filter = .ok draft) :
    Draft.Marked (filter.elim 0 Expr.keyTests) draft := by
  cases filter with
  | none =>
      obtain rfl := draftFilter_none.1 h
      exact .nil
  | some condition =>
      obtain ⟨-, draft, hdraft, rfl⟩ := draftFilter_some.1 h
      have hwhere : Text.Closed '?' " WHERE ".toList := Text.closed_of_all (by decide)
      exact .sql hwhere (marked_draft (hfilter condition rfl) hdraft)

theorem marked_update {update : Update} {filter : Option Expr} {lowered : List Assignment}
    (hupdate : update.WellFormed)
    (hfilter : ∀ condition, filter = some condition → condition.WellFormed)
    (hlower : update.lower = .ok lowered) {draft : Draft}
    (h : postgres.draftUpdate update filter = .ok draft) :
    Draft.Marked ((lowered.map fun assignment => assignment.value.keyTests).sum +
      filter.elim 0 Expr.keyTests) draft := by
  obtain ⟨assignments, drafts, condition, hassignments, hdrafts, hcondition, rfl⟩ :=
    draftUpdate_eq_ok.1 h
  obtain rfl := Except.ok.inj (hlower.symm.trans hassignments)
  have hwell := hupdate.lower hlower
  have hmarked : List.Forall₂ Draft.Marked
      (lowered.map fun assignment => assignment.value.keyTests) drafts :=
    List.forall₂_map_left_iff.2 (forall₂_imp_of_mem hdrafts fun assignment hmem _ hdraft =>
      marked_assignment (hwell assignment hmem) hdraft)
  have hcomma : Text.Closed '?' ", ".toList := Text.closed_of_all (by decide)
  have hopening : Text.Closed '?' "UPDATE ".toList := Text.closed_of_all (by decide)
  have hset : Text.Closed '?' " SET ".toList := Text.closed_of_all (by decide)
  have htable := closed_qualified (Text.pieces update.table)
  exact .sql ((hopening.append_string htable).append_string hset)
    ((Draft.Marked.separate hcomma hmarked).append (marked_filter hfilter hcondition))

end Dialect

theorem Draft.finish_of_marked {draft : Draft} {count : Nat} (h : Marked count draft) :
    Text.bareMarks '?' (draft.finish .anonymous).sql.toList =
        (draft.finish .anonymous).slots + count ∧
      (count = 0 → draft.finish .numbered =
        ⟨Text.renumber (draft.finish .anonymous).sql,
          (draft.finish .anonymous).parameters⟩) := by
  constructor
  · exact h.bears.bareMarks_eq
  · rintro rfl
    rw [finish, h.textFrom_eq]
    rfl

namespace Dialect

/-- A driver finds one question mark outside quotes for each parameter and one more
for each test for a key.  If there is no such test, numbering them from the left gives
the statement with numbered marks. -/
theorem postgres_question_marks :
    (∀ e statement, e.WellFormed → postgres.compile .anonymous e = .ok statement →
      Text.bareMarks '?' statement.sql.toList = statement.slots + e.keyTests ∧
      (e.keyTests = 0 → postgres.compile .numbered e =
        .ok ⟨Text.renumber statement.sql, statement.parameters⟩)) ∧
    (∀ update filter lowered statement, update.WellFormed →
      (∀ condition, filter = some condition → condition.WellFormed) →
      update.lower = .ok lowered →
      postgres.compileUpdate .anonymous update filter = .ok statement →
      let tests := (lowered.map fun assignment => assignment.value.keyTests).sum +
        filter.elim 0 Expr.keyTests
      Text.bareMarks '?' statement.sql.toList = statement.slots + tests ∧
      (tests = 0 → postgres.compileUpdate .numbered update filter =
        .ok ⟨Text.renumber statement.sql, statement.parameters⟩)) := by
  constructor
  · intro e statement he h
    obtain ⟨draft, hdraft, rfl⟩ := compile_eq_ok.1 h
    obtain ⟨hcount, hnumbered⟩ := Draft.finish_of_marked (marked_draft he hdraft)
    refine ⟨hcount, fun hnone => ?_⟩
    exact compile_eq_ok.2 ⟨draft, hdraft, hnumbered hnone⟩
  · intro update filter lowered statement hupdate hfilter hlower h
    obtain ⟨draft, hdraft, rfl⟩ := compileUpdate_eq_ok.1 h
    obtain ⟨hcount, hnumbered⟩ :=
      Draft.finish_of_marked (marked_update hupdate hfilter hlower hdraft)
    refine ⟨hcount, fun hnone => ?_⟩
    exact compileUpdate_eq_ok.2 ⟨draft, hdraft, hnumbered hnone⟩

/-- A name that is a question mark in quotes, in an expression and in an update with
a test for a key in its filter. -/
theorem postgres_question_marks_quoted :
    let doc : Expr := .column ⟨none, ["?"], .jsonb⟩
    let list : Constant := .valueList [.string "a", .string "?"]
    let e : Expr := .operation .inList [doc, .constant list]
    let test : Expr := .operation .containsKey [doc, .constant (.text "k")]
    let update : Update := ⟨"t", [⟨⟨none, ["c"], .text⟩, .constant .null⟩], []⟩
    (∃ statement, postgres.compile .anonymous e = .ok statement ∧
      statement.sql = "(\"?\" IN (?, ?))" ∧ Text.bareMarks '?' statement.sql.toList = 2 ∧
      postgres.compile .numbered e =
        .ok ⟨Text.renumber statement.sql, statement.parameters⟩) ∧
    ∃ statement, postgres.compileUpdate .anonymous update (some test) = .ok statement ∧
      statement.sql = "UPDATE t SET c = ? WHERE (\"?\" ? ?)" ∧
      Text.bareMarks '?' statement.sql.toList = 2 + 1 := by
  intro doc list e test update
  have he : e.WellFormed := ⟨rfl, trivial, trivial, trivial⟩
  have htest : test.WellFormed := ⟨rfl, trivial, trivial, trivial⟩
  have hupdate : update.WellFormed := ⟨List.forall_mem_singleton.2 trivial, nofun⟩
  have hfilter : ∀ condition, some test = some condition → condition.WellFormed := by
    rintro condition ⟨⟩
    exact htest
  have hstatement : postgres.compile .anonymous e = .ok ⟨"(\"?\" IN (?, ?))", [list]⟩ := by
    unfold e doc list
    rfl
  have hwhole : postgres.compileUpdate .anonymous update (some test) =
      .ok ⟨"UPDATE t SET c = ? WHERE (\"?\" ? ?)", [.null, .text "k"]⟩ := by
    unfold update test doc
    rfl
  obtain ⟨hexpr, hupdates⟩ := postgres_question_marks
  obtain ⟨hcount, hnumbered⟩ := hexpr e _ he hstatement
  exact ⟨⟨_, hstatement, rfl, hcount, hnumbered rfl⟩, _, hwhole, rfl,
    (hupdates update (some test) _ _ hupdate hfilter rfl hwhole).1⟩

/-- A test for a key has a question mark that is no parameter. -/
theorem postgres_question_marks_key :
    let e : Expr := .operation .containsKey
      [.column ⟨none, ["meta"], .jsonb⟩, .constant (.text "a")]
    e.WellFormed ∧ ∃ statement, postgres.compile .anonymous e = .ok statement ∧
      statement.sql = "(meta ? ?)" ∧ statement.slots = 1 ∧
      Text.bareMarks '?' statement.sql.toList = 2 := by
  intro e
  have hstatement : postgres.compile .anonymous e = .ok ⟨"(meta ? ?)", [.text "a"]⟩ := by
    unfold e
    rfl
  exact ⟨⟨rfl, trivial, trivial, trivial⟩, _, hstatement, rfl, rfl, by decide⟩

end Dialect

end JsonbAlgebra
