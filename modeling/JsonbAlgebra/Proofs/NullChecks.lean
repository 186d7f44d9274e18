import JsonbAlgebra.Proofs.ConditionBuilding
import JsonbAlgebra.Proofs.OperandOrder
import JsonbAlgebra.Proofs.StepwiseNavigation

/-!
# Wide null checks

A document is null if it is NULL or the document null, and its null check joins a test for
each of the two.  The test for the document null is unknown on NULL alone, where the other
test settles the check.  So the check and its opposite have a truth value on every
document, in every order of their operands, and each is the negation of the other on
everything that they can be built of.

Both have one form, a junction of a test and a comparison, and the truth value that
settles the junction tells them apart.
-/

namespace JsonbAlgebra

theorem Document.equal_null (document : Document) :
    document.equal .null = (document.kind == .null) := by
  cases document <;> simp [Document.equal, Document.kind]

/-- Whether a datum is one of the nulls of a tag, among which the document null is one of
documents only. -/
def Datum.isNullOf (tag : Tag) : Datum → Bool
  | .null => true
  | .json .null => tag == .json
  | _ => false

theorem Datum.isNullOf_iff {tag : Tag} {datum : Datum} :
    datum.isNullOf tag = true ↔ datum = .null ∨ tag = .json ∧ datum = .json .null := by
  unfold isNullOf
  split <;> simp_all

theorem Datum.isNullOf_json (document : Document) :
    (Datum.json document).isNullOf .json = (document.kind == .null) := by
  cases document <;> rfl

theorem Datum.isNullOf_of_ne {tag : Tag} (h : tag ≠ .json) (datum : Datum) :
    datum.isNullOf tag = datum.isNull := by
  unfold isNullOf
  split <;> simp_all [Datum.isNull]

namespace Expr

open Kleene

/-- The test for NULL that stands in the wide check which a truth value settles. -/
def sqlTest : Bool → Operator
  | true => .isNull
  | false => .isNotNull

/-- The comparison with the document null in this check. -/
def comparison : Bool → Operator
  | true => .eq
  | false => .ne

/-- The tree of the null check, which true settles, and of its opposite. -/
def wideTest (decisive : Bool) (value : Expr) : Expr :=
  if value.tag = .json then
    .operation (.junctor decisive)
      [.operation (sqlTest decisive) [value],
        .operation (comparison decisive) [value, .constant .jsonNull]]
  else .operation (sqlTest decisive) [value]

theorem tag_wideTest (decisive : Bool) (value : Expr) :
    (wideTest decisive value).tag = .boolean := by
  unfold wideTest
  split <;> cases decisive <;> rfl

/-! ## Building -/

def buildWideTest (decisive : Bool) (value : Expr) : Except Fault Expr := do
  let test ← apply (sqlTest decisive) [value]
  if value.tag = .json then
    let compared ← apply (comparison decisive) [value, .constant .jsonNull]
    apply (.junctor decisive) [test, compared]
  else return test

theorem buildWideTest_eq (decisive : Bool) (value : Expr) :
    buildWideTest decisive value =
      if value.isEmptyList then .error (.emptyValueList (sqlTest decisive))
      else .ok (wideTest decisive value) := by
  have htest : apply (sqlTest decisive) [value] =
      if value.isEmptyList then .error (.emptyValueList (sqlTest decisive))
      else .ok (.operation (sqlTest decisive) [value]) := by
    cases decisive <;> exact apply_one_any rfl rfl value
  by_cases hlist : value.isEmptyList = true
  · rw [if_pos hlist] at htest ⊢
    rw [buildWideTest, htest]
    rfl
  · rw [if_neg hlist] at htest ⊢
    have hcompared : apply (comparison decisive) [value, .constant .jsonNull] =
        .ok (.operation (comparison decisive) [value, .constant .jsonNull]) := by
      cases decisive <;> exact apply_two_any rfl rfl rfl (Bool.eq_false_of_not_eq_true hlist) rfl
    have htags : ∀ operand ∈ [operation (sqlTest decisive) [value],
        operation (comparison decisive) [value, .constant .jsonNull]], operand.tag = .boolean := by
      cases decisive <;> simp [tag, sqlTest, comparison, Operator.contract, Contract.exact,
        Contract.resultTag]
    rw [buildWideTest, htest, wideTest]
    by_cases htag : value.tag = .json
    · simp only [bind, Except.bind, if_pos htag, hcompared]
      exact apply_junctor decisive le_rfl htags
    · simp only [bind, Except.bind, if_neg htag]
      rfl

theorem isNull_eq (value : Expr) :
    value.isNull =
      if value.isEmptyList then .error (.emptyValueList .isNull)
      else .ok (wideTest true value) :=
  buildWideTest_eq true value

theorem isNotNull_eq (value : Expr) :
    value.isNotNull =
      if value.isEmptyList then .error (.emptyValueList .isNotNull)
      else .ok (wideTest false value) :=
  buildWideTest_eq false value

/-! ## The opposite check -/

theorem evaluate_sqlTest (decisive : Bool) (value : Expr) (row : Row) :
    (operation (sqlTest decisive) [value]).evaluate row =
      (value.evaluate row).map fun datum => .boolean (datum.isNull == decisive) := by
  have hcheck : (operation (sqlTest decisive) [value]).evaluate row =
      Operator.nullCheck (sqlTest decisive) decisive [value.evaluate row] := by
    cases decisive <;> rfl
  rw [hcheck]
  cases value.evaluate row <;> rfl

theorem negation_wideTest (value : Expr) (row : Row) :
    (negation (wideTest true value)).evaluate row = (wideTest false value).evaluate row := by
  have hsql : (negation (operation .isNull [value])).evaluate row =
      (operation .isNotNull [value]).evaluate row := by
    have hnull : (operation .isNull [value]).evaluate row = _ := evaluate_sqlTest true value row
    have hpresent : (operation .isNotNull [value]).evaluate row = _ :=
      evaluate_sqlTest false value row
    rw [evaluate_negation, Expr.truth, hnull, hpresent]
    cases value.evaluate row with
    | error fault => rfl
    | ok datum => cases datum <;> rfl
  unfold wideTest
  split
  · rw [evaluate_negation_junction, evaluate_junction_results, evaluate_junction_results]
    simp only [List.map_cons, List.map_nil, evaluateAll, sqlTest, comparison, hsql, evaluate_ne]
    rfl
  · exact hsql

/-! ## Truth values -/

section Steady

variable {row : Row} {kept : Expr → Prop} {faults : EvaluationFault → Prop} {value : Expr}
  {datum : Datum}

theorem steady_sqlTest (decisive : Bool) (h : Steady row kept faults value datum) :
    Steady row kept faults (.operation (sqlTest decisive) [value])
      (.boolean (datum.isNull == decisive)) := by
  cases decisive with
  | true => simpa [sqlTest] using h.isNull
  | false => simpa [sqlTest] using h.isNotNull

/-- A comparison with the document null is unknown on NULL. -/
theorem steady_comparison (decisive : Bool) (h : Steady row kept faults value datum)
    (hdatum : datum.Conforms .json) :
    Steady row kept faults
      (.operation (comparison decisive) [value, .constant .jsonNull])
      (.ofTruth (if datum.isNull then none else some (datum.isNullOf .json == decisive))) := by
  have hnull : Steady row kept faults (.constant .jsonNull) (.json .null) := .constant rfl
  refine Steady.strict (by cases decisive <;> rfl) (.cons h (.cons hnull .nil)) ?_
  cases datum with
  | null => rfl
  | json document =>
      have hstrict : Operator.strict (comparison decisive) [.json document, .json .null] =
          .ok (.boolean (document.equal .null == decisive)) := by
        cases decisive <;> simp [comparison, Operator.strict, Datum.equal, Except.map]
      rw [Document.equal_null, ← Datum.isNullOf_json] at hstrict
      exact hstrict
  | _ => cases hdatum

theorem steady_wideTest (decisive : Bool) (h : Steady row kept faults value datum)
    (hdatum : value.tag = .json → datum.Conforms .json) :
    Steady row kept faults (wideTest decisive value)
      (.boolean (datum.isNullOf value.tag == decisive)) := by
  have htest := steady_sqlTest decisive h
  unfold wideTest
  split
  · rename_i htag
    have hcompared := steady_comparison decisive h (hdatum htag)
    have hjoined := Steady.junction_pair decisive (some (datum.isNull == decisive)) _ htest
      hcompared
    have htruth : connective decisive (some (datum.isNull == decisive))
        (if datum.isNull then none else some (datum.isNullOf .json == decisive)) =
          some (datum.isNullOf .json == decisive) := by
      cases datum with
      | null => cases decisive <;> rfl
      | json document =>
          simp only [Datum.isNull]
          cases decisive <;> cases (Datum.json document).isNullOf .json <;> rfl
      | _ => cases hdatum htag
    rw [htag]
    rwa [htruth] at hjoined
  · rename_i htag
    rwa [Datum.isNullOf_of_ne htag]

theorem truth_wideTest (decisive : Bool) (hvalue : value.evaluate row = .ok datum)
    (hdatum : value.tag = .json → datum.Conforms .json) :
    (wideTest decisive value).truth row = .ok (some (datum.isNullOf value.tag == decisive)) :=
  evaluate_eq_boolean_iff.1
    (Steady.evaluate_eq hvalue (steady_wideTest decisive (Steady.of_evaluate hvalue) hdatum))

theorem selects_of_truth {condition : Expr} {truth : Bool}
    (h : condition.truth row = .ok (some truth)) : condition.selects row = .ok truth := by
  rw [selects, h]
  cases truth <;> rfl

end Steady

/-- The check and its opposite can be built of everything but an empty value list, and the
opposite evaluates as the negation of the check does, failures included.  On NULL and on
documents, and on every datum of a value with another tag, both have a truth value: the
check is true on the nulls of the tag, and of the two exactly one selects the row. -/
theorem null_checks_complementary (value : Expr) (row : Row) :
    (if value.isEmptyList then
      value.isNull = .error (.emptyValueList .isNull) ∧
        value.isNotNull = .error (.emptyValueList .isNotNull)
    else EvaluateAlike row value.isNotNull (value.isNull >>= Expr.not)) ∧
    ∀ datum, value.evaluate row = .ok datum →
      (value.tag = .json → datum = .null ∨ ∃ document, datum = .json document) →
      ∃ null present both isNull, value.isNull = .ok null ∧ value.isNotNull = .ok present ∧
        null.and present = .ok both ∧
        (isNull = true ↔ datum = .null ∨ value.tag = .json ∧ datum = .json .null) ∧
        null.evaluate row = .ok (.boolean isNull) ∧
        both.selects row = .ok false ∧
        null.selects row = .ok isNull ∧ present.selects row = .ok !isNull := by
  have hnull := isNull_eq value
  have hpresent := isNotNull_eq value
  refine ⟨?_, ?_⟩
  · split
    · rename_i hlist
      rw [hnull, hpresent, if_pos hlist, if_pos hlist]
      exact ⟨rfl, rfl⟩
    · rename_i hlist
      rw [if_neg hlist] at hnull hpresent
      refine ⟨_, _, hpresent, ?_, (negation_wideTest value row).symm⟩
      rw [hnull]
      exact not_of_condition (tag_wideTest true value)
  · intro datum hvalue hdatum
    have hlist := isEmptyList_of_evaluate hvalue
    have hconforms : value.tag = .json → datum.Conforms .json := by
      intro htag
      obtain rfl | ⟨document, rfl⟩ := hdatum htag <;> rfl
    have htruth : (wideTest true value).truth row = .ok (some (datum.isNullOf value.tag)) := by
      simpa using truth_wideTest true hvalue hconforms
    have hopposite : (wideTest false value).truth row =
        .ok (some !datum.isNullOf value.tag) := by
      simpa using truth_wideTest false hvalue hconforms
    have hboth : (operation (.junctor false) [wideTest true value, wideTest false value]).truth
        row = .ok (some false) := by
      rw [truth_junction_cons, truth_junction_singleton, htruth, hopposite, settle_ok]
      cases datum.isNullOf value.tag <;> rfl
    have htags : ∀ operand ∈ [wideTest true value, wideTest false value],
        operand.tag = .boolean := by
      simp [tag_wideTest]
    rw [hlist] at hnull hpresent
    exact ⟨_, _, _, datum.isNullOf value.tag, hnull, hpresent,
      apply_junctor false le_rfl htags, Datum.isNullOf_iff, evaluate_eq_boolean_iff.2 htruth,
      selects_of_truth hboth, selects_of_truth htruth, selects_of_truth hopposite⟩

/-- A navigation into a document that ends at the document null. -/
theorem null_checks_complementary_nested :
    let value : Expr := .operation .get [.column ⟨none, ["doc"], .jsonb⟩, pathOperand ["a"]]
    let row : Row := fun _ => .json (.object [("a", .null)])
    value.isEmptyList = false ∧
      EvaluateAlike row value.isNotNull (value.isNull >>= Expr.not) ∧
      ∃ null, value.isNull = .ok null ∧ null.selects row = .ok true := by
  intro value row
  obtain ⟨halike, hnull⟩ := null_checks_complementary value row
  obtain ⟨null, -, -, isNull, hbuilt, -, -, hiff, -, -, hselects, -⟩ :=
    hnull (.json .null) rfl fun _ => .inr ⟨.null, rfl⟩
  obtain rfl : isNull = true := hiff.2 (.inr ⟨rfl, rfl⟩)
  exact ⟨rfl, halike, null, hbuilt, hselects⟩

end Expr

end JsonbAlgebra
