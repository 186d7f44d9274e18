import JsonbAlgebra.Proofs.NullChecks

/-!
# Empty arrays

The size of a document is taken inside a choice, behind the test for an array.  Nothing
else around it can fail, so the tests for an array and for an empty one have a truth value
on NULL and on every document, in every order of the conjunctions and disjunctions that
they are made of.
-/

namespace JsonbAlgebra

namespace Datum

def isArray : Datum → Bool
  | .json (.array _) => true
  | _ => false

/-- Whether the size of an array is zero, as a word counts it. -/
def isSizeless : Datum → Bool
  | .json (.array items) => Int64.ofNat items.length == 0
  | _ => false

theorem ofNat_eq_zero_iff {count : Nat} (h : count < 2 ^ 64) :
    Int64.ofNat count = 0 ↔ count = 0 := by
  rw [← Int64.toBitVec_inj, ← BitVec.toNat_inj, Int64.toBitVec_ofNat', BitVec.toNat_ofNat,
    Nat.mod_eq_of_lt h]
  rfl

theorem isArray_iff {datum : Datum} :
    datum.isArray = true ↔ ∃ items, datum = .json (.array items) := by
  unfold isArray
  split <;> simp_all

theorem isSizeless_iff {datum : Datum}
    (hlength : ∀ items, datum = .json (.array items) → items.length < 2 ^ 64) :
    datum.isSizeless = true ↔ datum = .json (.array []) := by
  unfold isSizeless
  split
  · rename_i items
    simp [ofNat_eq_zero_iff (hlength items rfl)]
  · rename_i hother
    simp only [Bool.false_eq_true, false_iff]
    exact hother []

end Datum

namespace Expr

open Kleene

/-- The trees of the test for an array and of the test for an empty one. -/
def arrayTest (value : Expr) : Expr :=
  .operation (.junctor false)
    [wideTest false value, .operation .eq [.operation .typeOf [value], textOperand "array"]]

def emptyArrayTest (value : Expr) : Expr :=
  .operation (.junctor true)
    [wideTest true value,
      .operation .caseWhen
        [value.arrayTest,
          .operation .eq [.operation .size [value], .constant (.integer 0)],
          ofDocument (.boolean false)]]

/-! ## Building -/

section Building

variable {value : Expr} (htag : value.tag = .json)
include htag

theorem isArray_of_json : value.isArray = .ok value.arrayTest := by
  have hlist : value.isEmptyList = false := isEmptyList_of_tag_ne (by simp [htag])
  have hpresent := isNotNull_eq value
  rw [hlist] at hpresent
  have htype : value.typeOf = .ok (.operation .typeOf [value]) := apply_one_json rfl rfl htag
  have hnamed : equals (.operation .typeOf [value]) (textOperand "array") = _ :=
    equals_of_single rfl rfl
  have htags : ∀ operand ∈ [wideTest false value,
      .operation .eq [.operation .typeOf [value], textOperand "array"]],
      operand.tag = .boolean := by
    simp [tag_wideTest, tag, Operator.contract, Contract.exact, Contract.resultTag]
  rw [isArray, hpresent, htype]
  exact apply_junctor false le_rfl htags

theorem isEmptyArray_of_json : value.isEmptyArray = .ok value.emptyArrayTest := by
  have hlist : value.isEmptyList = false := isEmptyList_of_tag_ne (by simp [htag])
  have hsize : value.size = .ok (.operation .size [value]) := apply_one_json rfl rfl htag
  have hzero : equals (.operation .size [value]) (.constant (.integer 0)) =
      .ok (.operation .eq [.operation .size [value], .constant (.integer 0)]) :=
    equals_of_single rfl rfl
  have hchoice : caseWhen value.arrayTest
      (.operation .eq [.operation .size [value], .constant (.integer 0)])
      (ofDocument (.boolean false)) =
        .ok (.operation .caseWhen
          [value.arrayTest, .operation .eq [.operation .size [value], .constant (.integer 0)],
            ofDocument (.boolean false)]) := caseWhen_of_single rfl rfl rfl
  have hnull := isNull_eq value
  rw [hlist] at hnull
  have htags : ∀ operand ∈ [wideTest true value,
      .operation .caseWhen
        [value.arrayTest,
          .operation .eq [.operation .size [value], .constant (.integer 0)],
          ofDocument (.boolean false)]], operand.tag = .boolean := by
    simp [tag_wideTest, tag, tags, Operator.contract, Contract.exact, Contract.resultTag]
  rw [isEmptyArray, isArray_of_json htag, hsize]
  simp only [bind, Except.bind, hzero, hchoice, hnull]
  exact apply_junctor true le_rfl htags

end Building

/-! ## Truth values -/

section Steady

variable {row : Row} {kept : Expr → Prop} {faults : EvaluationFault → Prop} {value : Expr}
  {datum : Datum}

theorem steady_named (h : Steady row kept faults value datum) (hdatum : datum.Conforms .json) :
    Steady row kept faults (.operation .eq [.operation .typeOf [value], textOperand "array"])
      (.ofTruth (if datum.isNull then none else some datum.isArray)) := by
  have htext : Steady row kept faults (textOperand "array") (.text "array") := .constant rfl
  cases datum with
  | null =>
      have htype : Steady row kept faults (.operation .typeOf [value]) .null :=
        .strict rfl (.cons h .nil) rfl
      exact .strict rfl (.cons htype (.cons htext .nil)) rfl
  | json document =>
      have htype : Steady row kept faults (.operation .typeOf [value])
          (.text document.kind.name) := .strict rfl (.cons h .nil) rfl
      refine .strict rfl (.cons htype (.cons htext .nil)) ?_
      cases document <;> rfl
  | _ => cases hdatum

theorem steady_arrayTest (htag : value.tag = .json) (h : Steady row kept faults value datum)
    (hdatum : datum.Conforms .json) :
    Steady row kept faults value.arrayTest (.boolean datum.isArray) := by
  have hpresent := steady_wideTest false h fun _ => hdatum
  rw [htag] at hpresent
  have hjoined := Steady.junction_pair false (some (datum.isNullOf .json == false)) _ hpresent
    (steady_named h hdatum)
  have htruth : connective false (some (datum.isNullOf .json == false))
      (if datum.isNull then none else some datum.isArray) = some datum.isArray := by
    cases datum with
    | null => rfl
    | json document => cases document <;> rfl
    | _ => cases hdatum
  rwa [htruth] at hjoined

/-- The size is compared only where the value is an array. -/
theorem steady_choice (htag : value.tag = .json) (h : Steady row kept faults value datum)
    (hdatum : datum.Conforms .json) :
    Steady row kept faults
      (.operation .caseWhen
        [value.arrayTest, .operation .eq [.operation .size [value], .constant (.integer 0)],
          ofDocument (.boolean false)])
      (.boolean datum.isSizeless) := by
  refine .caseWhen (some datum.isArray) (steady_arrayTest htag h hdatum) ?_
  cases harray : datum.isArray with
  | true =>
      obtain ⟨items, rfl⟩ := Datum.isArray_iff.1 harray
      have hzero : Steady row kept faults (.constant (.integer 0)) (.integer 0) := .constant rfl
      have hsize : Steady row kept faults (.operation .size [value])
          (.integer (Int64.ofNat items.length)) := .strict rfl (.cons h .nil) rfl
      exact .strict rfl (.cons hsize (.cons hzero .nil)) rfl
  | false =>
      have hsizeless : datum.isSizeless = false := by
        unfold Datum.isSizeless
        split
        · cases harray
        · rfl
      rw [hsizeless]
      exact .constant rfl

theorem steady_emptyArrayTest (htag : value.tag = .json)
    (h : Steady row kept faults value datum) (hdatum : datum.Conforms .json) :
    Steady row kept faults value.emptyArrayTest
      (.boolean (datum.isNullOf .json || datum.isSizeless)) := by
  have hnull := steady_wideTest true h fun _ => hdatum
  rw [htag] at hnull
  have hjoined := Steady.junction_pair true (some (datum.isNullOf .json == true))
    (some datum.isSizeless) hnull (steady_choice htag h hdatum)
  have htruth : connective true (some (datum.isNullOf .json == true)) (some datum.isSizeless) =
      some (datum.isNullOf .json || datum.isSizeless) := by
    cases datum.isNullOf .json <;> cases datum.isSizeless <;> rfl
  rwa [htruth] at hjoined

end Steady

/-! ## All orders -/

/-- A condition on a value has a truth value in the evaluator's order of operands, in every
run that evaluates the value as it stands, and in a run that reorders the operands inside
the value as well, unless the value itself fails in this way. -/
structure Definite (row : Row) (value condition : Expr) (truth : Bool) : Prop where
  evaluates : condition.evaluate row = .ok (.boolean truth)
  around : ∀ outcome, Runs row (· = value) condition outcome → outcome = .ok (.boolean truth)
  throughout : ∀ kept outcome, Runs row kept condition outcome →
    outcome = .ok (.boolean truth) ∨
      ∃ fault, Runs row kept value (.error fault) ∧ outcome = .error fault

theorem Definite.of_steady {row : Row} {value condition : Expr} {datum : Datum} {truth : Bool}
    (hvalue : value.evaluate row = .ok datum)
    (h : ∀ kept, Steady row kept (fun fault => Runs row kept value (.error fault)) condition
      (.boolean truth)) : Definite row value condition truth where
  evaluates := Steady.evaluate_eq hvalue (h _)
  around := fun _ hrun => Steady.eq_ok hvalue (h _) hrun
  throughout := h

/-- Over NULL and every document the tests for an array and for an empty array can be built
and have a truth value in every order of their operands, so nothing in them fails.  The
first is true on arrays; the second is true on NULL, on the document null and on the array
without items.  An array in memory has fewer items than words can count. -/
theorem empty_array_any_order {value : Expr} (htag : value.tag = .json) {row : Row}
    {datum : Datum} (hvalue : value.evaluate row = .ok datum)
    (hdatum : datum = .null ∨ ∃ document, datum = .json document) :
    ∃ array empty isArray isEmpty,
      value.isArray = .ok array ∧ value.isEmptyArray = .ok empty ∧
      (isArray = true ↔ ∃ items, datum = .json (.array items)) ∧
      ((∀ items, datum = .json (.array items) → items.length < 2 ^ 64) →
        (isEmpty = true ↔
          datum = .null ∨ datum = .json .null ∨ datum = .json (.array []))) ∧
      Definite row value array isArray ∧ Definite row value empty isEmpty := by
  have hconforms : datum.Conforms .json := by
    obtain rfl | ⟨document, rfl⟩ := hdatum <;> rfl
  refine ⟨value.arrayTest, value.emptyArrayTest, datum.isArray,
    datum.isNullOf .json || datum.isSizeless, isArray_of_json htag, isEmptyArray_of_json htag,
    Datum.isArray_iff, ?_, ?_, ?_⟩
  · intro hlength
    rw [Bool.or_eq_true, Datum.isNullOf_iff, Datum.isSizeless_iff hlength, or_assoc]
    simp
  · exact .of_steady hvalue fun kept =>
      steady_arrayTest htag (Steady.of_evaluate hvalue) hconforms
  · exact .of_steady hvalue fun kept =>
      steady_emptyArrayTest htag (Steady.of_evaluate hvalue) hconforms

/-- An object, of which the size cannot be taken, from a choice whose condition fails if its
own operands are taken in the other order. -/
theorem empty_array_any_order_guarded :
    let row : Row := fun _ => .null
    let failing : Expr := .operation .eq
      [.operation .size [jsonOperand (.object [])], .constant (.integer 0)]
    let value : Expr := .operation .caseWhen
      [.operation .and [ofDocument (.boolean false), failing],
        jsonOperand (.array []), jsonOperand (.object [])]
    (∃ fault, Runs row (fun _ => False) value (.error fault)) ∧
      ∃ array empty, value.isArray = .ok array ∧ value.isEmptyArray = .ok empty ∧
        Definite row value array false ∧ Definite row value empty false := by
  intro row failing value
  refine ⟨?_, ?_⟩
  · have hno : Runs row (fun _ => False) (ofDocument (.boolean false)) (.ok (.boolean false)) :=
      runs_evaluate row _ (ofDocument (.boolean false))
    have hfails : Runs row (fun _ => False) failing (.error .sizeOfNonArray) :=
      runs_evaluate row _ failing
    have hcondition : Runs row (fun _ => False)
        (.operation .and [ofDocument (.boolean false), failing]) (.error .sizeOfNonArray) :=
      .operation not_false (.cons hno (.cons hfails .nil))
        ⟨.error .sizeOfNonArray, ⟨_, .swap .., .inl rfl⟩, rfl⟩
    have hbranches : List.Forall₂ (Runs row fun _ => False)
        [jsonOperand (.array []), jsonOperand (.object [])] _ :=
      .cons (runs_evaluate row _ _) (.cons (runs_evaluate row _ _) .nil)
    exact ⟨.sizeOfNonArray, .operation not_false (.cons hcondition hbranches) rfl⟩
  · have hvalue : value.evaluate row = .ok (.json (.object [])) := rfl
    obtain ⟨array, empty, isArray, isEmpty, harray, hempty, hisArray, hisEmpty, hdefinite,
      hdefinite'⟩ := empty_array_any_order rfl hvalue (.inr ⟨_, rfl⟩)
    obtain rfl : isArray = false := by simpa using hisArray
    obtain rfl : isEmpty = false := by simpa using hisEmpty
    exact ⟨array, empty, harray, hempty, hdefinite, hdefinite'⟩

end Expr

end JsonbAlgebra
