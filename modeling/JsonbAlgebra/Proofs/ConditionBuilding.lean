import JsonbAlgebra.Expr.Predicate
import JsonbAlgebra.Proofs.ThreeValuedLogic

/-!
# Building conditions

A slot for any value lets every operand through but an empty value list, a slot for a
document lets every document through, and the slots of a conjunction or a disjunction
every condition.  So null checks and comparisons can be built over everything else, and
what is built of them can be joined and chosen by.
-/

namespace JsonbAlgebra.Expr

theorem apply_of_admits {operator : Operator} {operands : List Expr}
    (hadmits : operator.contract.admits operands.length = true)
    (hoperands : operandsFault? operator 0 operands = none) :
    apply operator operands = .ok (.operation operator operands) := by
  rw [apply, applicationFault?, if_pos hadmits, hoperands]

theorem operandFault?_any {operator : Operator} {index : Nat} {name : String}
    (hslot : operator.contract.slotAt index = some (.any name)) (e : Expr) :
    operandFault? operator index e =
      if e.isEmptyList then some (.emptyValueList operator) else none := by
  rw [operandFault?, hslot]
  rfl

theorem isEmptyList_of_tag_ne {e : Expr} (h : e.tag ≠ .valueList) : e.isEmptyList = false := by
  cases hempty : e.isEmptyList with
  | false => rfl
  | true => exact absurd (tag_of_isEmptyList hempty) h

theorem isEmptyList_of_evaluate {e : Expr} {row : Row} {datum : Datum}
    (h : e.evaluate row = .ok datum) : e.isEmptyList = false := by
  unfold isEmptyList
  split
  · cases h
  · rfl

/-! ## Over any value -/

theorem apply_one_any {operator : Operator} {name : String}
    (hadmits : operator.contract.admits 1 = true)
    (hslot : operator.contract.slotAt 0 = some (.any name)) (value : Expr) :
    apply operator [value] =
      if value.isEmptyList then .error (.emptyValueList operator)
      else .ok (.operation operator [value]) := by
  have hfault := operandFault?_any hslot value
  cases hempty : value.isEmptyList with
  | true => simp [apply, applicationFault?, hadmits, operandsFault?, hfault, hempty]
  | false => simp [apply, applicationFault?, hadmits, operandsFault?, hfault, hempty]

theorem apply_two_any {operator : Operator} {first second : String}
    (hadmits : operator.contract.admits 2 = true)
    (hfirst : operator.contract.slotAt 0 = some (.any first))
    (hsecond : operator.contract.slotAt 1 = some (.any second)) {left right : Expr}
    (hleft : left.isEmptyList = false) (hright : right.isEmptyList = false) :
    apply operator [left, right] = .ok (.operation operator [left, right]) := by
  refine apply_of_admits hadmits ?_
  simp [operandsFault?, operandFault?_any hfirst, operandFault?_any hsecond, hleft, hright]

theorem equals_of_single {left right : Expr} (hleft : left.isEmptyList = false)
    (hright : right.isEmptyList = false) :
    equals left right = .ok (.operation .eq [left, right]) :=
  apply_two_any rfl rfl rfl hleft hright

/-! ## Over documents and conditions -/

theorem apply_one_json {operator : Operator} {name : String}
    (hadmits : operator.contract.admits 1 = true)
    (hslot : operator.contract.slotAt 0 = some (.json name)) {value : Expr}
    (htag : value.tag = .json) : apply operator [value] = .ok (.operation operator [value]) := by
  have hfault : operandFault? operator 0 value = none := by
    rw [operandFault?_json hslot, htag]
    rfl
  exact apply_of_admits hadmits (by simp [operandsFault?, hfault])

theorem operandFault?_condition {operator : Operator} {index : Nat}
    (hslot : operator.contract.slotAt index = some .condition) {e : Expr}
    (htag : e.tag = .boolean) : operandFault? operator index e = none := by
  have hsingle : e.isEmptyList = false := isEmptyList_of_tag_ne (by simp [htag])
  rw [operandFault?, hslot, htag, hsingle]
  rfl

theorem operandsFault?_conditions {operator : Operator}
    (hslot : ∀ index, operator.contract.slotAt index = some .condition) {operands : List Expr}
    (htags : ∀ operand ∈ operands, operand.tag = .boolean) (start : Nat) :
    operandsFault? operator start operands = none := by
  induction operands generalizing start with
  | nil => rfl
  | cons operand operands ih =>
      obtain ⟨hfirst, hothers⟩ := List.forall_mem_cons.1 htags
      rw [operandsFault?, operandFault?_condition (hslot start) hfirst]
      exact ih hothers (start + 1)

theorem apply_junctor (decisive : Bool) {operands : List Expr} (hcount : 2 ≤ operands.length)
    (htags : ∀ operand ∈ operands, operand.tag = .boolean) :
    apply (.junctor decisive) operands = .ok (.operation (.junctor decisive) operands) := by
  have hslot : ∀ index, (Operator.junctor decisive).contract.slotAt index = some .condition :=
    Operator.slotAt_condition (by cases decisive <;> simp [Operator.junctor])
  refine apply_of_admits ?_ (operandsFault?_conditions hslot htags 0)
  cases decisive <;> simp [Operator.junctor, Operator.contract, Contract.admits, hcount]

theorem not_of_condition {condition : Expr} (htag : condition.tag = .boolean) :
    Expr.not condition = .ok (negation condition) := by
  refine apply_of_admits rfl ?_
  simp [operandsFault?, operandFault?_condition (rfl : Operator.not.contract.slotAt 0 = _) htag]

theorem caseWhen_of_single {condition value otherwise : Expr} (htag : condition.tag = .boolean)
    (hvalue : value.isEmptyList = false) (hotherwise : otherwise.isEmptyList = false) :
    caseWhen condition value otherwise =
      .ok (.operation .caseWhen [condition, value, otherwise]) := by
  have hcondition := operandFault?_condition
    (rfl : Operator.caseWhen.contract.slotAt 0 = some .condition) htag
  have hsecond := operandFault?_any
    (rfl : Operator.caseWhen.contract.slotAt 1 = some (.any "then")) value
  have hthird := operandFault?_any
    (rfl : Operator.caseWhen.contract.slotAt 2 = some (.any "otherwise")) otherwise
  refine apply_of_admits rfl ?_
  simp [operandsFault?, hcondition, hsecond, hthird, hvalue, hotherwise]

end JsonbAlgebra.Expr
