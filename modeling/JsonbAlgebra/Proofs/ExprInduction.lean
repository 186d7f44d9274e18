import JsonbAlgebra.Expr.Basic

/-!
# Induction over expressions

The operands of an operation form a list, so the induction principle that
comes with the type asks for a second statement about lists of expressions.
The principle here asks only for a statement about single expressions, which
may be used of every operand.  With it come the parts and the columns of an
expression, and what the check of an operation says about each operand.
-/

namespace JsonbAlgebra

theorem Operator.admits_iff_of_most {operator : Operator} {most count : Nat}
    (hmost : operator.contract.most = some most) :
    operator.contract.admits count = true ↔ count = most := by
  have hleast : operator.contract.least = most := by
    cases operator <;> simp_all [Operator.contract, Contract.exact]
  simp only [Contract.admits, hleast, hmost, Option.all_some, Bool.and_eq_true,
    decide_eq_true_eq]
  omega

namespace Expr

@[elab_as_elim, induction_eliminator]
theorem induction {motive : Expr → Prop}
    (column : ∀ ref, motive (.column ref))
    (constant : ∀ value, motive (.constant value))
    (operation : ∀ operator operands,
      (∀ operand ∈ operands, motive operand) → motive (.operation operator operands))
    (e : Expr) : motive e := by
  refine @Expr.rec motive (fun operands => ∀ operand ∈ operands, motive operand)
    column constant operation ?_ ?_ e
  · intro operand hmem
    exact absurd hmem List.not_mem_nil
  · intro first others hfirst hothers operand hmem
    rcases List.mem_cons.1 hmem with rfl | hmem
    · exact hfirst
    · exact hothers operand hmem

/-- One expression stands in another, or is all of it. -/
inductive Within (part : Expr) : Expr → Prop
  | whole : Within part part
  | operand {operator : Operator} {operands : List Expr} {operand : Expr}
      (hmem : operand ∈ operands) (hwithin : Within part operand) :
      Within part (.operation operator operands)

theorem wellFormed_column (ref : ColumnRef) : (Expr.column ref).WellFormed :=
  trivial

theorem wellFormed_constant (value : Constant) : (Expr.constant value).WellFormed :=
  trivial

theorem allWellFormed_iff {operands : List Expr} :
    AllWellFormed operands ↔ ∀ operand ∈ operands, operand.WellFormed := by
  induction operands with
  | nil => simp [AllWellFormed]
  | cons operand operands ih => simp [AllWellFormed, ih]

theorem wellFormed_operation_iff {operator : Operator} {operands : List Expr} :
    (Expr.operation operator operands).WellFormed ↔
      applicationFault? operator operands = none ∧
        ∀ operand ∈ operands, operand.WellFormed := by
  rw [WellFormed, allWellFormed_iff]

mutual

/-- The references in an expression, from left to right. -/
def columns : Expr → List ColumnRef
  | .column ref => [ref]
  | .constant _ => []
  | .operation _ operands => columnsAll operands

def columnsAll : List Expr → List ColumnRef
  | [] => []
  | operand :: operands => columns operand ++ columnsAll operands

end

theorem mem_columns_operation {operator : Operator} {operands : List Expr} {operand : Expr}
    {ref : ColumnRef} (hmem : operand ∈ operands) (href : ref ∈ operand.columns) :
    ref ∈ (Expr.operation operator operands).columns := by
  rw [columns]
  induction operands with
  | nil => cases hmem
  | cons first others ih =>
      rw [columnsAll, List.mem_append]
      rcases List.mem_cons.1 hmem with rfl | hother
      · exact .inl href
      · exact .inr (ih hother)

/-! ## Checked operands -/

theorem operandsFault?_eq_none {operator : Operator} {operands : List Expr} {start : Nat}
    (h : operandsFault? operator start operands = none) {index : Nat} {operand : Expr}
    (hoperand : operands[index]? = some operand) :
    operandFault? operator (start + index) operand = none := by
  induction operands generalizing start index with
  | nil => cases hoperand
  | cons first others ih =>
      rw [operandsFault?] at h
      split at h
      · cases h
      · rename_i hfirst
        cases index with
        | zero =>
            obtain rfl : first = operand := Option.some.inj hoperand
            exact hfirst
        | succ index =>
            have hrest := ih h hoperand
            rw [Nat.add_right_comm] at hrest
            exact hrest

theorem applicationFault?_eq_none {operator : Operator} {operands : List Expr}
    (h : applicationFault? operator operands = none) :
    operator.contract.admits operands.length = true ∧
      ∀ (index : Nat) (operand : Expr) (slot : Slot), operands[index]? = some operand →
        operator.contract.slotAt index = some slot → slot.accepts operand.tag = true := by
  rw [applicationFault?] at h
  split at h
  · rename_i hadmits
    refine ⟨hadmits, ?_⟩
    intro index operand slot hoperand hslot
    have hnone := operandsFault?_eq_none h hoperand
    rw [Nat.zero_add, operandFault?, hslot, Option.filter_some] at hnone
    cases haccepts : slot.accepts operand.tag with
    | true => rfl
    | false => simp [haccepts] at hnone
  · cases h

theorem isEmptyList_of_applicationFault? {operator : Operator} {operands : List Expr}
    (h : applicationFault? operator operands = none) :
    ∀ operand ∈ operands, operand.isEmptyList = false := by
  intro operand hmem
  obtain ⟨index, hoperand⟩ := List.getElem?_of_mem hmem
  rw [applicationFault?, if_pos (applicationFault?_eq_none h).1] at h
  have hnone := operandsFault?_eq_none h hoperand
  rw [operandFault?] at hnone
  split at hnone
  · cases hnone
  · cases hempty : operand.isEmptyList with
    | false => rfl
    | true => simp [hempty] at hnone

theorem tag_of_isEmptyList {e : Expr} (h : e.isEmptyList = true) : e.tag = .valueList := by
  unfold isEmptyList at h
  split at h
  · rfl
  · cases h

theorem operandFault?_json {operator : Operator} {index : Nat} {name : String}
    (hslot : operator.contract.slotAt index = some (.json name)) (e : Expr) :
    operandFault? operator index e =
      if e.tag.fits .json then none else some (.operandTag operator (.json name) e.tag) := by
  have haccepts : (Slot.json name).accepts e.tag = e.tag.fits .json := by
    simp [Slot.accepts, Slot.json]
  rw [operandFault?, hslot, Option.filter_some, haccepts]
  cases hfits : e.tag.fits .json with
  | false => rfl
  | true =>
      cases hlist : e.isEmptyList with
      | false => rfl
      | true =>
          rw [tag_of_isEmptyList hlist] at hfits
          cases hfits

end Expr

end JsonbAlgebra
