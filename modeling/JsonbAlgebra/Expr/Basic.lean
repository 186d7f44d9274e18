import JsonbAlgebra.Column
import JsonbAlgebra.Constant

/-!
# Expressions

An expression is a column, a constant, or an operator over operands.  The
constructor of operations takes anything; `Expr.apply` is the checked way to
build one, and an expression is well formed when every operation in it would
pass that check.
-/

namespace JsonbAlgebra

inductive Expr where
  | column (ref : ColumnRef)
  | constant (constant : Constant)
  | operation (operator : Operator) (operands : List Expr)

namespace Expr

mutual

def tag : Expr → Tag
  | .column ref => ref.type.tag
  | .constant value => value.tag
  | .operation operator operands => operator.contract.resultTag (tags operands)

def tags : List Expr → List Tag
  | [] => []
  | operand :: operands => tag operand :: tags operands

end

def ofColumn (column : Column) : Expr :=
  .column column.ref

def ofDocument (value : Document) : Expr :=
  .constant (.untyped value)

/-- The type that a column or a constant is declared with. -/
def declared? : Expr → Option SqlType
  | .column ref => some ref.type
  | .constant value => value.declared
  | .operation .. => none

def isEmptyList : Expr → Bool
  | .constant ⟨.list [], _⟩ => true
  | _ => false

/-- What keeps an operand from standing at an index of an operator: a tag its
slot does not accept, or a value list without values. -/
def operandFault? (operator : Operator) (index : Nat) (operand : Expr) : Option Fault :=
  match (operator.contract.slotAt index).filter fun slot => !slot.accepts operand.tag with
  | some slot => some (.operandTag operator slot operand.tag)
  | none => if operand.isEmptyList then some (.emptyValueList operator) else none

/-- The first fault among operands, from an index on. -/
def operandsFault? (operator : Operator) : Nat → List Expr → Option Fault
  | _, [] => none
  | index, operand :: operands =>
    match operandFault? operator index operand with
    | some fault => some fault
    | none => operandsFault? operator (index + 1) operands

/-- What keeps an operator from being applied to operands: their number, and
then the first operand that cannot stand where it does. -/
def applicationFault? (operator : Operator) (operands : List Expr) : Option Fault :=
  if operator.contract.admits operands.length then operandsFault? operator 0 operands
  else some (.arity operator operands.length)

def apply (operator : Operator) (operands : List Expr) : Except Fault Expr :=
  match applicationFault? operator operands with
  | some fault => .error fault
  | none => .ok (.operation operator operands)

mutual

/-- Every operation passes the check of `apply`. -/
def WellFormed : Expr → Prop
  | .column _ => True
  | .constant _ => True
  | .operation operator operands =>
    applicationFault? operator operands = none ∧ AllWellFormed operands

def AllWellFormed : List Expr → Prop
  | [] => True
  | operand :: operands => WellFormed operand ∧ AllWellFormed operands

end

mutual

/-- Whether two expressions are the same tree with the same leaves. -/
def same : Expr → Expr → Bool
  | .column a, .column b => a == b
  | .constant a, .constant b => a.same b
  | .operation f as, .operation g bs => f == g && sameAll as bs
  | _, _ => false

def sameAll : List Expr → List Expr → Bool
  | [], [] => true
  | a :: as, b :: bs => same a b && sameAll as bs
  | _, _ => false

end

theorem tags_eq_map (operands : List Expr) : tags operands = operands.map tag := by
  induction operands with
  | nil => rfl
  | cons operand operands ih => simp [tags, ih]

theorem apply_eq_ok_iff {operator : Operator} {operands : List Expr} {e : Expr} :
    apply operator operands = .ok e ↔
      applicationFault? operator operands = none ∧ e = .operation operator operands := by
  unfold apply
  split
  · rename_i fault h
    simp [h]
  · rename_i h
    simp only [Except.ok.injEq, h, true_and]
    exact eq_comm

/-- Applying an operator to well-formed operands gives a well-formed
expression. -/
theorem WellFormed.apply {operator : Operator} {operands : List Expr} {e : Expr}
    (hoperands : AllWellFormed operands) (h : Expr.apply operator operands = .ok e) :
    e.WellFormed := by
  obtain ⟨hfault, rfl⟩ := apply_eq_ok_iff.1 h
  exact ⟨hfault, hoperands⟩

end Expr

end JsonbAlgebra
