import JsonbAlgebra.Evaluation.Strict
import JsonbAlgebra.Expr.Basic

/-!
# Evaluation

The value of an expression on a row, with three truth values.  Every operator
is given the results of all its operands, failures among them.  A strict
operator fails with the first of them that is a failure; logic, membership,
case distinction and coalescence look at the results one after another and
never at those behind the one that settles the value.
-/

namespace JsonbAlgebra

abbrev Outcome :=
  Except EvaluationFault Datum

/-- All values, or the first failure. -/
def Outcome.collect : List Outcome → Except EvaluationFault (List Datum)
  | [] => .ok []
  | result :: results => do
    let value ← result
    let values ← collect results
    return value :: values

namespace Operator

/-- A conjunction is settled by a false operand and a disjunction by a true
one.  If none settles it, an unknown operand makes it unknown. -/
def junction (decisive : Bool) : List Outcome → Except EvaluationFault (Option Bool)
  | [] => .ok (some !decisive)
  | result :: results => do
    match ← (← result).truth? with
    | some truth => if truth = decisive then return some decisive else junction decisive results
    | none =>
      let rest ← junction decisive results
      return if rest = some decisive then some decisive else none

def firstPresent : List Outcome → Outcome
  | [] => .ok .null
  | result :: results => do
    let value ← result
    if value.isNull then firstPresent results else return value

/-- Whether a datum equals one of some alternatives; if it equals none, an
alternative that is NULL makes that unknown. -/
def membership (declared : Option SqlType) (subject : Datum) :
    List Document → Except EvaluationFault (Option Bool)
  | [] => .ok (some false)
  | value :: values => do
    let candidate ← Datum.ofScalar declared value
    if candidate.isNull then
      let rest ← membership declared subject values
      return if rest = some true then some true else none
    else if ← subject.equal candidate then return some true
    else membership declared subject values

/-- The value of membership in the alternatives of an operand. -/
def inAlternatives (subject : Outcome) : Expr → Outcome
  | .constant ⟨.list values, declared⟩ => do
    let subject ← subject
    if subject.isNull then return .null
    else (membership declared subject values).map .ofTruth
  | _ => .error .missingValueList

/-- The entries of an object from keys and values in turn. -/
def entries : List Datum → Except EvaluationFault (List (String × Document))
  | key :: value :: rest =>
    if key.isNull then .error .nullKey
    else (entries rest).map ((key.plainText, value.toDocument) :: ·)
  | _ => .ok []

def objectOf (values : List Datum) : Outcome :=
  if values.length % 2 = 0 then
    (entries values).map fun pairs => .json (.object (Keyed.ofList pairs))
  else .error .unpairedKey

/-- The value of membership, over the result of the subject and the
alternatives. -/
def memberOf (operands : List Expr) (results : List Outcome) : Outcome :=
  match operands, results with
  | [_, alternatives], [subject, _] => inAlternatives subject alternatives
  | _, _ => .error (.operandCount .inList)

/-- The branch that a condition chooses; an unknown one chooses the second. -/
def choose : List Outcome → Outcome
  | [condition, value, otherwise] => do
    if (← (← condition).truth?) = some true then value else otherwise
  | _ => .error (.operandCount .caseWhen)

/-- Whether the only value is NULL, as against expected. -/
def nullCheck (operator : Operator) (expected : Bool) (results : List Outcome) :
    Outcome := do
  match ← Outcome.collect results with
  | [value] => return .boolean (value.isNull == expected)
  | _ => throw (.operandCount operator)

/-- The value of an operator over its operands, of which the results are
given. -/
def evaluate (operator : Operator) (operands : List Expr) (results : List Outcome) :
    Outcome :=
  match operator with
  | .and => (junction false results).map .ofTruth
  | .or => (junction true results).map .ofTruth
  | .inList => memberOf operands results
  | .coalesce => firstPresent results
  | .caseWhen => choose results
  | .isNull => nullCheck .isNull true results
  | .isNotNull => nullCheck .isNotNull false results
  | .buildObject => do objectOf (← Outcome.collect results)
  | operator => do
    let values ← Outcome.collect results
    if values.any Datum.isNull then return .null else operator.strict values

end Operator

namespace Expr

mutual

def evaluate (row : Row) : Expr → Outcome
  | .column ref => .ok (row ref.path)
  | .constant value => value.datum
  | .operation operator operands => operator.evaluate operands (evaluateAll row operands)

def evaluateAll (row : Row) : List Expr → List Outcome
  | [] => []
  | operand :: operands => evaluate row operand :: evaluateAll row operands

end

/-- The truth value of a condition on a row. -/
def truth (row : Row) (condition : Expr) : Except EvaluationFault (Option Bool) := do
  (← condition.evaluate row).truth?

/-- Whether a filter keeps a row, which an unknown condition does not. -/
def selects (row : Row) (condition : Expr) : Except EvaluationFault Bool :=
  (condition.truth row).map fun truth => truth = some true

theorem evaluateAll_eq_map (row : Row) (operands : List Expr) :
    evaluateAll row operands = operands.map (evaluate row) := by
  induction operands with
  | nil => rfl
  | cons operand operands ih => simp [evaluateAll, ih]

end Expr

end JsonbAlgebra
