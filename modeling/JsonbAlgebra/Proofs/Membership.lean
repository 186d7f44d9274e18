import JsonbAlgebra.Proofs.ConditionBuilding
import JsonbAlgebra.Proofs.StepwiseNavigation

/-!
# Membership as a disjunction

Membership goes through its alternatives on its own: it takes the datum of each, keeps
in mind that one was NULL, and stops at the first that equals the subject or cannot be
compared with it.  Each of these is one step of a disjunction whose operands are the
equalities of the subject with the alternatives as constants.  So membership and the
disjunction agree on every list of alternatives, failures included.
-/

namespace JsonbAlgebra

namespace Operator

open Kleene

/-- Whether a datum that is not NULL equals an alternative. -/
def verdict (declared : Option SqlType) (subject : Datum) (value : Document) :
    Except EvaluationFault (Option Bool) := do
  let candidate ← Datum.ofScalar declared value
  if candidate.isNull then return none
  else (subject.equal candidate).map some

theorem membership_cons (declared : Option SqlType) (subject : Datum) (value : Document)
    (values : List Document) :
    membership declared subject (value :: values) =
      settle true (verdict declared subject value) (membership declared subject values) := by
  rw [membership, verdict]
  cases Datum.ofScalar declared value with
  | error fault => rfl
  | ok candidate =>
      simp only [bind, Except.bind]
      cases hnull : candidate.isNull with
      | true =>
          simp only [if_true, pure, Except.pure]
          rw [settle_of_ne _ _ (by simp)]
          cases membership declared subject values with
          | error fault => rfl
          | ok rest => simp [Except.map, connective_unknown]
      | false =>
          cases subject.equal candidate with
          | error fault => rfl
          | ok same =>
              cases same with
              | true => simp [Except.map, pure, Except.pure]
              | false =>
                  simp only [Except.map, Bool.false_eq_true, if_false]
                  exact (undecided_settle true _).symm

end Operator

namespace Expr

open Kleene

variable {row : Row}

/-- The equality of a subject with an alternative. -/
def equality (subject : Expr) (declared : Option SqlType) (value : Document) : Expr :=
  .operation .eq [subject, .constant ⟨.scalar value, declared⟩]

/-- The disjunction of the equalities of a subject with some alternatives.  A single
equality stands for itself. -/
def equalities (subject : Expr) (declared : Option SqlType) : List Document → Expr
  | [value] => subject.equality declared value
  | values => .operation .or (values.map (subject.equality declared))

def equalsAny (subject : Expr) (declared : Option SqlType) (values : List Document) :
    Except Fault Expr := do
  let conditions ← values.mapM fun value =>
    equals subject (.constant ⟨.scalar value, declared⟩)
  match conditions with
  | [single] => return single
  | several => anyOf several

/-- A subject is in a list of alternatives of a type. -/
def isAmong (subject : Expr) (declared : Option SqlType) (values : List Document) :
    Except Fault Expr :=
  apply .inList [subject, .constant ⟨.list values, declared⟩]

/-! ## Building -/

theorem isAmong_of_single {subject : Expr} (hsubject : subject.isEmptyList = false)
    {values : List Document} (hvalues : values ≠ []) (declared : Option SqlType) :
    subject.isAmong declared values =
      .ok (.operation .inList [subject, .constant ⟨.list values, declared⟩]) := by
  have hfirst := operandFault?_any (rfl : Operator.inList.contract.slotAt 0 = _) subject
  have hsecond : operandFault? .inList 1 (.constant ⟨.list values, declared⟩) = none := by
    cases values with
    | nil => exact absurd rfl hvalues
    | cons value values => rfl
  refine apply_of_admits rfl ?_
  simp [operandsFault?, hfirst, hsubject, hsecond]

theorem equalsAny_of_single {subject : Expr} (hsubject : subject.isEmptyList = false)
    {values : List Document} (hvalues : values ≠ []) (declared : Option SqlType) :
    subject.equalsAny declared values = .ok (subject.equalities declared values) := by
  have hconditions : (values.mapM fun value =>
      equals subject (.constant ⟨.scalar value, declared⟩)) =
        .ok (values.map (subject.equality declared)) := by
    refine mapM_eq_ok.2 (List.forall₂_map_right_iff.2 (List.forall₂_same.2 ?_))
    intro value _
    exact equals_of_single hsubject rfl
  have htags : ∀ condition ∈ values.map (subject.equality declared), condition.tag = .boolean := by
    intro condition hmem
    obtain ⟨value, -, rfl⟩ := List.mem_map.1 hmem
    rfl
  rw [equalsAny, hconditions]
  match values with
  | [] => exact absurd rfl hvalues
  | [value] => rfl
  | first :: second :: others => exact apply_junctor true (by simp) htags

/-! ## Evaluating -/

theorem evaluate_equality {subject : Expr} {datum : Datum}
    (hsubject : subject.evaluate row = .ok datum) (hpresent : datum.isNull = false)
    (declared : Option SqlType) (value : Document) :
    (subject.equality declared value).evaluate row =
      (Operator.verdict declared datum value).map .ofTruth := by
  have hconstant : (Expr.constant ⟨.scalar value, declared⟩).evaluate row =
      Datum.ofScalar declared value := rfl
  rw [equality, evaluate, evaluateAll, evaluateAll, evaluateAll,
    Operator.evaluate_of_isStrict_pair rfl, hsubject, hconstant, Operator.verdict]
  cases Datum.ofScalar declared value with
  | error fault => rfl
  | ok candidate =>
      simp only [bind, Except.bind, hpresent, Bool.false_or, Operator.strict]
      cases candidate.isNull with
      | true => rfl
      | false => cases datum.equal candidate <;> rfl

theorem evaluate_equality_null {subject : Expr} (hsubject : subject.evaluate row = .ok .null)
    {declared : Option SqlType} {value : Document} {candidate : Datum}
    (hvalue : (Expr.constant ⟨.scalar value, declared⟩).evaluate row = .ok candidate) :
    (subject.equality declared value).evaluate row = .ok .null := by
  rw [equality, evaluate, evaluateAll, evaluateAll, evaluateAll,
    Operator.evaluate_of_isStrict_pair rfl, hsubject, hvalue]
  rfl

theorem truth_equalities {subject : Expr} {datum : Datum}
    (hsubject : subject.evaluate row = .ok datum) (hpresent : datum.isNull = false)
    (declared : Option SqlType) (values : List Document) :
    (operation (.junctor true) (values.map (subject.equality declared))).truth row =
      Operator.membership declared datum values := by
  induction values with
  | nil => exact truth_junction_nil true
  | cons value values ih =>
      rw [List.map_cons, truth_junction_cons, ih, Operator.membership_cons,
        truth_of_evaluate (evaluate_equality hsubject hpresent declared value)]

theorem evaluate_isAmong {subject : Expr} {datum : Datum}
    (hsubject : subject.evaluate row = .ok datum) (declared : Option SqlType)
    (values : List Document) :
    (operation .inList [subject, .constant ⟨.list values, declared⟩]).evaluate row =
      if datum.isNull then .ok .null
      else (Operator.membership declared datum values).map .ofTruth := by
  have hmember :
      (operation .inList [subject, .constant ⟨.list values, declared⟩]).evaluate row =
        subject.evaluate row >>= fun datum =>
          if datum.isNull then .ok .null
          else (Operator.membership declared datum values).map .ofTruth := rfl
  rw [hmember, hsubject]
  rfl

theorem evaluate_equalities {subject : Expr} {datum : Datum}
    (hsubject : subject.evaluate row = .ok datum) (hpresent : datum.isNull = false)
    (declared : Option SqlType) (values : List Document) :
    (subject.equalities declared values).evaluate row =
      (Operator.membership declared datum values).map .ofTruth := by
  have htruth := truth_equalities hsubject hpresent declared
  unfold equalities
  split
  · rename_i value
    rw [← htruth [value], List.map_singleton, truth_junction_singleton,
      truth_of_evaluate (evaluate_equality hsubject hpresent declared value),
      evaluate_equality hsubject hpresent declared value]
  · rw [← htruth]
    exact evaluate_junction true _

/-- NULL equals no alternative and differs from none. -/
theorem truth_equalities_null {subject : Expr} (hsubject : subject.evaluate row = .ok .null)
    {declared : Option SqlType} {values : List Document}
    (hvalues : ∀ value ∈ values, ∃ candidate,
      (Expr.constant ⟨.scalar value, declared⟩).evaluate row = .ok candidate) :
    (operation (.junctor true) (values.map (subject.equality declared))).truth row =
      .ok (if values = [] then some false else none) := by
  induction values with
  | nil => exact truth_junction_nil true
  | cons value values ih =>
      obtain ⟨⟨candidate, hcandidate⟩, hothers⟩ := List.forall_mem_cons.1 hvalues
      have hfirst : (subject.equality declared value).truth row = .ok none :=
        truth_eq_ok_iff.2 (evaluate_equality_null hsubject hcandidate)
      rw [List.map_cons, truth_junction_cons, ih hothers, hfirst, settle_ok,
        if_neg (List.cons_ne_nil value values)]
      split <;> rfl

theorem evaluate_equalities_null {subject : Expr} (hsubject : subject.evaluate row = .ok .null)
    {declared : Option SqlType} {values : List Document} (hne : values ≠ [])
    (hvalues : ∀ value ∈ values, ∃ candidate,
      (Expr.constant ⟨.scalar value, declared⟩).evaluate row = .ok candidate) :
    (subject.equalities declared values).evaluate row = .ok .null := by
  have htruth := truth_equalities_null hsubject hvalues
  rw [if_neg hne] at htruth
  unfold equalities
  split
  · rename_i value
    obtain ⟨candidate, hcandidate⟩ := hvalues value List.mem_cons_self
    exact evaluate_equality_null hsubject hcandidate
  · exact truth_eq_ok_iff.1 htruth

/-- Membership in alternatives of any type has the value of the disjunction of the equalities
with them, failures included, if the subject is not NULL.  If it is NULL so is membership,
and so is the disjunction where every alternative has a value. -/
theorem membership_is_disjunction {subject : Expr} {row : Row} {datum : Datum}
    (hsubject : subject.evaluate row = .ok datum) {values : List Document} (hne : values ≠ [])
    (declared : Option SqlType) :
    (datum.isNull = false →
      EvaluateAlike row (subject.isAmong declared values) (subject.equalsAny declared values)) ∧
    (datum.isNull = true →
      ∃ among disjunction, subject.isAmong declared values = .ok among ∧
        subject.equalsAny declared values = .ok disjunction ∧
        among.evaluate row = .ok .null ∧
        ((∀ value ∈ values, ∃ candidate,
            (Expr.constant ⟨.scalar value, declared⟩).evaluate row = .ok candidate) →
          disjunction.evaluate row = .ok .null)) := by
  have hsingle := isEmptyList_of_evaluate hsubject
  have hamong := isAmong_of_single hsingle hne declared
  have hany := equalsAny_of_single hsingle hne declared
  have hevaluate := evaluate_isAmong hsubject declared values
  refine ⟨?_, ?_⟩
  · intro hpresent
    refine ⟨_, _, hamong, hany, ?_⟩
    rw [hevaluate, hpresent, evaluate_equalities hsubject hpresent]
    rfl
  · intro hnull
    obtain rfl : datum = .null := by
      cases datum with
      | null => rfl
      | _ => cases hnull
    exact ⟨_, _, hamong, hany, hevaluate, evaluate_equalities_null hsubject hne⟩

/-- A NULL among the alternatives before the one that is equal, and one behind it that has
no value of the type; a subject that is NULL. -/
theorem membership_is_disjunction_around_null :
    let subject : Expr := .column ⟨none, ["n"], .integer⟩
    let five : Row := fun _ => .integer 5
    let missing : Row := fun _ => .null
    EvaluateAlike five (subject.isAmong (some .integer) [.null, .string "5", .string "x"])
        (subject.equalsAny (some .integer) [.null, .string "5", .string "x"]) ∧
      ∃ among disjunction, subject.isAmong (some .integer) [.null, .string "5"] = .ok among ∧
        subject.equalsAny (some .integer) [.null, .string "5"] = .ok disjunction ∧
        among.evaluate missing = .ok .null ∧ disjunction.evaluate missing = .ok .null := by
  intro subject five missing
  have hfive : subject.evaluate five = .ok (.integer 5) := rfl
  have hmissing : subject.evaluate missing = .ok .null := rfl
  refine ⟨?_, ?_⟩
  · exact (membership_is_disjunction hfive (List.cons_ne_nil _ _) (some .integer)).1 rfl
  · have hvalues : ∀ value ∈ [Document.null, .string "5"], ∃ candidate,
        (Expr.constant ⟨.scalar value, some .integer⟩).evaluate missing = .ok candidate := by
      simp only [List.forall_mem_cons]
      exact ⟨⟨.null, rfl⟩, ⟨.integer 5, rfl⟩, by simp⟩
    obtain ⟨among, disjunction, hamong, hany, hnull, hdisjunction⟩ :=
      (membership_is_disjunction hmissing (List.cons_ne_nil _ _) (some .integer)).2 rfl
    exact ⟨among, disjunction, hamong, hany, hnull, hdisjunction hvalues⟩

end Expr

end JsonbAlgebra
