import Mathlib.Data.Fintype.Option
import Mathlib.Data.List.Perm.Basic
import JsonbAlgebra.Proofs.TagSoundness

/-!
# Three-valued logic

A conjunction and a disjunction look at their operands from left to right and stop
at the first that settles the value or has none.  What one operand adds to those
behind it is one step (`Kleene.settle`), and the step is associative and goes
through negation, with all that can fail.  So De Morgan's laws and the flattening
of nested operations hold for failures as they do for values.

If all operands have a truth value, the order of the steps does not matter, and
the value is the one of the Kleene tables.
-/

namespace JsonbAlgebra

/-! ## Truth values -/

namespace Kleene

def conj : Option Bool → Option Bool → Option Bool
  | some false, _ => some false
  | _, some false => some false
  | some true, some true => some true
  | _, _ => none

def disj : Option Bool → Option Bool → Option Bool
  | some true, _ => some true
  | _, some true => some true
  | some false, some false => some false
  | _, _ => none

def not : Option Bool → Option Bool :=
  Option.map fun truth => !truth

/-- The connective that a truth value settles. -/
def connective : Bool → Option Bool → Option Bool → Option Bool
  | false => conj
  | true => disj

theorem connective_assoc : ∀ (decisive : Bool) (first second third : Option Bool),
    connective decisive (connective decisive first second) third =
      connective decisive first (connective decisive second third) := by
  decide

theorem connective_left_comm : ∀ (decisive : Bool) (first second third : Option Bool),
    connective decisive first (connective decisive second third) =
      connective decisive second (connective decisive first third) := by
  decide

theorem connective_eq_decisive_iff : ∀ (decisive : Bool) (first second : Option Bool),
    connective decisive first second = some decisive ↔
      first = some decisive ∨ second = some decisive := by
  decide

theorem connective_decisive : ∀ (decisive : Bool) (second : Option Bool),
    connective decisive (some decisive) second = some decisive := by
  decide

theorem connective_unknown : ∀ (decisive : Bool) (second : Option Bool),
    connective decisive none second =
      if second = some decisive then some decisive else none := by
  decide

theorem connective_undecided : ∀ (decisive : Bool) (truth : Option Bool),
    connective decisive truth (some !decisive) = truth ∧
      connective decisive (some !decisive) truth = truth := by
  decide

theorem not_connective : ∀ (decisive : Bool) (first second : Option Bool),
    not (connective decisive first second) = connective (!decisive) (not first) (not second) := by
  decide

theorem not_eq_some_iff : ∀ (decisive : Bool) (truth : Option Bool),
    not truth = some (!decisive) ↔ truth = some decisive := by
  decide

instance (decisive : Bool) : LeftCommutative (connective decisive) :=
  ⟨connective_left_comm decisive⟩

/-! ## One step -/

/-- Two truth values, of which the second is not asked for where the first settles
the connective. -/
def settle (decisive : Bool) (first second : Except EvaluationFault (Option Bool)) :
    Except EvaluationFault (Option Bool) := do
  let truth ← first
  if truth = some decisive then return some decisive
  else second.map (connective decisive truth)

variable (decisive : Bool) (first second third : Except EvaluationFault (Option Bool))

@[simp] theorem settle_error (fault : EvaluationFault) :
    settle decisive (.error fault) second = .error fault :=
  rfl

@[simp] theorem settle_decisive :
    settle decisive (.ok (some decisive)) second = .ok (some decisive) := by
  simp [settle, bind, Except.bind, pure, Except.pure]

theorem settle_of_ne {truth : Option Bool} (h : truth ≠ some decisive) :
    settle decisive (.ok truth) second = second.map (connective decisive truth) := by
  simp [settle, bind, Except.bind, h]

theorem settle_ok (truth other : Option Bool) :
    settle decisive (.ok truth) (.ok other) = .ok (connective decisive truth other) := by
  by_cases h : truth = some decisive
  · rw [h, settle_decisive, connective_decisive]
  · rw [settle_of_ne _ _ h]
    rfl

theorem settle_undecided : settle decisive first (.ok (some !decisive)) = first := by
  cases first with
  | error fault => rfl
  | ok truth => rw [settle_ok, (connective_undecided decisive truth).1]

theorem undecided_settle : settle decisive (.ok (some !decisive)) second = second := by
  cases second with
  | error fault => cases decisive <;> rfl
  | ok truth => rw [settle_ok, (connective_undecided decisive truth).2]

theorem settle_assoc :
    settle decisive (settle decisive first second) third =
      settle decisive first (settle decisive second third) := by
  cases first with
  | error fault => rfl
  | ok truth =>
      by_cases htruth : truth = some decisive
      · simp [htruth]
      rw [settle_of_ne _ _ htruth, settle_of_ne _ _ htruth]
      cases second with
      | error fault => rfl
      | ok other =>
          by_cases hother : other = some decisive
          · have hsettled : connective decisive truth (some decisive) = some decisive :=
              (connective_eq_decisive_iff ..).2 (.inr rfl)
            simp [hother, Except.map, hsettled]
          · have hopen : connective decisive truth other ≠ some decisive := by
              simp [connective_eq_decisive_iff, htruth, hother]
            rw [Except.map, settle_of_ne _ _ hopen, settle_of_ne _ _ hother]
            cases third with
            | error fault => rfl
            | ok last => simp [Except.map, connective_assoc]

theorem map_not_settle :
    (settle decisive first second).map not =
      settle (!decisive) (first.map not) (second.map not) := by
  cases first with
  | error fault => rfl
  | ok truth =>
      by_cases h : truth = some decisive
      · have hnot := (not_eq_some_iff decisive truth).2 h
        simp [h ▸ hnot, h, Except.map]
      · have hnot : not truth ≠ some (!decisive) := by
          simpa [not_eq_some_iff] using h
        rw [settle_of_ne _ _ h, Except.map, settle_of_ne _ _ hnot]
        cases second with
        | error fault => rfl
        | ok other => simp [Except.map, not_connective]

end Kleene

namespace Datum

@[simp] theorem truth?_ofTruth (truth : Option Bool) : (ofTruth truth).truth? = .ok truth := by
  cases truth <;> rfl

theorem truth?_eq_ok_iff {datum : Datum} {truth : Option Bool} :
    datum.truth? = .ok truth ↔ datum = .ofTruth truth := by
  constructor
  · intro h
    cases datum <;> cases h <;> rfl
  · rintro rfl
    exact truth?_ofTruth truth

end Datum

namespace Operator

open Kleene

/-- The operator whose value a truth value settles. -/
def junctor : Bool → Operator
  | false => .and
  | true => .or

theorem junction_cons (decisive : Bool) (result : Outcome) (results : List Outcome) :
    junction decisive (result :: results) =
      settle decisive (result >>= Datum.truth?) (junction decisive results) := by
  rw [junction]
  cases result with
  | error fault => rfl
  | ok datum =>
      cases htruth : datum.truth? with
      | error fault => simp [bind, Except.bind, htruth]
      | ok truth =>
          simp only [bind, Except.bind, htruth]
          cases truth with
          | none =>
              rw [settle_of_ne _ _ (by simp)]
              cases junction decisive results with
              | error fault => rfl
              | ok rest => simp [Except.map, pure, Except.pure, connective_unknown]
          | some truth =>
              by_cases h : truth = decisive
              · simp [h, pure, Except.pure]
              · obtain rfl : truth = !decisive := Bool.eq_not.2 h
                simp [undecided_settle]

theorem firstPresent_append (results others : List Outcome) :
    firstPresent (results ++ others) =
      firstPresent results >>= fun datum =>
        if datum.isNull then firstPresent others else .ok datum := by
  induction results with
  | nil => rfl
  | cons result results ih =>
      rw [List.cons_append, firstPresent, firstPresent, ih]
      cases result with
      | error fault => rfl
      | ok datum =>
          cases hnull : datum.isNull <;> simp [bind, Except.bind, pure, Except.pure, hnull]

theorem firstPresent_singleton (result : Outcome) : firstPresent [result] = result := by
  cases result with
  | error fault => rfl
  | ok datum => cases datum <;> rfl

end Operator

namespace Expr

open Kleene

variable {row : Row}

/-- A condition that cannot be evaluated, or whose value is neither a boolean nor NULL. -/
def Fails (row : Row) (condition : Expr) : Prop :=
  ∀ truth, condition.evaluate row ≠ .ok (.ofTruth truth)

/-- An operand before which none fails. -/
def Reached (row : Row) (operands : List Expr) (operand : Expr) : Prop :=
  ∃ early late, operands = early ++ operand :: late ∧ ∀ other ∈ early, ¬other.Fails row

theorem truth_eq_ok_iff {e : Expr} {truth : Option Bool} :
    e.truth row = .ok truth ↔ e.evaluate row = .ok (.ofTruth truth) := by
  rw [Expr.truth, bind_eq_ok]
  simp [Datum.truth?_eq_ok_iff]

theorem evaluate_eq_boolean_iff {e : Expr} {truth : Bool} :
    e.evaluate row = .ok (.boolean truth) ↔ e.truth row = .ok (some truth) := by
  rw [truth_eq_ok_iff]
  rfl

theorem truth_of_evaluate {e : Expr} {result : Except EvaluationFault (Option Bool)}
    (h : e.evaluate row = result.map .ofTruth) : e.truth row = result := by
  rw [Expr.truth, h]
  cases result with
  | error fault => rfl
  | ok truth => exact Datum.truth?_ofTruth truth

theorem fails_iff {condition : Expr} :
    condition.Fails row ↔ ∃ fault, condition.truth row = .error fault := by
  simp only [Fails, ne_eq, ← truth_eq_ok_iff]
  cases condition.truth row <;> simp

/-! ## Negation -/

def negation (condition : Expr) : Expr :=
  .operation .not [condition]

theorem evaluate_negation (condition : Expr) :
    (negation condition).evaluate row =
      ((condition.truth row).map Kleene.not).map .ofTruth := by
  rw [negation, evaluate, Operator.evaluate_of_isStrict rfl, evaluateAll, evaluateAll, Expr.truth]
  cases condition.evaluate row with
  | error fault => rfl
  | ok datum => cases datum <;> rfl

theorem truth_negation (condition : Expr) :
    (negation condition).truth row = (condition.truth row).map Kleene.not :=
  truth_of_evaluate (evaluate_negation condition)

/-- Inequality of two data is the negation of their equality. -/
theorem strict_ne (first second : Datum) :
    Operator.strict .ne [first, second] =
      (Operator.strict .eq [first, second] >>= Datum.truth?).map
        fun truth => .ofTruth (Kleene.not truth) := by
  simp only [Operator.strict]
  cases first.equal second <;> rfl

theorem evaluate_ne (left right : Expr) :
    (operation .ne [left, right]).evaluate row =
      (negation (operation .eq [left, right])).evaluate row := by
  rw [evaluate_negation, Expr.truth, evaluate, evaluate]
  simp only [evaluateAll]
  rw [Operator.evaluate_of_isStrict_pair rfl, Operator.evaluate_of_isStrict_pair rfl]
  cases left.evaluate row with
  | error fault => rfl
  | ok first =>
      cases right.evaluate row with
      | error fault => rfl
      | ok second =>
          simp only [bind, Except.bind]
          split
          · rfl
          · rw [strict_ne]
            cases Operator.strict .eq [first, second] with
            | error fault => rfl
            | ok datum => cases datum <;> rfl

/-! ## Junctions -/

theorem evaluate_junction_results (decisive : Bool) (operands : List Expr) :
    (operation (.junctor decisive) operands).evaluate row =
      (Operator.junction decisive (evaluateAll row operands)).map .ofTruth := by
  cases decisive <;> rfl

theorem truth_junction (decisive : Bool) (operands : List Expr) :
    (operation (.junctor decisive) operands).truth row =
      Operator.junction decisive (evaluateAll row operands) :=
  truth_of_evaluate (evaluate_junction_results decisive operands)

theorem evaluate_junction (decisive : Bool) (operands : List Expr) :
    (operation (.junctor decisive) operands).evaluate row =
      ((operation (.junctor decisive) operands).truth row).map .ofTruth := by
  rw [truth_junction, evaluate_junction_results]

theorem truth_junction_nil (decisive : Bool) :
    (operation (.junctor decisive) []).truth row = .ok (some !decisive) :=
  truth_junction decisive []

theorem truth_junction_cons (decisive : Bool) (operand : Expr) (operands : List Expr) :
    (operation (.junctor decisive) (operand :: operands)).truth row =
      settle decisive (operand.truth row) ((operation (.junctor decisive) operands).truth row) := by
  rw [truth_junction, evaluateAll, Operator.junction_cons, truth_junction]
  rfl

theorem truth_junction_singleton (decisive : Bool) (operand : Expr) :
    (operation (.junctor decisive) [operand]).truth row = operand.truth row := by
  rw [truth_junction_cons, truth_junction_nil, settle_undecided]

theorem truth_junction_append (decisive : Bool) (operands others : List Expr) :
    (operation (.junctor decisive) (operands ++ others)).truth row =
      settle decisive ((operation (.junctor decisive) operands).truth row)
        ((operation (.junctor decisive) others).truth row) := by
  induction operands with
  | nil => rw [List.nil_append, truth_junction_nil, undecided_settle]
  | cons operand operands ih =>
      rw [List.cons_append, truth_junction_cons, truth_junction_cons, ih, settle_assoc]

/-- De Morgan's laws. -/
theorem truth_negation_junction (decisive : Bool) (operands : List Expr) :
    (negation (operation (.junctor decisive) operands)).truth row =
      (operation (.junctor !decisive) (operands.map negation)).truth row := by
  rw [truth_negation]
  induction operands with
  | nil =>
      rw [List.map_nil, truth_junction_nil, truth_junction_nil]
      rfl
  | cons operand operands ih =>
      rw [List.map_cons, truth_junction_cons, truth_junction_cons, map_not_settle, ih,
        truth_negation]

theorem evaluate_negation_junction (decisive : Bool) (operands : List Expr) :
    (negation (operation (.junctor decisive) operands)).evaluate row =
      (operation (.junctor !decisive) (operands.map negation)).evaluate row := by
  rw [evaluate_negation, ← truth_negation, truth_negation_junction, ← evaluate_junction]

theorem evaluate_junction_nested (decisive : Bool) (before inner after : List Expr) :
    (operation (.junctor decisive)
        (before ++ [operation (.junctor decisive) inner] ++ after)).evaluate row =
      (operation (.junctor decisive) (before ++ inner ++ after)).evaluate row := by
  simp only [evaluate_junction, truth_junction_append, truth_junction_singleton]

/-! ## Operands with a truth value -/

theorem truth_junction_of_truths (decisive : Bool) {operands : List Expr}
    {truths : List (Option Bool)}
    (h : List.Forall₂ (fun operand truth => operand.truth row = .ok truth) operands truths) :
    (operation (.junctor decisive) operands).truth row =
      .ok (truths.foldr (connective decisive) (some !decisive)) := by
  induction h with
  | nil => exact truth_junction_nil decisive
  | cons hfirst _ ih => rw [truth_junction_cons, hfirst, ih, settle_ok, List.foldr_cons]

theorem evaluate_junction_of_truths (decisive : Bool) {operands : List Expr}
    {truths : List (Option Bool)}
    (h : List.Forall₂ (fun operand truth => operand.truth row = .ok truth) operands truths) :
    (operation (.junctor decisive) operands).evaluate row =
      .ok (.ofTruth (truths.foldr (connective decisive) (some !decisive))) := by
  rw [evaluate_junction, truth_junction_of_truths decisive h]
  rfl

theorem evaluate_junction_perm (decisive : Bool) {operands others : List Expr}
    {truths : List (Option Bool)}
    (h : List.Forall₂ (fun operand truth => operand.truth row = .ok truth) operands truths)
    (hperm : others.Perm operands) :
    (operation (.junctor decisive) others).evaluate row =
      (operation (.junctor decisive) operands).evaluate row := by
  obtain ⟨reordered, hothers, htruths⟩ := List.perm_comp_forall₂ hperm h
  rw [evaluate_junction_of_truths decisive h, evaluate_junction_of_truths decisive hothers,
    htruths.foldr_eq]

/-! ## Operands that fail -/

theorem not_reached_nil (operand : Expr) : ¬Reached row [] operand := by
  rintro ⟨early, late, heq, -⟩
  simp at heq

theorem reached_cons_iff {first operand : Expr} {operands : List Expr} :
    Reached row (first :: operands) operand ↔
      operand = first ∨ ¬first.Fails row ∧ Reached row operands operand := by
  constructor
  · rintro ⟨early, late, heq, hearly⟩
    cases early with
    | nil => exact .inl (List.cons.inj heq).1.symm
    | cons other early =>
        obtain ⟨rfl, rfl⟩ := List.cons.inj heq
        obtain ⟨hfirst, hothers⟩ := List.forall_mem_cons.1 hearly
        exact .inr ⟨hfirst, early, late, rfl, hothers⟩
  · rintro (rfl | ⟨hfirst, early, late, rfl, hearly⟩)
    · exact ⟨[], operands, rfl, by simp⟩
    · exact ⟨first :: early, late, rfl, List.forall_mem_cons.2 ⟨hfirst, hearly⟩⟩

/-- Of the operands that fail, one is reached. -/
theorem exists_reached_fails {operands : List Expr}
    (h : ∃ operand ∈ operands, operand.Fails row) :
    ∃ operand, Reached row operands operand ∧ operand.Fails row := by
  induction operands with
  | nil => simp at h
  | cons first operands ih =>
      by_cases hfirst : first.Fails row
      · exact ⟨first, reached_cons_iff.2 (.inl rfl), hfirst⟩
      · have hothers : ∃ operand ∈ operands, operand.Fails row := by
          simpa [hfirst] using h
        obtain ⟨operand, hreached, hfails⟩ := ih hothers
        exact ⟨operand, reached_cons_iff.2 (.inr ⟨hfirst, hreached⟩), hfails⟩

/-- What settles a junction is the first operand that is decisive, unless one fails before. -/
theorem truth_junction_eq_decisive_iff (decisive : Bool) (operands : List Expr) :
    (operation (.junctor decisive) operands).truth row = .ok (some decisive) ↔
      ∃ operand, Reached row operands operand ∧ operand.truth row = .ok (some decisive) := by
  induction operands with
  | nil => simp [truth_junction_nil, not_reached_nil]
  | cons first operands ih =>
      rw [truth_junction_cons]
      simp only [reached_cons_iff, or_and_right, exists_or, exists_eq_left]
      cases hfirst : first.truth row with
      | error fault => simp [fails_iff, hfirst]
      | ok truth =>
          by_cases hdecisive : truth = some decisive
          · simp [hdecisive]
          · have hpasses : ¬first.Fails row := by
              simp [fails_iff, hfirst]
            simp [settle_of_ne _ _ hdecisive, map_eq_ok, connective_eq_decisive_iff, hdecisive,
              hpasses, ih]

theorem truth_junction_of_reached (decisive : Bool) {operands : List Expr} {failing : Expr}
    {fault : EvaluationFault} (hreached : Reached row operands failing)
    (hfault : failing.truth row = .error fault)
    (hopen : (operation (.junctor decisive) operands).truth row ≠ .ok (some decisive)) :
    (operation (.junctor decisive) operands).truth row = .error fault := by
  induction operands with
  | nil => exact absurd hreached (not_reached_nil failing)
  | cons first operands ih =>
      rw [truth_junction_cons] at hopen ⊢
      rcases reached_cons_iff.1 hreached with rfl | ⟨hfirst, hothers⟩
      · rw [hfault, settle_error]
      · cases htruth : first.truth row with
        | error other => exact absurd (fails_iff.2 ⟨other, htruth⟩) hfirst
        | ok truth =>
            rw [htruth] at hopen
            by_cases hdecisive : truth = some decisive
            · simp [hdecisive] at hopen
            · rw [settle_of_ne _ _ hdecisive] at hopen ⊢
              rw [ih hothers, Except.map]
              intro hsettled
              simp [hsettled, Except.map, connective_eq_decisive_iff] at hopen

theorem exists_evaluate_junction_eq_error (decisive : Bool) {operands : List Expr}
    (hfails : ∃ operand ∈ operands, operand.Fails row)
    (hopen : (operation (.junctor decisive) operands).evaluate row ≠ .ok (.boolean decisive)) :
    ∃ failing fault, Reached row operands failing ∧ failing.truth row = .error fault ∧
      (operation (.junctor decisive) operands).evaluate row = .error fault := by
  obtain ⟨failing, hreached, hfailing⟩ := exists_reached_fails hfails
  obtain ⟨fault, hfault⟩ := fails_iff.1 hfailing
  rw [Ne, evaluate_eq_boolean_iff] at hopen
  refine ⟨failing, fault, hreached, hfault, ?_⟩
  rw [evaluate_junction, truth_junction_of_reached decisive hreached hfault hopen]
  rfl

/-! ## Coalescence -/

theorem evaluate_coalesce (operands : List Expr) :
    (operation .coalesce operands).evaluate row =
      Operator.firstPresent (evaluateAll row operands) :=
  rfl

theorem evaluateAll_append (operands others : List Expr) :
    evaluateAll row (operands ++ others) = evaluateAll row operands ++ evaluateAll row others := by
  simp [evaluateAll_eq_map]

theorem evaluate_coalesce_singleton (operand : Expr) :
    (operation .coalesce [operand]).evaluate row = operand.evaluate row :=
  Operator.firstPresent_singleton (operand.evaluate row)

theorem evaluate_coalesce_append (operands others : List Expr) :
    (operation .coalesce (operands ++ others)).evaluate row =
      (operation .coalesce operands).evaluate row >>= fun datum =>
        if datum.isNull then (operation .coalesce others).evaluate row else .ok datum := by
  simp only [evaluate_coalesce, evaluateAll_append, Operator.firstPresent_append]

theorem evaluate_coalesce_nested (before inner after : List Expr) :
    (operation .coalesce (before ++ [operation .coalesce inner] ++ after)).evaluate row =
      (operation .coalesce (before ++ inner ++ after)).evaluate row := by
  simp only [evaluate_coalesce_append, evaluate_coalesce_singleton]

/-- The laws of three-valued logic on every row.  Exactly, failures included: De Morgan's
laws, nested operations are flat ones, and inequality is negated equality.  Where every
operand is a boolean or NULL: the value is the one of the Kleene tables, in every order of
the operands.  Otherwise: a junction is settled by a decisive operand before which none
fails, and if there is none it fails as the first operand does that fails. -/
theorem three_valued_laws (row : Row) :
    (∀ operands,
      (negation (operation .and operands)).evaluate row =
          (operation .or (operands.map negation)).evaluate row ∧
        (negation (operation .or operands)).evaluate row =
          (operation .and (operands.map negation)).evaluate row) ∧
    (∀ operator ∈ [Operator.and, .or, .coalesce], ∀ before inner after,
      (operation operator (before ++ [operation operator inner] ++ after)).evaluate row =
        (operation operator (before ++ inner ++ after)).evaluate row) ∧
    (∀ left right,
      (operation .ne [left, right]).evaluate row =
        (negation (operation .eq [left, right])).evaluate row) ∧
    (∀ operands truths,
      List.Forall₂ (fun operand truth => operand.evaluate row = .ok (.ofTruth truth))
          operands truths →
        (operation .and operands).evaluate row =
            .ok (.ofTruth (truths.foldr Kleene.conj (some true))) ∧
          (operation .or operands).evaluate row =
            .ok (.ofTruth (truths.foldr Kleene.disj (some false))) ∧
          ∀ others, others.Perm operands →
            (operation .and others).evaluate row = (operation .and operands).evaluate row ∧
              (operation .or others).evaluate row = (operation .or operands).evaluate row) ∧
    ∀ decisive operands,
      ((operation (.junctor decisive) operands).evaluate row = .ok (.boolean decisive) ↔
        ∃ operand, Reached row operands operand ∧
          operand.evaluate row = .ok (.boolean decisive)) ∧
      ((∃ operand ∈ operands, operand.Fails row) →
        (operation (.junctor decisive) operands).evaluate row ≠ .ok (.boolean decisive) →
          ∃ failing fault, Reached row operands failing ∧ failing.truth row = .error fault ∧
            (operation (.junctor decisive) operands).evaluate row = .error fault) := by
  refine ⟨?_, ?_, evaluate_ne, ?_, ?_⟩
  · intro operands
    exact ⟨evaluate_negation_junction false operands, evaluate_negation_junction true operands⟩
  · intro operator hmem
    simp only [List.mem_cons, List.not_mem_nil, or_false] at hmem
    rcases hmem with rfl | rfl | rfl
    · exact evaluate_junction_nested false
    · exact evaluate_junction_nested true
    · exact evaluate_coalesce_nested
  · intro operands truths h
    have htruths : List.Forall₂ (fun operand truth => operand.truth row = .ok truth)
        operands truths := h.imp fun _ _ => truth_eq_ok_iff.2
    refine ⟨?_, ?_, ?_⟩
    · exact evaluate_junction_of_truths false htruths
    · exact evaluate_junction_of_truths true htruths
    · intro others hperm
      exact ⟨evaluate_junction_perm false htruths hperm, evaluate_junction_perm true htruths hperm⟩
  · intro decisive operands
    refine ⟨?_, exists_evaluate_junction_eq_error decisive⟩
    simp only [evaluate_eq_boolean_iff]
    exact truth_junction_eq_decisive_iff decisive operands

/-- A false operand settles a conjunction before a failing one and not behind it; with
NULL alone it settles it on either side. -/
theorem three_valued_laws_around_failure :
    let row : Row := fun _ => .null
    let no := ofDocument (.boolean false)
    let unknown := ofDocument .null
    let failing := operation .size [ofDocument (.object [])]
    ((operation .and [unknown, no]).evaluate row = .ok (.boolean false) ∧
      (operation .and [no, unknown]).evaluate row = (operation .and [unknown, no]).evaluate row) ∧
    (operation .and [unknown, no, failing]).evaluate row = .ok (.boolean false) ∧
    ∃ fault, (operation .and [unknown, failing, no]).evaluate row = .error fault := by
  intro row no unknown failing
  obtain ⟨-, -, -, hkleene, hjunction⟩ := three_valued_laws row
  have hpasses : ¬unknown.Fails row := fun h => h none rfl
  have hfails : failing.Fails row := by
    intro truth h
    cases h
  refine ⟨?_, ?_, ?_⟩
  · have htruths : List.Forall₂ (fun operand truth => operand.evaluate row = .ok (.ofTruth truth))
        [unknown, no] [none, some false] := .cons rfl (.cons rfl .nil)
    obtain ⟨hand, -, hperm⟩ := hkleene _ _ htruths
    exact ⟨hand, (hperm [no, unknown] (.swap ..)).1⟩
  · exact (hjunction false [unknown, no, failing]).1.2
      ⟨no, ⟨[unknown], [failing], rfl, by simpa using hpasses⟩, rfl⟩
  · have hmem : ∃ operand ∈ [unknown, failing, no], operand.Fails row :=
      ⟨failing, by simp, hfails⟩
    have hopen : (operation .and [unknown, failing, no]).evaluate row ≠ .ok (.boolean false) := by
      intro h
      cases h
    obtain ⟨-, fault, -, -, herror⟩ := (hjunction false [unknown, failing, no]).2 hmem hopen
    exact ⟨fault, herror⟩

end Expr

end JsonbAlgebra
