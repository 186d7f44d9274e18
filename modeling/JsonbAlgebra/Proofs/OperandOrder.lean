import JsonbAlgebra.Proofs.ThreeValuedLogic

/-!
# The order of operands

A database may take the operands of a conjunction and of a disjunction in any order, and
it may go on behind an operand that settles the value.  A run is an evaluation of an
expression under this freedom, which every junction uses at every place as it likes; the
evaluator's own order makes one of the runs.  All other operators look at their operands
as they always do, so a choice still evaluates only the branch that is chosen.

The freedom costs values but never changes them: two runs of one expression that both
have a value have the same value.
-/

namespace JsonbAlgebra

/-! ## Values without regard to failures -/

/-- Two computations that have the same value if both have one. -/
def Concordant {α : Type} (first second : Except EvaluationFault α) : Prop :=
  ∀ a b, first = .ok a → second = .ok b → a = b

/-- A computation has a value, or fails in one of some ways. -/
def Barring {α : Type} (faults : EvaluationFault → Prop) (x : Except EvaluationFault α)
    (a : α) : Prop :=
  x = .ok a ∨ ∃ fault, faults fault ∧ x = .error fault

section

variable {α β : Type} {x y : Except EvaluationFault α} {f g : α → Except EvaluationFault β}

theorem Concordant.refl (x : Except EvaluationFault α) : Concordant x x := by
  intro a b ha hb
  exact Except.ok.inj (ha.symm.trans hb)

theorem Concordant.of_error {fault : EvaluationFault} (h : x = .error fault)
    (y : Except EvaluationFault α) : Concordant x y := by
  subst h
  exact nofun

theorem Concordant.bind (h : Concordant x y) (hf : ∀ a, Concordant (f a) (g a)) :
    Concordant (x >>= f) (y >>= g) := by
  intro b b' hb hb'
  obtain ⟨a, ha, hb⟩ := bind_eq_ok.1 hb
  obtain ⟨a', ha', hb'⟩ := bind_eq_ok.1 hb'
  obtain rfl := h a a' ha ha'
  exact hf a b b' hb hb'

theorem Concordant.map (h : Concordant x y) (f : α → β) : Concordant (x.map f) (y.map f) := by
  intro b b' hb hb'
  obtain ⟨a, ha, rfl⟩ := map_eq_ok.1 hb
  obtain ⟨a', ha', rfl⟩ := map_eq_ok.1 hb'
  rw [h a a' ha ha']

variable {faults : EvaluationFault → Prop} {a : α} {b : β}

theorem Barring.bind (h : Barring faults x a) (hf : Barring faults (f a) b) :
    Barring faults (x >>= f) b := by
  rcases h with rfl | ⟨fault, hfault, rfl⟩
  · exact hf
  · exact .inr ⟨fault, hfault, rfl⟩

theorem Barring.map (h : Barring faults x a) (f : α → β) : Barring faults (x.map f) (f a) := by
  rcases h with rfl | ⟨fault, hfault, rfl⟩
  · exact .inl rfl
  · exact .inr ⟨fault, hfault, rfl⟩

end

/-! ## One junction -/

namespace Operator

open Kleene

/-- The truth value of a junction that asks for every operand. -/
def jointly (decisive : Bool) : List Outcome → Except EvaluationFault (Option Bool)
  | [] => .ok (some !decisive)
  | result :: results => do
    let truth ← result >>= Datum.truth?
    (jointly decisive results).map (connective decisive truth)

/-- What a junction may give over the results of its operands.  They are asked for in some
order, either all of them or none behind the first that settles the value. -/
def JunctionYields (decisive : Bool) (results : List Outcome)
    (truth : Except EvaluationFault (Option Bool)) : Prop :=
  ∃ order, order.Perm results ∧
    (truth = junction decisive order ∨ truth = jointly decisive order)

/-- What an operator may give over its operands with some results. -/
def Yields : Operator → List Expr → List Outcome → Outcome → Prop
  | .and, _, results, outcome =>
    ∃ truth, JunctionYields false results truth ∧ outcome = truth.map .ofTruth
  | .or, _, results, outcome =>
    ∃ truth, JunctionYields true results truth ∧ outcome = truth.map .ofTruth
  | operator, operands, results, outcome => outcome = operator.evaluate operands results

theorem yields_evaluate (operator : Operator) (operands : List Expr) (results : List Outcome) :
    operator.Yields operands results (operator.evaluate operands results) := by
  cases operator with
  | and => exact ⟨_, ⟨results, .refl results, .inl rfl⟩, rfl⟩
  | or => exact ⟨_, ⟨results, .refl results, .inl rfl⟩, rfl⟩
  | _ => rfl

theorem yields_junctor {decisive : Bool} {operands : List Expr} {results : List Outcome}
    {outcome : Outcome} :
    (junctor decisive).Yields operands results outcome ↔
      ∃ truth, JunctionYields decisive results truth ∧ outcome = truth.map .ofTruth := by
  cases decisive <;> rfl

/-- An operator that looks at its operands in their own order. -/
theorem yields_of_ne {operator : Operator} (h : ∀ decisive, operator ≠ junctor decisive)
    {operands : List Expr} {results : List Outcome} {outcome : Outcome} :
    operator.Yields operands results outcome ↔
      outcome = operator.evaluate operands results := by
  cases operator with
  | and => exact absurd rfl (h false)
  | or => exact absurd rfl (h true)
  | _ => rfl

/-- A truth value of a junction that its operands account for: one of them settles it, or
all of them have truth values that make it up. -/
def Accounted (decisive : Bool) (results : List Outcome) (truth : Option Bool) : Prop :=
  (truth = some decisive ∧ ∃ result ∈ results, (result >>= Datum.truth?) = .ok (some decisive)) ∨
    ∃ truths, List.Forall₂ (fun result truth => (result >>= Datum.truth?) = .ok truth)
      results truths ∧ truth = truths.foldr (connective decisive) (some !decisive)

theorem Accounted.cons {decisive : Bool} {result : Outcome} {results : List Outcome}
    {first truth : Option Bool} (hfirst : (result >>= Datum.truth?) = .ok first)
    (h : Accounted decisive results truth) :
    Accounted decisive (result :: results) (connective decisive first truth) := by
  rcases h with ⟨rfl, settling, hmem, hsettles⟩ | ⟨truths, htruths, rfl⟩
  · refine .inl ⟨(connective_eq_decisive_iff ..).2 (.inr rfl), settling, ?_, hsettles⟩
    exact List.mem_cons_of_mem result hmem
  · exact .inr ⟨first :: truths, .cons hfirst htruths, rfl⟩

theorem Accounted.perm {decisive : Bool} {order results : List Outcome} {truth : Option Bool}
    (hperm : order.Perm results) (h : Accounted decisive order truth) :
    Accounted decisive results truth := by
  rcases h with ⟨rfl, settling, hmem, hsettles⟩ | ⟨truths, htruths, rfl⟩
  · exact .inl ⟨rfl, settling, hperm.mem_iff.1 hmem, hsettles⟩
  · obtain ⟨others, hothers, hsame⟩ := List.perm_comp_forall₂ hperm.symm htruths
    exact .inr ⟨others, hothers, hsame.symm.foldr_eq _⟩

theorem accounted_junction {decisive : Bool} {results : List Outcome} {truth : Option Bool}
    (h : junction decisive results = .ok truth) : Accounted decisive results truth := by
  induction results generalizing truth with
  | nil =>
      cases h
      exact .inr ⟨[], .nil, rfl⟩
  | cons result results ih =>
      rw [junction_cons] at h
      cases hfirst : result >>= Datum.truth? with
      | error fault => simp [hfirst] at h
      | ok first =>
          rw [hfirst] at h
          by_cases hdecisive : first = some decisive
          · obtain rfl : some decisive = truth := by simpa [hdecisive] using h
            exact .inl ⟨rfl, result, List.mem_cons_self, hdecisive ▸ hfirst⟩
          · rw [settle_of_ne _ _ hdecisive] at h
            obtain ⟨rest, hrest, rfl⟩ := map_eq_ok.1 h
            exact (ih hrest).cons hfirst

theorem accounted_jointly {decisive : Bool} {results : List Outcome} {truth : Option Bool}
    (h : jointly decisive results = .ok truth) : Accounted decisive results truth := by
  induction results generalizing truth with
  | nil =>
      cases h
      exact .inr ⟨[], .nil, rfl⟩
  | cons result results ih =>
      obtain ⟨first, hfirst, h⟩ := bind_eq_ok.1 h
      obtain ⟨rest, hrest, rfl⟩ := map_eq_ok.1 h
      exact (ih hrest).cons hfirst

theorem JunctionYields.accounted {decisive : Bool} {results : List Outcome} {truth : Option Bool}
    (h : JunctionYields decisive results (.ok truth)) : Accounted decisive results truth := by
  obtain ⟨order, hperm, hvalue | hvalue⟩ := h
  · exact (accounted_junction hvalue.symm).perm hperm
  · exact (accounted_jointly hvalue.symm).perm hperm

theorem mem_of_junction_eq_error {decisive : Bool} {results : List Outcome}
    {fault : EvaluationFault} (h : junction decisive results = .error fault) :
    ∃ result ∈ results, (result >>= Datum.truth?) = .error fault := by
  induction results with
  | nil => cases h
  | cons result results ih =>
      rw [junction_cons] at h
      cases hfirst : result >>= Datum.truth? with
      | error other =>
          rw [hfirst, settle_error] at h
          exact ⟨result, List.mem_cons_self, hfirst.trans h⟩
      | ok first =>
          rw [hfirst] at h
          by_cases hdecisive : first = some decisive
          · simp [hdecisive] at h
          · rw [settle_of_ne _ _ hdecisive, map_eq_error] at h
            obtain ⟨failing, hmem, hfails⟩ := ih h
            exact ⟨failing, List.mem_cons_of_mem result hmem, hfails⟩

theorem mem_of_jointly_eq_error {decisive : Bool} {results : List Outcome}
    {fault : EvaluationFault} (h : jointly decisive results = .error fault) :
    ∃ result ∈ results, (result >>= Datum.truth?) = .error fault := by
  induction results with
  | nil => cases h
  | cons result results ih =>
      obtain hfirst | ⟨first, -, hrest⟩ := bind_eq_error.1 h
      · exact ⟨result, List.mem_cons_self, hfirst⟩
      · obtain ⟨failing, hmem, hfails⟩ := ih (map_eq_error.1 hrest)
        exact ⟨failing, List.mem_cons_of_mem result hmem, hfails⟩

/-- A junction fails only as one of its operands does. -/
theorem JunctionYields.mem_of_error {decisive : Bool} {results : List Outcome}
    {fault : EvaluationFault} (h : JunctionYields decisive results (.error fault)) :
    ∃ result ∈ results, (result >>= Datum.truth?) = .error fault := by
  obtain ⟨order, hperm, hvalue | hvalue⟩ := h
  · obtain ⟨result, hmem, hfails⟩ := mem_of_junction_eq_error hvalue.symm
    exact ⟨result, hperm.mem_iff.1 hmem, hfails⟩
  · obtain ⟨result, hmem, hfails⟩ := mem_of_jointly_eq_error hvalue.symm
    exact ⟨result, hperm.mem_iff.1 hmem, hfails⟩

/-! ## One value for all orders -/

/-- Two lists of results whose truth values agree where both have one. -/
def SameTruths (results others : List Outcome) : Prop :=
  List.Forall₂ (fun result other => Concordant (result >>= Datum.truth?) (other >>= Datum.truth?))
    results others

theorem SameTruths.symm {results others : List Outcome} (h : SameTruths results others) :
    SameTruths others results :=
  h.flip.imp fun _ _ hsame a b ha hb => (hsame b a hb ha).symm

theorem SameTruths.foldr_of_settled {decisive : Bool} {results others : List Outcome}
    (h : SameTruths results others) {truths : List (Option Bool)}
    (hsettled : ∃ result ∈ results, (result >>= Datum.truth?) = .ok (some decisive))
    (htruths : List.Forall₂ (fun other truth => (other >>= Datum.truth?) = .ok truth)
      others truths) :
    truths.foldr (connective decisive) (some !decisive) = some decisive := by
  induction h generalizing truths with
  | nil => simp at hsettled
  | cons hfirst _ ih =>
      obtain ⟨result, hmem, hsettles⟩ := hsettled
      cases htruths with
      | cons hother htruths =>
          rw [List.foldr_cons, connective_eq_decisive_iff]
          rcases List.mem_cons.1 hmem with rfl | hmem
          · exact .inl (hfirst _ _ hsettles hother).symm
          · exact .inr (ih ⟨result, hmem, hsettles⟩ htruths)

theorem SameTruths.truths_unique {results others : List Outcome} (h : SameTruths results others)
    {truths otherTruths : List (Option Bool)}
    (htruths : List.Forall₂ (fun result truth => (result >>= Datum.truth?) = .ok truth)
      results truths)
    (hothers : List.Forall₂ (fun other truth => (other >>= Datum.truth?) = .ok truth)
      others otherTruths) : truths = otherTruths := by
  induction h generalizing truths otherTruths with
  | nil =>
      cases htruths
      cases hothers
      rfl
  | cons hfirst _ ih =>
      cases htruths with
      | cons htruth htruths =>
          cases hothers with
          | cons hother hothers =>
              rw [hfirst _ _ htruth hother, ih htruths hothers]

theorem Accounted.eq_foldr {decisive : Bool} {results others : List Outcome}
    {truth : Option Bool} (h : Accounted decisive results truth)
    (hsame : SameTruths results others) {truths : List (Option Bool)}
    (htruths : List.Forall₂ (fun other truth => (other >>= Datum.truth?) = .ok truth)
      others truths) :
    truth = truths.foldr (connective decisive) (some !decisive) := by
  rcases h with ⟨rfl, hsettled⟩ | ⟨own, hown, rfl⟩
  · exact (hsame.foldr_of_settled hsettled htruths).symm
  · rw [hsame.truths_unique hown htruths]

theorem Accounted.unique {decisive : Bool} {results others : List Outcome}
    {truth other : Option Bool} (h : Accounted decisive results truth)
    (h' : Accounted decisive others other) (hsame : SameTruths results others) :
    truth = other := by
  rcases h' with ⟨rfl, hsettled⟩ | ⟨truths, htruths, rfl⟩
  · rcases h with ⟨rfl, -⟩ | ⟨truths, htruths, rfl⟩
    · rfl
    · exact hsame.symm.foldr_of_settled hsettled htruths
  · exact h.eq_foldr hsame htruths

theorem JunctionYields.barring {decisive : Bool} {faults : EvaluationFault → Prop}
    {results : List Outcome} {truths : List (Option Bool)}
    {value : Except EvaluationFault (Option Bool)} (h : JunctionYields decisive results value)
    (hresults : List.Forall₂ (fun result truth => Barring faults result (.ofTruth truth))
      results truths) :
    Barring faults value (truths.foldr (connective decisive) (some !decisive)) := by
  cases value with
  | ok truth =>
      -- The results are compared with those that the truth values stand for.
      have hsame : SameTruths results (truths.map fun truth => .ok (.ofTruth truth)) := by
        refine List.forall₂_map_right_iff.2 (hresults.imp ?_)
        rintro result truth (rfl | ⟨fault, -, rfl⟩)
        · exact .refl _
        · exact .of_error rfl _
      have htruths : List.Forall₂ (fun other truth => (other >>= Datum.truth?) = .ok truth)
          (truths.map fun truth => (.ok (.ofTruth truth) : Outcome)) truths := by
        refine List.forall₂_map_left_iff.2 (List.forall₂_same.2 ?_)
        exact fun truth _ => Datum.truth?_ofTruth truth
      exact .inl (congrArg _ (h.accounted.eq_foldr hsame htruths))
  | error fault =>
      have hmembers : ∀ result ∈ results, ∃ truth, Barring faults result (.ofTruth truth) :=
        forall_mem_of_forall₂ (hresults.flip.imp fun truth _ hresult => ⟨truth, hresult⟩)
      obtain ⟨result, hmem, hfails⟩ := h.mem_of_error
      obtain ⟨truth, rfl | ⟨other, hother, rfl⟩⟩ := hmembers result hmem
      · exact absurd ((Datum.truth?_ofTruth truth).symm.trans hfails) nofun
      · cases hfails
        exact .inr ⟨fault, hother, rfl⟩

theorem collect_barring {faults : EvaluationFault → Prop} {results : List Outcome}
    {data : List Datum} (h : List.Forall₂ (Barring faults) results data) :
    Barring faults (Outcome.collect results) data := by
  induction h with
  | nil => exact .inl rfl
  | cons hfirst _ ih => exact hfirst.bind (ih.bind (.inl rfl))

theorem collect_concordant {results others : List Outcome}
    (h : List.Forall₂ Concordant results others) :
    Concordant (Outcome.collect results) (Outcome.collect others) := by
  induction h with
  | nil => exact .refl _
  | cons hfirst _ ih =>
      exact hfirst.bind fun value => ih.bind fun values => .refl _

theorem firstPresent_concordant {results others : List Outcome}
    (h : List.Forall₂ Concordant results others) :
    Concordant (firstPresent results) (firstPresent others) := by
  induction h with
  | nil => exact .refl _
  | cons hfirst _ ih =>
      refine hfirst.bind fun value => ?_
      split
      · exact ih
      · exact .refl _

theorem choose_concordant {results others : List Outcome}
    (h : List.Forall₂ Concordant results others) :
    Concordant (choose results) (choose others) := by
  unfold choose
  split
  · obtain _ | ⟨hcondition, _ | ⟨hvalue, _ | ⟨hotherwise, _ | _⟩⟩⟩ := h
    refine hcondition.bind fun condition => Concordant.bind (.refl _) fun truth => ?_
    split
    · exact hvalue
    · exact hotherwise
  · exact .of_error rfl _

theorem inAlternatives_concordant {subject other : Outcome} (h : Concordant subject other)
    (alternatives : Expr) :
    Concordant (inAlternatives subject alternatives) (inAlternatives other alternatives) := by
  unfold inAlternatives
  split
  · exact h.bind fun _ => .refl _
  · exact .refl _

theorem memberOf_concordant (operands : List Expr) {results others : List Outcome}
    (h : List.Forall₂ Concordant results others) :
    Concordant (memberOf operands results) (memberOf operands others) := by
  unfold memberOf
  split
  · obtain _ | ⟨hsubject, _ | ⟨-, _ | _⟩⟩ := h
    exact inAlternatives_concordant hsubject _
  · exact .of_error rfl _

theorem evaluate_concordant {operator : Operator} (hjunctor : ∀ decisive, operator ≠ junctor decisive)
    (operands : List Expr) {results others : List Outcome}
    (h : List.Forall₂ Concordant results others) :
    Concordant (operator.evaluate operands results) (operator.evaluate operands others) := by
  have hcollect := collect_concordant h
  cases hstrict : operator.isStrict with
  | true =>
      rw [evaluate_of_isStrict hstrict, evaluate_of_isStrict hstrict]
      exact hcollect.bind fun values => .refl _
  | false =>
      cases operator with
      | and => exact absurd rfl (hjunctor false)
      | or => exact absurd rfl (hjunctor true)
      | inList => exact memberOf_concordant operands h
      | coalesce => exact firstPresent_concordant h
      | caseWhen => exact choose_concordant h
      | isNull => exact hcollect.bind fun values => .refl _
      | isNotNull => exact hcollect.bind fun values => .refl _
      | buildObject => exact hcollect.bind fun values => .refl _
      | _ => cases hstrict

end Operator

/-! ## Runs -/

namespace Expr

/-- A run of an expression on a row.  An expression that is kept is evaluated as it stands. -/
inductive Runs (row : Row) (kept : Expr → Prop) : Expr → Outcome → Prop
  | kept {e : Expr} : kept e → Runs row kept e (e.evaluate row)
  | column (ref : ColumnRef) : Runs row kept (.column ref) (.ok (row ref.path))
  | constant (value : Constant) : Runs row kept (.constant value) value.datum
  | operation {operator : Operator} {operands : List Expr} {results : List Outcome}
      {outcome : Outcome} :
      ¬kept (.operation operator operands) →
      List.Forall₂ (Runs row kept) operands results →
      operator.Yields operands results outcome →
      Runs row kept (.operation operator operands) outcome

variable {row : Row} {kept : Expr → Prop}

theorem forall₂_evaluateAll {R : Expr → Outcome → Prop} {operands : List Expr} :
    List.Forall₂ R operands (evaluateAll row operands) ↔
      ∀ operand ∈ operands, R operand (operand.evaluate row) := by
  rw [evaluateAll_eq_map, List.forall₂_map_right_iff, List.forall₂_same]

theorem runs_evaluate (row : Row) (kept : Expr → Prop) (e : Expr) :
    Runs row kept e (e.evaluate row) := by
  induction e with
  | column ref => exact .column ref
  | constant value => exact .constant value
  | operation operator operands ih =>
      by_cases hkept : kept (.operation operator operands)
      · exact .kept hkept
      · have hresults := forall₂_evaluateAll.2 ih
        exact .operation hkept hresults (Operator.yields_evaluate operator operands _)

theorem Runs.results {operator : Operator} {operands : List Expr} {outcome : Outcome}
    (h : Runs row kept (.operation operator operands) outcome) :
    ∃ results, List.Forall₂ (Runs row kept) operands results ∧
      operator.Yields operands results outcome := by
  cases h with
  | kept _ =>
      have hresults : List.Forall₂ (Runs row kept) operands (evaluateAll row operands) :=
        forall₂_evaluateAll.2 fun operand _ => runs_evaluate row kept operand
      exact ⟨_, hresults, Operator.yields_evaluate operator operands _⟩
  | operation _ hresults hyields => exact ⟨_, hresults, hyields⟩

theorem Runs.of_kept {e : Expr} {outcome : Outcome} (h : Runs row kept e outcome)
    (hkept : kept e) : outcome = e.evaluate row := by
  cases h with
  | operation hnot _ _ => exact absurd hkept hnot
  | _ => rfl

theorem concordant_of_runs {operands : List Expr} {results others : List Outcome}
    (h : List.Forall₂ (Runs row kept) operands results)
    (h' : List.Forall₂ (Runs row kept) operands others)
    (hrun : ∀ operand ∈ operands, ∀ result other, Runs row kept operand result →
      Runs row kept operand other → Concordant result other) :
    List.Forall₂ Concordant results others := by
  induction h generalizing others with
  | nil =>
      cases h'
      exact .nil
  | cons hfirst _ ih =>
      cases h' with
      | cons hfirst' hothers =>
          obtain ⟨hrunFirst, hrunOthers⟩ := List.forall_mem_cons.1 hrun
          exact .cons (hrunFirst _ _ hfirst hfirst') (ih hothers hrunOthers)

/-- Runs that have a value have the same value. -/
theorem Runs.concordant {e : Expr} {outcome other : Outcome} (h : Runs row kept e outcome)
    (h' : Runs row kept e other) : Concordant outcome other := by
  induction e generalizing outcome other with
  | column ref =>
      cases h <;> cases h' <;> exact .refl _
  | constant value =>
      cases h <;> cases h' <;> exact .refl _
  | operation operator operands ih =>
      obtain ⟨results, hresults, hyields⟩ := h.results
      obtain ⟨others, hothers, hyields'⟩ := h'.results
      have hconcordant := concordant_of_runs hresults hothers
        fun operand hmem result other => ih operand hmem
      by_cases hjunctor : ∃ decisive, operator = .junctor decisive
      · obtain ⟨decisive, rfl⟩ := hjunctor
        obtain ⟨truth, htruth, rfl⟩ := Operator.yields_junctor.1 hyields
        obtain ⟨truth', htruth', rfl⟩ := Operator.yields_junctor.1 hyields'
        refine Concordant.map ?_ Datum.ofTruth
        intro a b ha hb
        have hsame : Operator.SameTruths results others :=
          hconcordant.imp fun _ _ h => h.bind fun _ => .refl _
        exact (ha ▸ htruth).accounted.unique (hb ▸ htruth').accounted hsame
      · have hne := not_exists.1 hjunctor
        rw [Operator.yields_of_ne hne] at hyields hyields'
        rw [hyields, hyields']
        exact Operator.evaluate_concordant hne operands hconcordant

/-! ## Steady expressions -/

/-- An expression that has a value in every run that does not fail in one of some ways. -/
def Steady (row : Row) (kept : Expr → Prop) (faults : EvaluationFault → Prop) (e : Expr)
    (datum : Datum) : Prop :=
  ∀ outcome, Runs row kept e outcome → Barring faults outcome datum

namespace Steady

open Kleene

variable {faults : EvaluationFault → Prop}

/-- A value is the same in every run that does not fail. -/
theorem of_evaluate {e : Expr} {datum : Datum} (h : e.evaluate row = .ok datum) :
    Steady row kept (fun fault => Runs row kept e (.error fault)) e datum := by
  intro outcome hrun
  cases outcome with
  | ok other =>
      have hown := runs_evaluate row kept e
      rw [h] at hown
      exact .inl (congrArg _ (hrun.concordant hown _ _ rfl rfl))
  | error fault => exact .inr ⟨fault, hrun, rfl⟩

section Value

variable {value e : Expr} {datum result : Datum} (hvalue : value.evaluate row = .ok datum)
  (h : Steady row (· = value) (fun fault => Runs row (· = value) value (.error fault)) e result)
include hvalue h

/-- A value that is evaluated as it stands, and has a datum so, never fails. -/
theorem eq_ok {outcome : Outcome} (hrun : Runs row (· = value) e outcome) :
    outcome = .ok result := by
  rcases h outcome hrun with hresult | ⟨fault, hfails, -⟩
  · exact hresult
  · exact absurd ((hfails.of_kept rfl).trans hvalue) nofun

theorem evaluate_eq : e.evaluate row = .ok result :=
  eq_ok hvalue h (runs_evaluate row _ e)

end Value

theorem constant {value : Constant} {datum : Datum} (h : value.datum = .ok datum) :
    Steady row kept faults (.constant value) datum := by
  intro outcome hrun
  cases hrun <;> exact .inl h

theorem results {operands : List Expr} {data : List Datum} {results : List Outcome}
    (h : List.Forall₂ (Steady row kept faults) operands data)
    (hresults : List.Forall₂ (Runs row kept) operands results) :
    List.Forall₂ (Barring faults) results data := by
  induction h generalizing results with
  | nil =>
      cases hresults
      exact .nil
  | cons hfirst _ ih =>
      cases hresults with
      | cons hresult hothers => exact .cons (hfirst _ hresult) (ih hothers)

theorem junction (decisive : Bool) {operands : List Expr} {truths : List (Option Bool)}
    (h : List.Forall₂ (Steady row kept faults) operands (truths.map .ofTruth)) :
    Steady row kept faults (.operation (.junctor decisive) operands)
      (.ofTruth (truths.foldr (connective decisive) (some !decisive))) := by
  intro outcome hrun
  obtain ⟨results, hresults, hyields⟩ := hrun.results
  obtain ⟨value, hvalue, rfl⟩ := Operator.yields_junctor.1 hyields
  have hbarring := List.forall₂_map_right_iff.1 (Steady.results h hresults)
  exact (hvalue.barring hbarring).map Datum.ofTruth

theorem junction_pair (decisive : Bool) (first second : Option Bool) {left right : Expr}
    (hleft : Steady row kept faults left (.ofTruth first))
    (hright : Steady row kept faults right (.ofTruth second)) :
    Steady row kept faults (.operation (.junctor decisive) [left, right])
      (.ofTruth (connective decisive first second)) := by
  have hoperands : List.Forall₂ (Steady row kept faults) [left, right]
      ([first, second].map .ofTruth) := .cons hleft (.cons hright .nil)
  have hjoined := junction decisive hoperands
  rwa [List.foldr_cons, List.foldr_cons, List.foldr_nil,
    (connective_undecided decisive second).1] at hjoined

/-- An operator that looks at its operands in their own order. -/
theorem operation {operator : Operator} (hjunctor : ∀ decisive, operator ≠ .junctor decisive)
    {operands : List Expr} {datum : Datum}
    (h : ∀ results, List.Forall₂ (Runs row kept) operands results →
      Barring faults (operator.evaluate operands results) datum) :
    Steady row kept faults (.operation operator operands) datum := by
  intro outcome hrun
  obtain ⟨results, hresults, hyields⟩ := hrun.results
  rw [(Operator.yields_of_ne hjunctor).1 hyields]
  exact h results hresults

theorem strict {operator : Operator} (hstrict : operator.isStrict = true) {operands : List Expr}
    {data : List Datum} (h : List.Forall₂ (Steady row kept faults) operands data)
    {datum : Datum}
    (hdatum : (if data.any Datum.isNull then .ok .null else operator.strict data) = .ok datum) :
    Steady row kept faults (.operation operator operands) datum := by
  refine operation (by rintro (_ | _) rfl <;> cases hstrict) fun results hresults => ?_
  rw [Operator.evaluate_of_isStrict hstrict]
  exact (Operator.collect_barring (Steady.results h hresults)).bind (.inl hdatum)

theorem isNull {operand : Expr} {datum : Datum} (h : Steady row kept faults operand datum) :
    Steady row kept faults (.operation .isNull [operand]) (.boolean datum.isNull) := by
  refine operation (by decide) fun results hresults => ?_
  have hcollect := Operator.collect_barring (Steady.results (.cons h .nil) hresults)
  exact hcollect.bind (.inl (by simp [pure, Except.pure]))

theorem isNotNull {operand : Expr} {datum : Datum} (h : Steady row kept faults operand datum) :
    Steady row kept faults (.operation .isNotNull [operand]) (.boolean !datum.isNull) := by
  refine operation (by decide) fun results hresults => ?_
  have hcollect := Operator.collect_barring (Steady.results (.cons h .nil) hresults)
  exact hcollect.bind (.inl (by simp [pure, Except.pure]))

/-- Nothing is asked of the branch that is not chosen. -/
theorem caseWhen {condition value otherwise : Expr} (truth : Option Bool) {datum : Datum}
    (hcondition : Steady row kept faults condition (.ofTruth truth))
    (hchosen : Steady row kept faults (if truth = some true then value else otherwise) datum) :
    Steady row kept faults (.operation .caseWhen [condition, value, otherwise]) datum := by
  refine operation (by decide) fun results hresults => ?_
  obtain _ | ⟨hrun, _ | ⟨hvalue, _ | ⟨hotherwise, _ | _⟩⟩⟩ := hresults
  have htruth : Barring faults (Datum.truth? (.ofTruth truth)) truth :=
    .inl (Datum.truth?_ofTruth truth)
  refine (hcondition _ hrun).bind (htruth.bind ?_)
  by_cases h : truth = some true
  · rw [if_pos h] at hchosen ⊢
    exact hchosen _ hvalue
  · rw [if_neg h] at hchosen ⊢
    exact hchosen _ hotherwise

end Steady

end Expr

end JsonbAlgebra
