import JsonbAlgebra.Proofs.TagSoundness

/-!
# Where failures come from

Most failures of an operator lie in the data it is given, in their values or in their
kinds.  The others say that the tree is not as it should be, and each of them has one
place: a wrong number of operands, keys without values, and value lists where none
belongs or none where one does.  An operator fails for a reason of its own or passes
the failure of an operand on, so what holds of the failures of all operands and of
these reasons holds of the failures of the operation.
-/

namespace JsonbAlgebra

/-- Faults that lie in the data an operator is given. -/
def EvaluationFault.isOfData : EvaluationFault → Bool
  | .operandCount _ | .unpairedKey | .missingValueList | .strayValueList => false
  | _ => true

theorem EvaluationFault.isOfData_of_isOfValues {fault : EvaluationFault}
    (h : fault.isOfValues = true) : fault.isOfData = true := by
  cases fault <;> first | rfl | cases h

def FailsWith (P : EvaluationFault → Prop) {α : Type} (x : Except EvaluationFault α) : Prop :=
  ∀ fault, x = .error fault → P fault

/-- A computation that fails at most because of its data. -/
abbrev FailsOnData {α : Type} (x : Except EvaluationFault α) : Prop :=
  FailsWith (fun fault => fault.isOfData = true) x

namespace FailsWith

variable {α β : Type} {P Q : EvaluationFault → Prop} {x : Except EvaluationFault α}

theorem ok (a : α) : FailsWith P (.ok a) :=
  nofun

theorem error {fault : EvaluationFault} (h : P fault) :
    FailsWith P (.error fault : Except EvaluationFault α) := by
  rintro _ ⟨⟩
  exact h

theorem bind {f : α → Except EvaluationFault β} (h : FailsWith P x)
    (hf : ∀ a, FailsWith P (f a)) : FailsWith P (x >>= f) := by
  intro fault hfault
  rcases bind_eq_error.1 hfault with hx | ⟨a, -, ha⟩
  · exact h fault hx
  · exact hf a fault ha

theorem map (f : α → β) (h : FailsWith P x) : FailsWith P (x.map f) := by
  intro fault hfault
  exact h fault (map_eq_error.1 hfault)

theorem imp (h : FailsWith P x) (himp : ∀ fault, P fault → Q fault) : FailsWith Q x :=
  fun fault hfault => himp fault (h fault hfault)

end FailsWith

theorem FailsOnData.of_respects {α : Type} {P : α → Prop} {x : Except EvaluationFault α}
    (h : Respects P x) : FailsOnData x := by
  rintro fault rfl
  exact EvaluationFault.isOfData_of_isOfValues h

/-! ## Data -/

theorem Constant.datum_fails {constant : Constant} :
    FailsWith (fun fault => fault.isOfData = true ∨
      fault = .strayValueList ∧ constant.isValueList = true) constant.datum := by
  obtain ⟨literal, declared⟩ := constant
  cases literal with
  | null => exact .ok _
  | scalar value =>
      cases declared with
      | none => exact .ok _
      | some type =>
          exact (FailsOnData.of_respects (Datum.ofTyped_respects type value)).imp fun _ => .inl
  | array items =>
      simp only [datum]
      split <;> exact .ok _
  | list values => exact .error (.inr ⟨rfl, rfl⟩)

namespace Datum

theorem json?_fails (operator : Operator) (datum : Datum) :
    FailsOnData (datum.json? operator) := by
  cases datum <;> first | exact .ok _ | exact .error rfl

theorem text?_fails (operator : Operator) (datum : Datum) :
    FailsOnData (datum.text? operator) := by
  cases datum <;> first | exact .ok _ | exact .error rfl

theorem integer?_fails (operator : Operator) (datum : Datum) :
    FailsOnData (datum.integer? operator) := by
  cases datum <;> first | exact .ok _ | exact .error rfl

theorem path?_fails (operator : Operator) (datum : Datum) :
    FailsOnData (datum.path? operator) := by
  cases datum <;> first | exact .ok _ | exact .error rfl

theorem truth?_fails (datum : Datum) : FailsOnData datum.truth? := by
  cases datum <;> first | exact .ok _ | exact .error rfl

end Datum

namespace Operator

theorem lookup_fails (operator : Operator) (subject key : Datum) :
    FailsOnData (lookup operator subject key) := by
  refine (Datum.json?_fails operator subject).bind fun document => ?_
  split
  case h_6 => exact .error rfl
  all_goals exact .ok _

theorem joined_fails (left right : Datum) : FailsOnData (joined left right) := by
  unfold joined
  split
  case h_3 | h_4 => exact .error rfl
  all_goals exact .ok _

theorem editing_fails (result : Except Document.EditFault Document) :
    FailsOnData (editing result) :=
  .of_respects (editing_respects result)

/-- A strict operator over as many data as it has slots fails at most because of
them. -/
theorem strict_fails (operator : Operator) (values : List Datum) :
    FailsWith (fun fault => fault.isOfData = true ∨ fault = .operandCount operator ∧
      (operator.isStrict = true → values.length ≠ operator.contract.slots.length))
      (operator.strict values) := by
  have hdata : ∀ {α : Type} {x : Except EvaluationFault α}, FailsOnData x →
      FailsWith (fun fault => fault.isOfData = true ∨ fault = .operandCount operator ∧
        (operator.isStrict = true → values.length ≠ operator.contract.slots.length)) x :=
    fun h => h.imp fun _ => .inl
  fun_cases strict operator values with
  | case1 subject key => exact hdata ((lookup_fails .get subject key).map _)
  | case2 subject key => exact hdata ((lookup_fails .getText subject key).map _)
  | case3 outer inner =>
      refine hdata ((Datum.json?_fails .contains outer).bind fun outer => ?_)
      exact (Datum.json?_fails .contains inner).bind fun inner => .ok _
  | case4 subject key =>
      refine hdata ((Datum.json?_fails .containsKey subject).bind fun document => ?_)
      exact (Datum.text?_fails .containsKey key).bind fun key => .ok _
  | case5 left right => exact hdata (joined_fails left right)
  | case6 subject =>
      refine hdata ((Datum.json?_fails .size subject).bind fun document => ?_)
      split <;> first | exact .ok _ | exact .error rfl
  | case7 subject =>
      refine hdata ((Datum.json?_fails .keys subject).bind fun document => ?_)
      split <;> first | exact .ok _ | exact .error rfl
  | case8 subject =>
      refine hdata ((Datum.json?_fails .elements subject).bind fun document => ?_)
      split <;> first | exact .ok _ | exact .error rfl
  | case9 subject =>
      exact hdata ((Datum.json?_fails .typeOf subject).bind fun document => .ok _)
  | case10 subject path value =>
      refine hdata ((Datum.json?_fails .set subject).bind fun document => ?_)
      refine (Datum.path?_fails .set path).bind fun path => ?_
      exact (Datum.json?_fails .set value).bind fun value => editing_fails _
  | case11 subject key =>
      refine hdata ((Datum.json?_fails .deleteKey subject).bind fun document => ?_)
      exact (Datum.text?_fails .deleteKey key).bind fun key => editing_fails _
  | case12 subject index =>
      refine hdata ((Datum.json?_fails .deleteIndex subject).bind fun document => ?_)
      exact (Datum.integer?_fails .deleteIndex index).bind fun index => editing_fails _
  | case13 subject path =>
      refine hdata ((Datum.json?_fails .deletePath subject).bind fun document => ?_)
      exact (Datum.path?_fails .deletePath path).bind fun path => editing_fails _
  | case14 value => exact .ok _
  | case15 value => exact hdata ((FailsOnData.of_respects value.toWord_respects).map _)
  | case16 value => exact hdata ((FailsOnData.of_respects value.toWord_respects).map _)
  | case17 value => exact hdata ((FailsOnData.of_respects value.toNumeric_respects).map _)
  | case18 value => exact hdata ((FailsOnData.of_respects value.toTruth_respects).map _)
  | case19 left right => exact hdata ((FailsOnData.of_respects (left.equal_respects right)).map _)
  | case20 left right => exact hdata ((FailsOnData.of_respects (left.equal_respects right)).map _)
  | case21 condition => exact hdata (condition.truth?_fails.map _)
  | case22 =>
      refine .error (.inr ⟨rfl, fun hstrict hlength => ?_⟩)
      -- as many data as slots have one of the shapes above
      cases operator
      case set =>
        obtain ⟨subject, path, value, rfl⟩ := List.length_eq_three.1 hlength
        simp_all
      case get | getText | contains | containsKey | concat | deleteKey | deleteIndex |
          deletePath | eq | ne =>
        obtain ⟨first, second, rfl⟩ := List.length_eq_two.1 hlength
        simp_all
      case size | keys | elements | typeOf | castText | castInteger | castBigint |
          castNumeric | castBoolean | not =>
        obtain ⟨value, rfl⟩ := List.length_eq_one_iff.1 hlength
        simp_all
      all_goals cases hstrict

/-! ## Operations -/

section Operations

variable {P : EvaluationFault → Prop} (hdata : ∀ fault, fault.isOfData = true → P fault)
  {results : List Outcome}

theorem collect_fails (h : ∀ result ∈ results, FailsWith P result) :
    FailsWith P (Outcome.collect results) := by
  induction results with
  | nil => exact .ok _
  | cons result results ih =>
      obtain ⟨hfirst, hothers⟩ := List.forall_mem_cons.1 h
      rw [Outcome.collect]
      refine hfirst.bind fun value => ?_
      exact (ih hothers).bind fun values => .ok _

theorem collect_eq_ok {values : List Datum} :
    Outcome.collect results = .ok values ↔ results = values.map .ok := by
  induction results generalizing values with
  | nil => cases values <;> simp [Outcome.collect]
  | cons result results ih =>
      rw [Outcome.collect, bind_eq_ok]
      constructor
      · rintro ⟨value, rfl, h⟩
        obtain ⟨others, hothers, heq⟩ := bind_eq_ok.1 h
        cases heq
        rw [ih.1 hothers, List.map_cons]
      · intro h
        obtain ⟨value, others, rfl, rfl, rfl⟩ := List.map_eq_cons_iff.1 h.symm
        exact ⟨value, rfl, bind_eq_ok.2 ⟨others, ih.2 rfl, rfl⟩⟩

theorem length_of_collect {values : List Datum} (h : Outcome.collect results = .ok values) :
    values.length = results.length := by
  rw [collect_eq_ok.1 h, List.length_map]

include hdata

theorem junction_fails (decisive : Bool) (h : ∀ result ∈ results, FailsWith P result) :
    FailsWith P (junction decisive results) := by
  induction results with
  | nil => exact .ok _
  | cons result results ih =>
      obtain ⟨hfirst, hothers⟩ := List.forall_mem_cons.1 h
      rw [junction]
      refine hfirst.bind fun datum => ?_
      refine (datum.truth?_fails.imp hdata).bind fun truth => ?_
      cases truth with
      | none => exact (ih hothers).bind fun rest => .ok _
      | some truth =>
          dsimp only
          split
          · exact .ok _
          · exact ih hothers

omit hdata in
theorem firstPresent_fails (h : ∀ result ∈ results, FailsWith P result) :
    FailsWith P (firstPresent results) := by
  induction results with
  | nil => exact .ok _
  | cons result results ih =>
      obtain ⟨hfirst, hothers⟩ := List.forall_mem_cons.1 h
      rw [firstPresent]
      refine hfirst.bind fun datum => ?_
      split
      · exact ih hothers
      · exact .ok _

theorem choose_fails (h : ∀ result ∈ results, FailsWith P result)
    (hcount : results.length = 3 ∨ P (.operandCount .caseWhen)) : FailsWith P (choose results) := by
  fun_cases choose results with
  | case1 condition value otherwise =>
      simp only [List.forall_mem_cons] at h
      obtain ⟨hcondition, hvalue, hotherwise, -⟩ := h
      refine hcondition.bind fun datum => ?_
      refine (datum.truth?_fails.imp hdata).bind fun truth => ?_
      split
      · exact hvalue
      · exact hotherwise
  | case2 =>
      rename_i hother
      refine .error (hcount.resolve_left fun hlength => ?_)
      obtain ⟨condition, value, otherwise, rfl⟩ := List.length_eq_three.1 hlength
      exact hother condition value otherwise rfl

omit hdata in
theorem nullCheck_fails (operator : Operator) (expected : Bool)
    (h : ∀ result ∈ results, FailsWith P result)
    (hcount : results.length = 1 ∨ P (.operandCount operator)) :
    FailsWith P (nullCheck operator expected results) := by
  intro fault hfault
  rw [nullCheck] at hfault
  rcases bind_eq_error.1 hfault with hcollect | ⟨values, hvalues, hfault⟩
  · exact collect_fails h fault hcollect
  · have hlength := length_of_collect hvalues
    split at hfault
    · cases hfault
    · rename_i hother
      cases hfault
      refine hcount.resolve_left fun hone => ?_
      obtain ⟨value, rfl⟩ := List.length_eq_one_iff.1 (hlength.trans hone)
      exact hother value rfl

theorem objectOf_fails (values : List Datum) (hpair : P .unpairedKey) :
    FailsWith P (objectOf values) := by
  rw [objectOf]
  split
  · exact ((FailsOnData.of_respects (entries_respects values)).imp hdata).map _
  · exact .error hpair

/-- The reasons that a membership has for itself: one is that its alternatives are no
value list. -/
theorem inAlternatives_fails {subject : Outcome} (h : FailsWith P subject) {alternatives : Expr}
    (hlist : (∃ value : Constant, alternatives = .constant value ∧ value.isValueList = true) ∨
      P .missingValueList) : FailsWith P (inAlternatives subject alternatives) := by
  fun_cases inAlternatives subject alternatives with
  | case1 values declared =>
      refine h.bind fun datum => ?_
      split
      · exact .ok _
      · exact ((FailsOnData.of_respects (membership_respects declared datum values)).imp hdata).map _
  | case2 =>
      rename_i hother
      refine .error (hlist.resolve_left ?_)
      rintro ⟨⟨literal, declared⟩, rfl, hvalue⟩
      cases literal with
      | list values => exact hother values declared rfl
      | _ => cases hvalue

/-- Outside of memberships, an operation fails like one of its operands, because of their
data, or for what is wrong with their number. -/
theorem evaluate_fails {operator : Operator} (hlist : operator ≠ .inList)
    (hpair : P .unpairedKey)
    (hcount : operator.contract.admits results.length = true ∨ P (.operandCount operator))
    (h : ∀ result ∈ results, FailsWith P result) (operands : List Expr) :
    FailsWith P (operator.evaluate operands results) := by
  have hexact : ∀ count, operator.contract.most = some count →
      results.length = count ∨ P (.operandCount operator) :=
    fun count hmost => hcount.imp_left (admits_iff_of_most hmost).1
  by_cases hstrict : operator.isStrict = true
  · intro fault hfault
    rw [evaluate_of_isStrict hstrict] at hfault
    rcases bind_eq_error.1 hfault with hcollect | ⟨values, hvalues, hfault⟩
    · exact collect_fails h fault hcollect
    · split at hfault
      · cases hfault
      · rcases strict_fails operator values fault hfault with hown | ⟨rfl, hwrong⟩
        · exact hdata fault hown
        · refine (hexact _ (most_of_isStrict hstrict)).resolve_left fun hlength => ?_
          exact hwrong hstrict ((length_of_collect hvalues).trans hlength)
  · cases operator with
    | inList => exact absurd rfl hlist
    | and => exact (junction_fails hdata false h).map _
    | or => exact (junction_fails hdata true h).map _
    | coalesce => exact firstPresent_fails h
    | caseWhen => exact choose_fails hdata h (hexact 3 rfl)
    | isNull => exact nullCheck_fails .isNull true h (hexact 1 rfl)
    | isNotNull => exact nullCheck_fails .isNotNull false h (hexact 1 rfl)
    | buildObject => exact (collect_fails h).bind fun values => objectOf_fails hdata values hpair
    | _ => exact absurd rfl hstrict

end Operations

end Operator

end JsonbAlgebra
