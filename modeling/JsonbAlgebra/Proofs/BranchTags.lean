import JsonbAlgebra.Proofs.TagSoundness

/-!
# The tags of branches

The value of a coalescence is that of one of its operands, and the value of a case
distinction that of one of its two branches.  The tag of either is copied from one
operand, the first of a coalescence and the first branch of a case distinction.  So the
tag says what the value is if it covers the tags of the other branches, and otherwise it
need not: the operands may all be what their tags say, and the operation is not.
-/

namespace JsonbAlgebra

/-- The kind of the data that a tag stands for, NULL apart. -/
def Tag.kind : Tag → Datum.Kind
  | .null | .valueList => .null
  | .json => .json
  | .text => .text
  | .integer => .integer
  | .number => .number
  | .boolean => .boolean
  | .textArray | .array => .array

/-- NULL belongs to every tag, and any other datum to the tags of its kind. -/
def Datum.Belongs (datum : Datum) (tag : Tag) : Prop :=
  datum.kind = .null ∨ datum.kind = tag.kind

/-- What belongs to the second tag belongs to the first. -/
def Tag.Covers (cover tag : Tag) : Prop :=
  tag.kind = .null ∨ tag.kind = cover.kind

instance (cover tag : Tag) : Decidable (cover.Covers tag) :=
  inferInstanceAs (Decidable (_ ∨ _))

theorem Datum.Belongs.conforms {datum : Datum} {tag : Tag} (h : datum.Belongs tag) :
    datum.Conforms tag := by
  unfold Belongs at h
  cases datum <;> cases tag <;> simp_all [Conforms, kind, Kind.conforms, Tag.kind]

theorem Datum.Belongs.of_covers {datum : Datum} {tag cover : Tag} (h : datum.Belongs tag)
    (hcovers : cover.Covers tag) : datum.Belongs cover := by
  obtain hnull | hkind := h
  · exact .inl hnull
  · exact hcovers.imp hkind.trans hkind.trans

theorem Datum.eq_null {datum : Datum} (h : datum.isNull = true) : datum = .null := by
  cases datum with
  | null => rfl
  | _ => cases h

theorem Datum.exists_kind (kind : Kind) : ∃ datum : Datum, datum.kind = kind := by
  cases kind with
  | null => exact ⟨.null, rfl⟩
  | json => exact ⟨.json .null, rfl⟩
  | text => exact ⟨.text "", rfl⟩
  | integer => exact ⟨.integer 0, rfl⟩
  | number => exact ⟨.number (.ofInt 0), rfl⟩
  | boolean => exact ⟨.boolean true, rfl⟩
  | array => exact ⟨.array [], rfl⟩

theorem Tag.covers_iff {cover tag : Tag} :
    cover.Covers tag ↔ ∀ datum : Datum, datum.Belongs tag → datum.Belongs cover := by
  refine ⟨fun hcovers datum h => h.of_covers hcovers, fun h => ?_⟩
  obtain ⟨datum, hkind⟩ := Datum.exists_kind tag.kind
  have hbelongs := h datum (.inr hkind)
  rwa [Datum.Belongs, hkind] at hbelongs

/-- The operands of a branch operator one of which its value is. -/
def Operator.branches {α : Type} (operator : Operator) (operands : List α) : List α :=
  match operator with
  | .caseWhen => operands.drop 1
  | _ => operands

namespace Expr

/-- The operands that a branch operator comes to on a row: those before which there is
nothing but NULL, or the condition and the branch that it chooses. -/
inductive Visits (row : Row) : Operator → List Expr → Nat → Prop
  | absent {operands : List Expr} {index : Nat}
      (h : ∀ earlier ∈ operands.take index, earlier.evaluate row = .ok .null) :
      Visits row .coalesce operands index
  | condition {operands : List Expr} : Visits row .caseWhen operands 0
  | chosen {condition : Expr} {branches : List Expr} {truth : Option Bool}
      (h : condition.truth row = .ok truth) :
      Visits row .caseWhen (condition :: branches) (if truth = some true then 1 else 2)

/-- Every operand that the operator comes to is what its tag says. -/
def VisitsBelong (row : Row) (operator : Operator) (operands : List Expr) : Prop :=
  ∀ index operand, operands[index]? = some operand → Visits row operator operands index →
    ∃ datum, operand.evaluate row = .ok datum ∧ datum.Belongs operand.tag

theorem visitsBelong_of_forall {row : Row} {operator : Operator} {operands : List Expr}
    (h : ∀ operand ∈ operands,
      ∃ datum, operand.evaluate row = .ok datum ∧ datum.Belongs operand.tag) :
    VisitsBelong row operator operands :=
  fun _ operand hoperand _ => h operand (List.mem_of_getElem? hoperand)

/-- A value of an operation that is the value of a branch and what its tag says. -/
def BranchValue (row : Row) (operator : Operator) (operands : List Expr) (datum : Datum) : Prop :=
  (Expr.operation operator operands).evaluate row = .ok datum ∧
    ∃ branch ∈ operator.branches operands,
      branch.evaluate row = .ok datum ∧ datum.Belongs branch.tag

section Values

variable {row : Row}

/-- By induction on the operands: where the first is NULL, the others are what the
coalescence comes to. -/
theorem coalesce_value {operands : List Expr} (hne : operands ≠ [])
    (h : VisitsBelong row .coalesce operands) :
    ∃ datum, BranchValue row .coalesce operands datum := by
  induction operands with
  | nil => exact absurd rfl hne
  | cons first others ih =>
      obtain ⟨datum, hdatum, hbelongs⟩ := h 0 first rfl (.absent (by simp))
      have hstep : (Expr.operation .coalesce (first :: others)).evaluate row =
          if datum.isNull then (Expr.operation .coalesce others).evaluate row else .ok datum := by
        rw [evaluate, evaluateAll, Operator.evaluate, Operator.firstPresent, hdatum]
        rfl
      by_cases hnull : datum.isNull = true ∧ others ≠ []
      · have hothers : VisitsBelong row .coalesce others := by
          rintro index operand hoperand ⟨hearlier⟩
          refine h (index + 1) operand hoperand (.absent ?_)
          rw [List.take_succ_cons, List.forall_mem_cons]
          exact ⟨hdatum.trans (by rw [Datum.eq_null hnull.1]), hearlier⟩
        obtain ⟨value, hvalue, branch, hmem, hbranch⟩ := ih hnull.2 hothers
        rw [if_pos hnull.1] at hstep
        exact ⟨value, hstep.trans hvalue, branch, List.mem_cons_of_mem first hmem, hbranch⟩
      · refine ⟨datum, hstep.trans ?_, first, List.mem_cons_self, hdatum, hbelongs⟩
        split
        · rename_i hdatumNull
          obtain rfl := Datum.eq_null hdatumNull
          obtain rfl : others = [] := by simpa [Datum.isNull] using hnull
          rfl
        · rfl

/-- A condition that is what its tag says has a truth value. -/
theorem exists_truth {condition : Expr} {datum : Datum}
    (hdatum : condition.evaluate row = .ok datum) (hbelongs : datum.Belongs condition.tag)
    (hfits : condition.tag.fits .boolean = true) :
    ∃ truth, condition.truth row = .ok truth := by
  have hconforms : datum.Conforms .boolean := hbelongs.conforms.of_fits hfits
  rw [truth, hdatum]
  cases datum with
  | null => exact ⟨none, rfl⟩
  | boolean value => exact ⟨some value, rfl⟩
  | _ => cases hconforms

theorem caseWhen_value {condition value otherwise : Expr}
    (hfits : condition.tag.fits .boolean = true)
    (h : VisitsBelong row .caseWhen [condition, value, otherwise]) :
    ∃ datum, BranchValue row .caseWhen [condition, value, otherwise] datum := by
  obtain ⟨datum, hdatum, hbelongs⟩ := h 0 condition rfl .condition
  obtain ⟨truth, htruth⟩ := exists_truth hdatum hbelongs hfits
  have hstep : (Expr.operation .caseWhen [condition, value, otherwise]).evaluate row =
      if truth = some true then value.evaluate row else otherwise.evaluate row := by
    obtain ⟨found, hfound, hread⟩ := bind_eq_ok.1 htruth
    change condition.evaluate row >>= (fun datum => datum.truth? >>= fun truth =>
      if truth = some true then value.evaluate row else otherwise.evaluate row) = _
    rw [hfound]
    change (found.truth? >>= fun truth =>
      if truth = some true then value.evaluate row else otherwise.evaluate row) = _
    rw [hread]
    rfl
  have hchosen : Visits row .caseWhen [condition, value, otherwise]
      (if truth = some true then 1 else 2) := .chosen htruth
  by_cases hyes : truth = some true
  · rw [if_pos hyes] at hstep hchosen
    obtain ⟨datum, hdatum, hbelongs⟩ := h 1 value rfl hchosen
    exact ⟨datum, hstep.trans hdatum, value, List.mem_cons_self, hdatum, hbelongs⟩
  · rw [if_neg hyes] at hstep hchosen
    obtain ⟨datum, hdatum, hbelongs⟩ := h 2 otherwise rfl hchosen
    refine ⟨datum, hstep.trans hdatum, otherwise, ?_, hdatum, hbelongs⟩
    exact List.mem_cons_of_mem value List.mem_cons_self

end Values

/-! ## Values of another tag -/

/-- Results that are what the tags of the operands say. -/
def ResultsBelong (operands : List Expr) (results : List Outcome) : Prop :=
  List.Forall₂ (fun operand result => ∃ datum, result = .ok datum ∧ datum.Belongs operand.tag)
    operands results

theorem resultsBelong_null (operands : List Expr) :
    ResultsBelong operands (operands.map fun _ => .ok .null) := by
  rw [ResultsBelong, List.forall₂_map_right_iff, List.forall₂_same]
  exact fun operand _ => ⟨.null, rfl, .inl rfl⟩

/-- A coalescence can have any value of any of its operands. -/
theorem exists_coalesce_results {operands : List Expr} {branch : Expr} (hmem : branch ∈ operands)
    {datum : Datum} (hbelongs : datum.Belongs branch.tag) (hpresent : datum.isNull = false) :
    ∃ results, ResultsBelong operands results ∧
      Operator.evaluate .coalesce operands results = .ok datum := by
  have hrun : ∀ results, Operator.evaluate .coalesce operands results =
      Operator.firstPresent results := fun _ => rfl
  simp only [hrun]
  induction operands with
  | nil => cases hmem
  | cons first others ih =>
      rcases List.mem_cons.1 hmem with rfl | hmem
      · refine ⟨.ok datum :: others.map fun _ => .ok .null, ?_, ?_⟩
        · exact .cons ⟨datum, rfl, hbelongs⟩ (resultsBelong_null others)
        · rw [Operator.firstPresent]
          exact if_neg (by simp [hpresent])
      · obtain ⟨results, hresults, hvalue⟩ := ih hmem fun _ => rfl
        exact ⟨.ok .null :: results, .cons ⟨.null, rfl, .inl rfl⟩ hresults, hvalue⟩

/-- Where a branch is not covered by the tag of the operation, its value may be the value
of the operation. -/
theorem exists_results_astray {operator : Operator}
    (hbranch : operator = .coalesce ∨ operator = .caseWhen) {operands : List Expr}
    (hcheck : applicationFault? operator operands = none) {branch : Expr}
    (hmem : branch ∈ operator.branches operands)
    (huncovered : ¬ (Expr.operation operator operands).tag.Covers branch.tag) :
    ∃ results datum, ResultsBelong operands results ∧
      operator.evaluate operands results = .ok datum ∧
        ¬ datum.Belongs (Expr.operation operator operands).tag := by
  rw [Tag.covers_iff, not_forall] at huncovered
  obtain ⟨datum, hdatum⟩ := huncovered
  obtain ⟨hbelongs, hastray⟩ := Classical.not_imp.1 hdatum
  have hpresent : datum.isNull = false := by
    cases datum with
    | null => exact absurd (.inl rfl) hastray
    | _ => rfl
  rcases hbranch with rfl | rfl
  · obtain ⟨results, hresults, hvalue⟩ := exists_coalesce_results hmem hbelongs hpresent
    exact ⟨results, datum, hresults, hvalue, hastray⟩
  · obtain ⟨condition, value, otherwise, rfl⟩ := List.length_eq_three.1
      ((Operator.admits_iff_of_most rfl).1 (applicationFault?_eq_none hcheck).1)
    have hotherwise : branch = otherwise := by
      rcases List.mem_cons.1 hmem with rfl | hmem
      · exact absurd hbelongs hastray
      · exact List.mem_singleton.1 hmem
    subst hotherwise
    refine ⟨[.ok .null, .ok .null, .ok datum], datum, ?_, rfl, hastray⟩
    exact .cons ⟨_, rfl, .inl rfl⟩ (.cons ⟨_, rfl, .inl rfl⟩ (.cons ⟨_, rfl, hbelongs⟩ .nil))

/-- If what a coalescence or a case distinction comes to is what its tag says, the value
is that of a branch and what the tag of that branch says.  It is what the tag of the
operation says, and what an operator that accepts this tag takes, if the tag covers those
of all branches.  If it does not, the operands can be what their tags say and the value
is not. -/
theorem branch_value_belongs {operator : Operator}
    (hbranch : operator = .coalesce ∨ operator = .caseWhen) {operands : List Expr}
    (hwell : (Expr.operation operator operands).WellFormed) :
    (∀ row, VisitsBelong row operator operands →
      ∃ datum, BranchValue row operator operands datum ∧
        ((∀ branch ∈ operator.branches operands,
            (Expr.operation operator operands).tag.Covers branch.tag) →
          datum.Belongs (Expr.operation operator operands).tag ∧
            ∀ slot : Slot, slot.accepts (Expr.operation operator operands).tag = true →
              datum.isNull = true ∨ slot.Takes datum)) ∧
      ∀ branch ∈ operator.branches operands,
        ¬ (Expr.operation operator operands).tag.Covers branch.tag →
          ∃ results datum, ResultsBelong operands results ∧
            operator.evaluate operands results = .ok datum ∧
              ¬ datum.Belongs (Expr.operation operator operands).tag := by
  obtain ⟨hcheck, -⟩ := wellFormed_operation_iff.1 hwell
  refine ⟨fun row hvisits => ?_, fun branch hmem huncovered =>
    exists_results_astray hbranch hcheck hmem huncovered⟩
  obtain ⟨datum, hvalue⟩ : ∃ datum, BranchValue row operator operands datum := by
    rcases hbranch with rfl | rfl
    · refine coalesce_value ?_ hvisits
      rintro rfl
      exact absurd hcheck (by decide)
    · obtain ⟨hadmits, haccepts⟩ := applicationFault?_eq_none hcheck
      obtain ⟨condition, value, otherwise, rfl⟩ :=
        List.length_eq_three.1 ((Operator.admits_iff_of_most rfl).1 hadmits)
      refine caseWhen_value ?_ hvisits
      simpa [Slot.accepts, Slot.condition] using haccepts 0 condition _ rfl rfl
  refine ⟨datum, hvalue, fun hcovers => ?_⟩
  obtain ⟨-, branch, hmem, -, hbelongs⟩ := hvalue
  have hkept := hbelongs.of_covers (hcovers branch hmem)
  refine ⟨hkept, fun slot haccepts => ?_⟩
  cases hnull : datum.isNull with
  | true => exact .inl rfl
  | false => exact .inr (Slot.takes_of_accepts haccepts hkept.conforms hnull)

/-- A column that is NULL, a null without a type, and a text. -/
theorem branch_value_belongs_default :
    let name : Expr := .column ⟨none, ["name"], .text⟩
    let operands : List Expr := [name, .constant .null, .constant (.text "x")]
    let e : Expr := .operation .coalesce operands
    let row : Row := fun _ => .null
    e.WellFormed ∧ VisitsBelong row .coalesce operands ∧
      (∀ branch ∈ operands, e.tag.Covers branch.tag) ∧
      ∃ datum, e.evaluate row = .ok datum ∧ datum.Belongs .text := by
  intro name operands e row
  have hwell : e.WellFormed := by
    simp only [e, operands, name, wellFormed_operation_iff, List.forall_mem_cons,
      List.not_mem_nil, false_imp_iff, implies_true, and_true, wellFormed_column,
      wellFormed_constant]
    decide
  have hvisits : VisitsBelong row .coalesce operands := by
    refine visitsBelong_of_forall (List.forall_mem_cons.2 ⟨⟨.null, rfl, .inl rfl⟩, ?_⟩)
    refine List.forall_mem_cons.2 ⟨⟨.null, rfl, .inl rfl⟩, List.forall_mem_singleton.2 ?_⟩
    exact ⟨.text "x", rfl, .inr rfl⟩
  have hcovers : ∀ branch ∈ operands, e.tag.Covers branch.tag := by decide
  obtain ⟨datum, hvalue, hkept⟩ := (branch_value_belongs (.inl rfl) hwell).1 row hvisits
  exact ⟨hwell, hvisits, hcovers, datum, hvalue.1, (hkept hcovers).1⟩

/-- A text behind a null without a type is a text under the tag of that null, which
stands where a document is asked for; a text in the second branch stands for an
integer. -/
theorem branch_value_astray :
    let x : Expr := .constant (.text "x")
    let fallback : List Expr := [.constant .null, x]
    let choice : List Expr := [.constant (.untyped (.boolean false)), .constant (.integer 1), x]
    let subject : Expr := .operation .coalesce fallback
    let index : Expr := .operation .caseWhen choice
    let row : Row := fun _ => .null
    (subject.WellFormed ∧ VisitsBelong row .coalesce fallback ∧
      subject.evaluate row = .ok (.text "x") ∧ ¬ (Datum.text "x").Belongs subject.tag) ∧
    (index.WellFormed ∧ VisitsBelong row .caseWhen choice ∧
      index.evaluate row = .ok (.text "x") ∧ ¬ (Datum.text "x").Belongs index.tag) ∧
    (Expr.operation .get [subject, x]).WellFormed ∧
      (Expr.operation .get [subject, x]).evaluate row = .error (.operand .get .json .text) := by
  intro x fallback choice subject index row
  have hx : ∃ datum, x.evaluate row = .ok datum ∧ datum.Belongs x.tag :=
    ⟨.text "x", rfl, .inr rfl⟩
  have hfallback : VisitsBelong row .coalesce fallback :=
    visitsBelong_of_forall (List.forall_mem_cons.2
      ⟨⟨.null, rfl, .inl rfl⟩, List.forall_mem_singleton.2 hx⟩)
  have hchoice : VisitsBelong row .caseWhen choice := by
    refine visitsBelong_of_forall (List.forall_mem_cons.2 ⟨⟨.boolean false, rfl, .inr rfl⟩, ?_⟩)
    exact List.forall_mem_cons.2 ⟨⟨.integer 1, rfl, .inr rfl⟩, List.forall_mem_singleton.2 hx⟩
  have hwell : subject.WellFormed ∧ index.WellFormed ∧
      (Expr.operation .get [subject, x]).WellFormed := by
    simp only [subject, index, fallback, choice, x, wellFormed_operation_iff,
      List.forall_mem_cons, List.not_mem_nil, false_imp_iff, implies_true, and_true,
      wellFormed_constant]
    decide
  refine ⟨⟨hwell.1, hfallback, rfl, ?_⟩, ⟨hwell.2.1, hchoice, rfl, ?_⟩, hwell.2.2, rfl⟩
  · rintro (h | h) <;> cases h
  · rintro (h | h) <;> cases h

end Expr

end JsonbAlgebra
