import JsonbAlgebra.Proofs.FaultOrigins
import JsonbAlgebra.Proofs.IndexedEdits

/-!
# Evaluation by position

The definition of evaluation takes operands apart by matching lists, and a list of
another length is a failure of its own.  A machine reads its operands by position, and
an operator that comes to a place meant for others is a mistake of the program.  Such
an evaluation is given here, and it may stop.

On a checked expression it never does, whatever the row.  The check fixes how many
operands there are to read, and the operators that look at their operands in their own
way are gone before the strict ones are reached.
-/

namespace JsonbAlgebra

/-- No array in a document that is a value is longer than a word can say. -/
def Datum.Fits (datum : Datum) : Prop :=
  ∀ document, datum = .json document → document.Fits

theorem Datum.Fits.json {document : Document} (h : document.Fits) :
    (Datum.json document).Fits := by
  rintro _ ⟨⟩
  exact h

/-- The values of all parts of an expression fit. -/
def Expr.Compact (row : Row) (e : Expr) : Prop :=
  ∀ part datum, Expr.Within part e → part.evaluate row = .ok datum → datum.Fits

namespace Indexed

/-! ## Strict operators -/

def lookup (operator : Operator) (subject key : Datum) :
    Except Stop (Except EvaluationFault (Option Document)) :=
  match subject, key with
  | .json (.array items), .integer index => (item? items index).map .ok
  | .json document, .array steps =>
    (at? document (steps.map Document.plainText)).map .ok
  | _, _ => .ok (Operator.lookup operator subject key)

def set (subject path value : Datum) : Except Stop Outcome :=
  match subject, path, value with
  | .json document, .array steps, .json value =>
    (setPath document (steps.map Document.plainText) value).map Operator.editing
  | _, _, _ => .ok (Operator.strict .set [subject, path, value])

def deleteItem (subject index : Datum) : Except Stop Outcome :=
  match subject, index with
  | .json document, .integer index => (deleteIndex document index).map Operator.editing
  | _, _ => .ok (Operator.strict .deleteIndex [subject, index])

def deleteBelow (subject path : Datum) : Except Stop Outcome :=
  match subject, path with
  | .json document, .array steps =>
    (deletePath document (steps.map Document.plainText)).map Operator.editing
  | _, _ => .ok (Operator.strict .deletePath [subject, path])

/-- The value of a strict operator.  The others have no business here. -/
def strict (operator : Operator) (values : List Datum) : Except Stop Outcome :=
  match operator with
  | .get => do
    let found ← lookup .get (← read values 0) (← read values 1)
    return found.map Operator.foundJson
  | .getText => do
    let found ← lookup .getText (← read values 0) (← read values 1)
    return found.map Operator.foundText
  | .set => do set (← read values 0) (← read values 1) (← read values 2)
  | .deleteIndex => do deleteItem (← read values 0) (← read values 1)
  | .deletePath => do deleteBelow (← read values 0) (← read values 1)
  | .contains | .containsKey | .concat | .deleteKey | .eq | .ne => do
    return operator.strict [← read values 0, ← read values 1]
  | .size | .keys | .elements | .typeOf | .castText | .castInteger | .castBigint
  | .castNumeric | .castBoolean | .not => do
    return operator.strict [← read values 0]
  | .and | .or | .inList | .coalesce | .caseWhen | .isNull | .isNotNull | .buildObject =>
    .error .unreachable

theorem lookup_yields (operator : Operator) (subject key : Datum) :
    Yields subject.Fits (lookup operator subject key)
      (Operator.lookup operator subject key) := by
  fun_cases lookup operator subject key with
  | case1 items index =>
      exact ((item?_yields items index).map _).imp fun hfits => (hfits _ rfl).length
  | case2 document steps =>
      have hmodel : Operator.lookup operator (.json document) (.array steps) =
          .ok (document.at? (steps.map Document.plainText)) := by
        cases document <;> rfl
      rw [hmodel]
      exact ((at?_yields document _).map _).imp fun hfits => hfits _ rfl
  | case3 => exact .ok _

theorem set_yields (subject path value : Datum) :
    Yields subject.Fits (set subject path value)
      (Operator.strict .set [subject, path, value]) := by
  fun_cases set subject path value with
  | case1 document steps value =>
      exact ((setPath_yields document _ value).map _).imp fun hfits => hfits _ rfl
  | case2 => exact .ok _

theorem deleteItem_yields (subject index : Datum) :
    Yields subject.Fits (deleteItem subject index)
      (Operator.strict .deleteIndex [subject, index]) := by
  fun_cases deleteItem subject index with
  | case1 document index =>
      exact ((deleteIndex_yields document index).map _).imp fun hfits => hfits _ rfl
  | case2 => exact .ok _

theorem deleteBelow_yields (subject path : Datum) :
    Yields subject.Fits (deleteBelow subject path)
      (Operator.strict .deletePath [subject, path]) := by
  fun_cases deleteBelow subject path with
  | case1 document steps =>
      exact ((deletePath_yields document _).map _).imp fun hfits => hfits _ rfl
  | case2 => exact .ok _

theorem strict_yields {operator : Operator} (hstrict : operator.isStrict = true)
    {values : List Datum} (hlength : values.length = operator.contract.slots.length) :
    Yields (∀ value ∈ values, value.Fits) (strict operator values)
      (operator.strict values) := by
  cases operator
  case set =>
    obtain ⟨subject, path, value, rfl⟩ := List.length_eq_three.1 hlength
    exact (set_yields subject path value).imp fun hfits => hfits subject (by simp)
  case get | getText =>
    obtain ⟨subject, key, rfl⟩ := List.length_eq_two.1 hlength
    exact ((lookup_yields _ subject key).map _).imp fun hfits => hfits subject (by simp)
  case deleteIndex =>
    obtain ⟨subject, index, rfl⟩ := List.length_eq_two.1 hlength
    exact (deleteItem_yields subject index).imp fun hfits => hfits subject (by simp)
  case deletePath =>
    obtain ⟨subject, path, rfl⟩ := List.length_eq_two.1 hlength
    exact (deleteBelow_yields subject path).imp fun hfits => hfits subject (by simp)
  case contains | containsKey | concat | deleteKey | eq | ne =>
    obtain ⟨first, second, rfl⟩ := List.length_eq_two.1 hlength
    exact .ok _
  case size | keys | elements | typeOf | castText | castInteger | castBigint |
      castNumeric | castBoolean | not =>
    obtain ⟨value, rfl⟩ := List.length_eq_one_iff.1 hlength
    exact .ok _
  all_goals cases hstrict

/-! ## Objects -/

/-- A list in pieces of two items; the last one may have less. -/
def pairs {α : Type} : List α → List (List α)
  | [] => []
  | [item] => [[item]]
  | first :: second :: rest => [first, second] :: pairs rest

def entries : List (List Datum) →
    Except Stop (Except EvaluationFault (List (String × Document)))
  | [] => .ok (.ok [])
  | pair :: rest => do
    let key ← read pair 0
    if key.isNull then return .error .nullKey
    else
      let value ← read pair 1
      let others ← entries rest
      return others.map ((key.plainText, value.toDocument) :: ·)

def objectOf (values : List Datum) : Except Stop Outcome :=
  if values.length % 2 = 0 then do
    let found ← entries (pairs values)
    return found.map fun fields => .json (.object (Keyed.ofList fields))
  else .ok (.error .unpairedKey)

theorem entries_pairs {values : List Datum} (h : values.length % 2 = 0) :
    entries (pairs values) = .ok (Operator.entries values) := by
  fun_induction pairs values with
  | case1 => rfl
  | case2 item => cases h
  | case3 key value rest ih =>
      rw [List.length_cons, List.length_cons] at h
      rw [entries, ih (by omega), Operator.entries]
      refine bind_eq_ok.2 ⟨key, rfl, ?_⟩
      split <;> rfl

theorem objectOf_eq (values : List Datum) :
    objectOf values = .ok (Operator.objectOf values) := by
  rw [objectOf, Operator.objectOf]
  split
  · rename_i heven
    rw [entries_pairs heven]
    rfl
  · rfl

/-! ## Operations -/

/-- The value of an operator that wants all its operands. -/
def ofValues (operator : Operator) (values : List Datum) : Except Stop Outcome :=
  match operator with
  | .isNull => do return .ok (.boolean (← read values 0).isNull)
  | .isNotNull => do return .ok (.boolean !(← read values 0).isNull)
  | .buildObject => objectOf values
  | operator => if values.any Datum.isNull then .ok (.ok .null) else strict operator values

/-- The value of an operator over its operands, of which the results are given. -/
def apply (operator : Operator) (operands : List Expr) (results : List Outcome) :
    Except Stop Outcome :=
  match operator with
  | .and | .or | .coalesce => .ok (operator.evaluate operands results)
  | .inList =>
    match operands, results with
    | _ :: alternatives :: _, subject :: _ =>
      .ok (Operator.inAlternatives subject alternatives)
    | _, _ => .error .unreachable
  | .caseWhen =>
    match results with
    | [_, _, _] => .ok (Operator.choose results)
    | _ => .error .unreachable
  | operator =>
    match Outcome.collect results with
    | .error fault => .ok (.error fault)
    | .ok values => ofValues operator values

theorem apply_of_isStrict {operator : Operator} (hstrict : operator.isStrict = true)
    (operands : List Expr) (results : List Outcome) :
    apply operator operands results =
      match Outcome.collect results with
      | .error fault => .ok (.error fault)
      | .ok values =>
        if values.any Datum.isNull then .ok (.ok .null) else strict operator values := by
  cases operator <;> cases hstrict <;> rfl

/-- An operator over as many operands as it may have runs through: its operands are
there to be read, and it comes to the place that is meant for it. -/
theorem apply_yields {operator : Operator} {operands : List Expr} {results : List Outcome}
    (hadmits : operator.contract.admits operands.length = true)
    (hlength : results.length = operands.length) :
    Yields (∀ value, .ok value ∈ results → value.Fits) (apply operator operands results)
      (operator.evaluate operands results) := by
  have hexact : ∀ count, operator.contract.most = some count → results.length = count :=
    fun count hmost => hlength.trans ((Operator.admits_iff_of_most hmost).1 hadmits)
  by_cases hstrict : operator.isStrict = true
  · rw [apply_of_isStrict hstrict, Operator.evaluate_of_isStrict hstrict]
    cases hcollect : Outcome.collect results with
    | error fault => exact .ok _
    | ok values =>
        have hvalues := (Operator.length_of_collect hcollect).trans
          (hexact _ (Operator.most_of_isStrict hstrict))
        obtain rfl := Operator.collect_eq_ok.1 hcollect
        dsimp only
        by_cases hnull : values.any Datum.isNull = true
        · rw [if_pos hnull]
          refine ⟨.ok .null, rfl, fun _ => ?_⟩
          exact (if_pos hnull).symm
        · rw [if_neg hnull]
          have hmodel : (Except.ok values >>= fun values =>
              if values.any Datum.isNull then .ok .null else operator.strict values) =
              operator.strict values :=
            if_neg hnull
          rw [hmodel]
          refine (strict_yields hstrict hvalues).imp fun hfits value hmem => ?_
          exact hfits value (List.mem_map_of_mem hmem)
  -- every operator that is not strict has its own place, and the check gives it its operands
  · cases operator with
    | and | or | coalesce => exact .ok _
    | inList =>
        obtain ⟨subject, alternatives, rfl⟩ :=
          List.length_eq_two.1 ((Operator.admits_iff_of_most rfl).1 hadmits)
        obtain ⟨first, second, rfl⟩ := List.length_eq_two.1 hlength
        exact .ok _
    | caseWhen =>
        obtain ⟨condition, value, otherwise, rfl⟩ := List.length_eq_three.1 (hexact 3 rfl)
        exact .ok _
    | isNull | isNotNull =>
        obtain ⟨result, rfl⟩ := List.length_eq_one_iff.1 (hexact 1 rfl)
        cases result with
        | error fault => exact .ok _
        | ok value => cases value <;> exact .ok _
    | buildObject =>
        have hrun : apply .buildObject operands results =
            match Outcome.collect results with
            | .error fault => .ok (.error fault)
            | .ok values => objectOf values :=
          rfl
        have hmodel : Operator.evaluate .buildObject operands results =
            Outcome.collect results >>= Operator.objectOf :=
          rfl
        rw [hrun, hmodel]
        cases Outcome.collect results with
        | error fault => exact .ok _
        | ok values => exact ⟨_, objectOf_eq values, fun _ => rfl⟩
    | _ => exact absurd rfl hstrict

mutual

/-- The value of an expression on a row.  All operands of an operation are run, so that
no order of looking at them can come to one that stops. -/
def evaluate (row : Row) : Expr → Except Stop Outcome
  | .column ref => .ok (.ok (row ref.path))
  | .constant value => .ok value.datum
  | .operation operator operands => do
    let results ← evaluateAll row operands
    apply operator operands results

def evaluateAll (row : Row) : List Expr → Except Stop (List Outcome)
  | [] => .ok []
  | operand :: operands => do
    let result ← evaluate row operand
    let results ← evaluateAll row operands
    return result :: results

end

theorem evaluateAll_yields {row : Row} {operands : List Expr} (fits : Prop)
    (h : ∀ operand ∈ operands, Yields fits (evaluate row operand) (operand.evaluate row)) :
    ∃ results, evaluateAll row operands = .ok results ∧ results.length = operands.length ∧
      (fits → results = Expr.evaluateAll row operands) := by
  induction operands with
  | nil => exact ⟨[], rfl, rfl, fun _ => rfl⟩
  | cons operand operands ih =>
      obtain ⟨hfirst, hothers⟩ := List.forall_mem_cons.1 h
      obtain ⟨result, hresult, heq⟩ := hfirst
      obtain ⟨results, hresults, hlength, hsame⟩ := ih hothers
      refine ⟨result :: results, ?_, congrArg (· + 1) hlength, fun hfits => ?_⟩
      · exact bind_eq_ok.2 ⟨result, hresult, bind_eq_ok.2 ⟨results, hresults, rfl⟩⟩
      · rw [heq hfits, hsame hfits, Expr.evaluateAll]

end Indexed

namespace Expr

variable {row : Row} {e : Expr}

theorem Compact.operand {operator : Operator} {operands : List Expr}
    (h : (Expr.operation operator operands).Compact row) {operand : Expr}
    (hmem : operand ∈ operands) : operand.Compact row :=
  fun part datum hwithin => h part datum (.operand hmem hwithin)

theorem compact_operation {operator : Operator} {operands : List Expr} {datum : Datum}
    (hvalue : (Expr.operation operator operands).evaluate row = .ok datum)
    (hfits : datum.Fits) (h : ∀ operand ∈ operands, operand.Compact row) :
    (Expr.operation operator operands).Compact row := by
  intro part found hwithin hfound
  cases hwithin with
  | whole =>
      obtain rfl := Except.ok.inj (hvalue.symm.trans hfound)
      exact hfits
  | operand hmem hwithin => exact h _ hmem part found hwithin hfound

theorem compact_column {ref : ColumnRef} (h : (row ref.path).Fits) :
    (Expr.column ref).Compact row := by
  rintro _ _ ⟨⟩ ⟨⟩
  exact h

theorem compact_constant {constant : Constant} {datum : Datum}
    (hvalue : constant.datum = .ok datum) (hfits : datum.Fits) :
    (Expr.constant constant).Compact row := by
  rintro _ found ⟨⟩ hfound
  obtain rfl := Except.ok.inj (hvalue.symm.trans hfound)
  exact hfits

theorem WellFormed.yields (hwell : e.WellFormed) :
    Indexed.Yields (e.Compact row) (Indexed.evaluate row e) (e.evaluate row) := by
  induction e with
  | column ref => exact .ok _
  | constant value => exact .ok _
  | operation operator operands ih =>
      obtain ⟨hcheck, hoperands⟩ := wellFormed_operation_iff.1 hwell
      obtain ⟨results, hresults, hlength, heq⟩ :=
        Indexed.evaluateAll_yields ((Expr.operation operator operands).Compact row)
          fun operand hmem => (ih operand hmem (hoperands operand hmem)).imp
            fun hcompact => hcompact.operand hmem
      obtain ⟨outcome, houtcome, hsame⟩ :=
        Indexed.apply_yields (applicationFault?_eq_none hcheck).1 hlength
      refine ⟨outcome, bind_eq_ok.2 ⟨results, hresults, houtcome⟩, fun hcompact => ?_⟩
      rw [hsame ?_, heq hcompact, evaluate]
      intro value hmem
      rw [heq hcompact, evaluateAll_eq_map] at hmem
      obtain ⟨operand, hoperand, hvalue⟩ := List.mem_map.1 hmem
      exact hcompact operand value (.operand hoperand .whole) hvalue

/-- No evaluation of a checked expression fails for the number of operands. -/
theorem WellFormed.evaluate_counted (hwell : e.WellFormed) :
    FailsWith (fun fault => ∀ operator, fault ≠ .operandCount operator) (e.evaluate row) := by
  have hdata : ∀ fault : EvaluationFault, fault.isOfData = true →
      ∀ operator, fault ≠ .operandCount operator := by
    rintro _ hfault operator rfl
    cases hfault
  induction e with
  | column ref => exact .ok _
  | constant value =>
      refine Constant.datum_fails.imp fun fault hfault => ?_
      obtain hfault | ⟨rfl, -⟩ := hfault
      · exact hdata fault hfault
      · simp
  | operation operator operands ih =>
      obtain ⟨hcheck, hoperands⟩ := wellFormed_operation_iff.1 hwell
      have hadmits := (applicationFault?_eq_none hcheck).1
      by_cases hlist : operator = .inList
      · subst hlist
        obtain ⟨subject, alternatives, rfl⟩ :=
          List.length_eq_two.1 ((Operator.admits_iff_of_most rfl).1 hadmits)
        have hsubject := ih subject List.mem_cons_self (hoperands subject List.mem_cons_self)
        exact Operator.inAlternatives_fails hdata hsubject (.inr (by simp))
      · rw [evaluate, evaluateAll_eq_map]
        refine Operator.evaluate_fails hdata hlist (by simp) (.inl ?_) ?_ operands
        · rw [List.length_map]
          exact hadmits
        · intro result hmem
          obtain ⟨operand, hoperand, rfl⟩ := List.mem_map.1 hmem
          exact ih operand hoperand (hoperands operand hoperand)

/-- An index is resolved without an overflow and to a position that is there, a lookup
or an edit of a document reads and writes at such positions only, and a checked
expression is evaluated on every row without a stop and without a failure over the
number of operands.  What fits a memory is looked up, edited and evaluated as defined. -/
theorem evaluation_never_stops :
    (∀ (length : Nat) (index : Int64), ∃ place?,
      Indexed.position length index = .ok place? ∧
        (∀ place, place? = some place → place < length) ∧
        (Text.FitsWord length → place? = Document.position? length index.toInt)) ∧
    (∀ (document value : Document) (path : List String) (index : Int64),
      Indexed.Yields document.Fits (Indexed.at? document path) (document.at? path) ∧
        Indexed.Yields document.Fits (Indexed.setPath document path value)
          (document.setPath path value) ∧
        Indexed.Yields document.Fits (Indexed.deletePath document path)
          (document.deletePath path) ∧
        Indexed.Yields document.Fits (Indexed.deleteIndex document index)
          (document.deleteIndex index.toInt)) ∧
    ∀ (row : Row) (e : Expr), e.WellFormed →
      Indexed.Yields (e.Compact row) (Indexed.evaluate row e) (e.evaluate row) ∧
        ∀ operator, e.evaluate row ≠ .error (.operandCount operator) := by
  refine ⟨Indexed.exists_position, fun document value path index => ?_, fun row e hwell => ?_⟩
  · exact ⟨Indexed.at?_yields document path, Indexed.setPath_yields document path value,
      Indexed.deletePath_yields document path, Indexed.deleteIndex_yields document index⟩
  · refine ⟨hwell.yields, fun operator hfault => ?_⟩
    exact hwell.evaluate_counted _ hfault operator rfl

/-- An array that is changed in its last item and then loses the one before. -/
theorem evaluation_never_stops_last_items :
    let doc : Expr := .column ⟨none, ["doc"], .jsonb⟩
    let edited : Expr := .operation .set
      [doc, .constant (.textArray ["tags", "-1"]), .constant (.jsonb (.boolean true))]
    let tags : Expr := .operation .get [edited, .constant (.text "tags")]
    let e : Expr := .operation .deleteIndex [tags, .constant (.integer (-2))]
    let row : Row := fun _ => .json (.object [("tags", .array [.null, .null])])
    e.WellFormed ∧ e.Compact row ∧ Indexed.evaluate row e = .ok (e.evaluate row) ∧
      e.evaluate row = .ok (.json (.array [.boolean true])) := by
  intro doc edited tags e row
  have hwell : e.WellFormed := by
    simp only [e, tags, edited, doc, wellFormed_operation_iff, List.forall_mem_cons,
      List.not_mem_nil, false_imp_iff, implies_true, and_true, wellFormed_column,
      wellFormed_constant]
    decide
  have hlength : Text.FitsWord (2 : Nat) := by decide
  have hitems : ∀ last : Document, last.isContainer = false →
      (Document.array [.null, last]).Fits := by
    intro last hlast
    refine .of_array hlength ?_
    simpa using ⟨Document.Fits.of_scalar rfl, Document.Fits.of_scalar hlast⟩
  have hfields : ∀ last : Document, last.isContainer = false →
      (Document.object [("tags", .array [.null, last])]).Fits :=
    fun last hlast => .of_object (by simpa using hitems last hlast)
  have hrest : (Document.array [.boolean true]).Fits :=
    .of_array (by decide) (by simpa using Document.Fits.of_scalar rfl)
  have hedited : edited.Compact row := by
    refine compact_operation rfl (.json (hfields (.boolean true) rfl)) ?_
    refine List.forall_mem_cons.2 ⟨compact_column (.json (hfields .null rfl)), ?_⟩
    refine List.forall_mem_cons.2 ⟨compact_constant rfl nofun, List.forall_mem_singleton.2 ?_⟩
    exact compact_constant rfl (.json (.of_scalar rfl))
  have htags : tags.Compact row := by
    refine compact_operation rfl (.json (hitems (.boolean true) rfl)) ?_
    exact List.forall_mem_cons.2
      ⟨hedited, List.forall_mem_singleton.2 (compact_constant rfl nofun)⟩
  have hcompact : e.Compact row := by
    refine compact_operation rfl (.json hrest) ?_
    exact List.forall_mem_cons.2
      ⟨htags, List.forall_mem_singleton.2 (compact_constant rfl nofun)⟩
  exact ⟨hwell, hcompact, (evaluation_never_stops.2.2 row e hwell).1.eq_ok hcompact, rfl⟩

end Expr

end JsonbAlgebra
