import JsonbAlgebra.Expr.Navigation
import JsonbAlgebra.Proofs.ByteOrder
import JsonbAlgebra.Proofs.ConditionBuilding
import JsonbAlgebra.Proofs.KeyedLookups
import JsonbAlgebra.Proofs.PostgresText
import JsonbAlgebra.Proofs.StepwiseNavigation

/-!
# Objects of keys and values

The operands of an object are keys and values in turn.  Keys are text constants, which
never fail, so an object fails with the first value that does.  Otherwise its entries are
put in one after another: a key that is given again gets its last value, and the keys of
the object are listed once and in the order of their bytes.
-/

namespace JsonbAlgebra

namespace Expr

/-- Keys and values in turn, as operands. -/
def pairOperands (pairs : List (String × Expr)) : List Expr :=
  pairs.flatMap fun (key, value) => [textOperand key, value]

theorem pairOperands_cons (key : String) (value : Expr) (rest : List (String × Expr)) :
    pairOperands ((key, value) :: rest) = textOperand key :: value :: pairOperands rest :=
  rfl

theorem length_pairOperands (pairs : List (String × Expr)) :
    (pairOperands pairs).length = 2 * pairs.length := by
  induction pairs with
  | nil => rfl
  | cons pair rest ih =>
      rw [pairOperands_cons, List.length_cons, List.length_cons, ih, List.length_cons]
      omega

/-! ## Building -/

theorem slotAt_key (index : Nat) :
    Operator.buildObject.contract.slotAt (2 * index) = some (.text "key") := by
  cases index with
  | zero => rfl
  | succ index => simp [Operator.contract, Contract.slotAt, Contract.isVariadic, Nat.mul_add]

theorem slotAt_value (index : Nat) :
    Operator.buildObject.contract.slotAt (2 * index + 1) = some (.any "value") := by
  cases index with
  | zero => rfl
  | succ index =>
      have hodd : (2 * index + 2 + 1) % 2 = 1 := by omega
      simp [Operator.contract, Contract.slotAt, Contract.isVariadic, hodd, Nat.mul_add]

theorem operandFault?_key (index : Nat) (key : String) :
    operandFault? .buildObject (2 * index) (textOperand key) = none := by
  rw [operandFault?, slotAt_key]
  rfl

theorem operandsFault?_pairOperands (pairs : List (String × Expr)) (index : Nat) :
    operandsFault? .buildObject (2 * index) (pairOperands pairs) = none ↔
      ∀ pair ∈ pairs, pair.2.isEmptyList = false := by
  induction pairs generalizing index with
  | nil => simp [pairOperands, operandsFault?]
  | cons pair rest ih =>
      obtain ⟨key, value⟩ := pair
      rw [pairOperands_cons, operandsFault?, operandFault?_key, operandsFault?,
        operandFault?_any (slotAt_value index), List.forall_mem_cons]
      cases hempty : value.isEmptyList with
      | true => simp
      | false => simpa [hempty, Nat.mul_add] using ih (index + 1)

theorem buildObject_eq_ok {pairs : List (String × Expr)} {e : Expr} :
    buildObject pairs = .ok e ↔
      (pairs ≠ [] ∧ ∀ pair ∈ pairs, pair.2.isEmptyList = false) ∧
        e = .operation .buildObject (pairOperands pairs) := by
  have hadmits : Operator.buildObject.contract.admits (pairOperands pairs).length = true ↔
      pairs ≠ [] := by
    have hleast : Operator.buildObject.contract.admits (2 * pairs.length) = true ↔
        2 ≤ 2 * pairs.length := by
      rw [Contract.admits, Bool.and_eq_true, decide_eq_true_iff]
      exact and_iff_left rfl
    rw [length_pairOperands, hleast, ← List.length_pos_iff]
    omega
  have hfaults := operandsFault?_pairOperands pairs 0
  rw [buildObject, apply_eq_ok_iff]
  refine and_congr_left fun _ => ?_
  change applicationFault? .buildObject (pairOperands pairs) = none ↔ _
  rw [applicationFault?, ← hadmits, ← hfaults, Nat.mul_zero]
  split <;> simp_all

/-! ## Evaluating -/

/-- The values of pairs in turn, or the first failure. -/
def evaluatePairs (row : Row) :
    List (String × Expr) → Except EvaluationFault (List (String × Datum))
  | [] => .ok []
  | (key, value) :: rest => do
    let datum ← value.evaluate row
    let data ← evaluatePairs row rest
    return (key, datum) :: data

/-- The value of a pair fails, and none before it does. -/
def FailsFirst (row : Row) (pairs : List (String × Expr)) (fault : EvaluationFault) : Prop :=
  ∃ before key value after, pairs = before ++ (key, value) :: after ∧
    (∀ pair ∈ before, ∃ datum, pair.2.evaluate row = .ok datum) ∧
    value.evaluate row = .error fault

variable {row : Row}

theorem evaluatePairs_eq_ok {pairs : List (String × Expr)} {data : List (String × Datum)} :
    evaluatePairs row pairs = .ok data ↔
      List.Forall₂ (fun pair entry => entry.1 = pair.1 ∧ pair.2.evaluate row = .ok entry.2)
        pairs data := by
  induction pairs generalizing data with
  | nil => cases data <;> simp [evaluatePairs]
  | cons pair rest ih =>
      obtain ⟨key, value⟩ := pair
      rw [evaluatePairs, bind_eq_ok, List.forall₂_cons_left_iff]
      constructor
      · rintro ⟨datum, hdatum, hrest⟩
        obtain ⟨others, hothers, hdata⟩ := bind_eq_ok.1 hrest
        cases hdata
        exact ⟨(key, datum), others, ⟨rfl, hdatum⟩, ih.1 hothers, rfl⟩
      · rintro ⟨⟨_, datum⟩, others, ⟨rfl, hdatum⟩, hothers, rfl⟩
        exact ⟨datum, hdatum, bind_eq_ok.2 ⟨others, ih.2 hothers, rfl⟩⟩

theorem failsFirst_cons_of_error {key : String} {value : Expr} {rest : List (String × Expr)}
    {fault other : EvaluationFault} (h : value.evaluate row = .error fault) :
    FailsFirst row ((key, value) :: rest) other ↔ fault = other := by
  constructor
  · rintro ⟨before, _, _, _, hpairs, hbefore, hfault⟩
    cases before with
    | nil =>
        cases hpairs
        exact Except.error.inj (h.symm.trans hfault)
    | cons first before =>
        cases hpairs
        obtain ⟨datum, hdatum⟩ := hbefore _ List.mem_cons_self
        cases h.symm.trans hdatum
  · rintro rfl
    exact ⟨[], key, value, rest, rfl, nofun, h⟩

theorem failsFirst_cons_of_ok {key : String} {value : Expr} {rest : List (String × Expr)}
    {fault : EvaluationFault} {datum : Datum} (h : value.evaluate row = .ok datum) :
    FailsFirst row ((key, value) :: rest) fault ↔ FailsFirst row rest fault := by
  constructor
  · rintro ⟨before, name, later, after, hpairs, hbefore, hfault⟩
    cases before with
    | nil =>
        cases hpairs
        cases h.symm.trans hfault
    | cons first before =>
        cases hpairs
        exact ⟨before, name, later, after, rfl, (List.forall_mem_cons.1 hbefore).2, hfault⟩
  · rintro ⟨before, name, later, after, rfl, hbefore, hfault⟩
    exact ⟨(key, value) :: before, name, later, after, rfl,
      List.forall_mem_cons.2 ⟨⟨datum, h⟩, hbefore⟩, hfault⟩

theorem evaluatePairs_eq_error {pairs : List (String × Expr)} {fault : EvaluationFault} :
    evaluatePairs row pairs = .error fault ↔ FailsFirst row pairs fault := by
  induction pairs with
  | nil => simp [evaluatePairs, FailsFirst]
  | cons pair rest ih =>
      obtain ⟨key, value⟩ := pair
      cases hvalue : value.evaluate row with
      | error first =>
          rw [failsFirst_cons_of_error hvalue, evaluatePairs, hvalue]
          exact Except.error.injEq first fault ▸ Iff.rfl
      | ok datum =>
          rw [failsFirst_cons_of_ok hvalue, ← ih, evaluatePairs, hvalue]
          cases evaluatePairs row rest <;> simp [bind, Except.bind, pure, Except.pure]

theorem exists_evaluatePairs {pairs : List (String × Expr)}
    (h : ∀ pair ∈ pairs, ∃ datum, pair.2.evaluate row = .ok datum) :
    ∃ data, evaluatePairs row pairs = .ok data := by
  have hdata : ∀ pair ∈ pairs, ∃ entry : String × Datum,
      entry.1 = pair.1 ∧ pair.2.evaluate row = .ok entry.2 := fun pair hmem =>
    (h pair hmem).imp' (pair.1, ·) fun _ hdatum => ⟨rfl, hdatum⟩
  exact (exists_forall₂ hdata).imp fun _ => evaluatePairs_eq_ok.2

/-- The entries that are put into an object, repeated keys and all. -/
def fieldsOf (data : List (String × Datum)) : List (String × Document) :=
  data.map fun (key, datum) => (key, datum.toDocument)

theorem entries_flatMap (data : List (String × Datum)) :
    Operator.entries (data.flatMap fun (key, datum) => [.text key, datum]) =
      .ok (fieldsOf data) := by
  induction data with
  | nil => rfl
  | cons entry rest ih =>
      obtain ⟨key, datum⟩ := entry
      have hcons : (((key, datum) :: rest).flatMap fun (key, datum) => [Datum.text key, datum]) =
          .text key :: datum :: rest.flatMap fun (key, datum) => [.text key, datum] := rfl
      rw [hcons, Operator.entries, ih]
      rfl

theorem objectOf_flatMap (data : List (String × Datum)) :
    Operator.objectOf (data.flatMap fun (key, datum) => [.text key, datum]) =
      .ok (.json (.object (Keyed.ofList (fieldsOf data)))) := by
  have heven : (data.flatMap fun (key, datum) => [Datum.text key, datum]).length % 2 = 0 := by
    simp [List.length_flatMap]
  rw [Operator.objectOf, if_pos heven, entries_flatMap]
  rfl

theorem collect_pairOperands (pairs : List (String × Expr)) :
    Outcome.collect ((pairOperands pairs).map (evaluate row)) =
      (evaluatePairs row pairs).map (·.flatMap fun (key, datum) => [.text key, datum]) := by
  induction pairs with
  | nil => rfl
  | cons pair rest ih =>
      obtain ⟨key, value⟩ := pair
      rw [pairOperands_cons, List.map_cons, List.map_cons, evaluate_textOperand,
        Outcome.collect, Outcome.collect, ih, evaluatePairs]
      cases value.evaluate row with
      | error fault => rfl
      | ok datum => cases evaluatePairs row rest <;> rfl

theorem evaluate_pairOperands (pairs : List (String × Expr)) :
    (operation .buildObject (pairOperands pairs)).evaluate row =
      (evaluatePairs row pairs).map fun data =>
        .json (.object (Keyed.ofList (fieldsOf data))) := by
  rw [evaluate, evaluateAll_eq_map, Operator.evaluate, collect_pairOperands]
  cases evaluatePairs row pairs with
  | error fault => rfl
  | ok data => exact objectOf_flatMap data

/-! ## Keys and their last values -/

theorem map_fst_fieldsOf {pairs : List (String × Expr)} {data : List (String × Datum)}
    (h : evaluatePairs row pairs = .ok data) :
    (fieldsOf data).map Prod.fst = pairs.map Prod.fst := by
  have hkeys := (evaluatePairs_eq_ok.1 h).imp fun _ _ hentry => hentry.1
  rw [fieldsOf, List.map_map, ← List.forall₂_eq_eq_eq, List.forall₂_map_left_iff,
    List.forall₂_map_right_iff]
  exact hkeys.flip

theorem mem_keys_ofList {pairs : List (String × Expr)} {data : List (String × Datum)}
    (h : evaluatePairs row pairs = .ok data) (key : String) :
    key ∈ Keyed.keys (Keyed.ofList (fieldsOf data)) ↔ key ∈ pairs.map Prod.fst := by
  rw [Keyed.ofList, Keyed.mem_keys_merge, map_fst_fieldsOf h]
  exact or_iff_left List.not_mem_nil

theorem last?_fieldsOf {pairs : List (String × Expr)} {data : List (String × Datum)}
    (h : evaluatePairs row pairs = .ok data) {key : String} {value : Expr}
    (hlast : Keyed.last? pairs key = some value) {datum : Datum}
    (hdatum : value.evaluate row = .ok datum) :
    Keyed.last? (fieldsOf data) key = some datum.toDocument := by
  rw [evaluatePairs_eq_ok] at h
  induction h with
  | nil => cases hlast
  | @cons pair entry rest others hentry hrest ih =>
      have hfields : fieldsOf (entry :: others) =
          (entry.1, entry.2.toDocument) :: fieldsOf others := rfl
      have hkeys := map_fst_fieldsOf (evaluatePairs_eq_ok.2 hrest)
      rw [Keyed.last?_cons] at hlast
      rw [hfields, Keyed.last?_cons]
      cases hlater : Keyed.last? rest key with
      | some later =>
          rw [hlater, Option.some_or, Option.some_inj] at hlast
          subst hlast
          rw [ih hlater, Option.some_or]
      | none =>
          have hnone : key ∉ rest.map Prod.fst := by
            rw [← Keyed.last?_isSome_iff, hlater]
            exact nofun
          rw [hlater, Option.none_or] at hlast
          rw [Keyed.last?_eq_none (hkeys ▸ hnone), Option.none_or, hentry.1]
          split at hlast
          · rename_i hkey
            cases hlast
            rw [if_pos hkey, Except.ok.inj (hentry.2.symm.trans hdatum)]
          · cases hlast

theorem evaluate_keys {e : Expr} {fields : Keyed Document}
    (h : e.evaluate row = .ok (.json (.object fields))) :
    (operation .keys [e]).evaluate row = .ok (.array (fields.keys.map .string)) := by
  rw [evaluate, evaluateAll, evaluateAll, h]
  rfl

/-! ## Parameters -/

theorem constants_pairOperands (pairs : List (String × Expr)) :
    (operation .buildObject (pairOperands pairs)).constants =
      pairs.flatMap fun (key, value) => Constant.text key :: value.constants := by
  rw [constants]
  induction pairs with
  | nil => rfl
  | cons pair rest ih =>
      obtain ⟨key, value⟩ := pair
      rw [pairOperands_cons, constantsAll, constantsAll, ih]
      rfl

theorem wellFormed_pairOperands {pairs : List (String × Expr)}
    (h : ∀ pair ∈ pairs, pair.2.WellFormed) : AllWellFormed (pairOperands pairs) := by
  rw [allWellFormed_iff]
  intro operand hmem
  obtain ⟨⟨key, value⟩, hpair, hoperand⟩ := List.mem_flatMap.1 hmem
  rcases List.mem_pair.1 hoperand with rfl | rfl
  · exact wellFormed_constant _
  · exact h _ hpair

theorem exists_postgres_compile (style : Placeholder) {e : Expr} (he : e.WellFormed) :
    ∃ statement, Dialect.postgres.compile style e = .ok statement := by
  obtain ⟨draft, hdraft, -⟩ := Dialect.postgres_draft_parameters he
  exact ⟨_, Dialect.compile_eq_ok.2 ⟨draft, hdraft, rfl⟩⟩

/-- The parameters of the values, each compiled alone, with the keys before them. -/
theorem flatMap_alone {style : Placeholder} {pairs : List (String × Expr)}
    (hpairs : ∀ pair ∈ pairs, pair.2.WellFormed) {alone : List Statement}
    (halone : List.Forall₂ (fun pair own => Dialect.postgres.compile style pair.2 = .ok own)
      pairs alone) :
    ((pairs.zip alone).flatMap fun (pair, own) => Constant.text pair.1 :: own.parameters) =
      pairs.flatMap fun (key, value) => Constant.text key :: value.constants := by
  induction halone with
  | nil => rfl
  | @cons pair own rest others hown hothers ih =>
      obtain ⟨hvalue, hrest⟩ := List.forall_mem_cons.1 hpairs
      have hparameters := Dialect.postgres_compile_constants hvalue hown
      rw [List.zip_cons_cons, List.flatMap_cons, ih hrest, List.flatMap_cons]
      exact congrArg (Constant.text pair.1 :: · ++ _) hparameters

/-- An object is built of any pairs but none and those with an empty value list.  It fails
with the first value that fails.  If none does, its keys are those of the pairs, each has
the document of its last value, and the keys are listed once in the order of their bytes.
In PostgreSQL the parameters of each pair are its key as a text and then those of its
value. -/
theorem built_objects (pairs : List (String × Expr)) :
    ((∃ e, buildObject pairs = .ok e) ↔
      pairs ≠ [] ∧ ∀ pair ∈ pairs, pair.2.isEmptyList = false) ∧
    ∀ e, buildObject pairs = .ok e →
      (∀ row fault, e.evaluate row = .error fault ↔ FailsFirst row pairs fault) ∧
      (∀ row, (∀ pair ∈ pairs, ∃ datum, pair.2.evaluate row = .ok datum) →
        ∃ fields, e.evaluate row = .ok (.json (.object fields)) ∧
          (∀ key, key ∈ Keyed.keys fields ↔ key ∈ pairs.map Prod.fst) ∧
          (∀ key value datum, Keyed.last? pairs key = some value →
            value.evaluate row = .ok datum →
              Keyed.find? fields key = some datum.toDocument) ∧
          (∃ listed, keys e = .ok listed ∧
            listed.evaluate row = .ok (.array ((Keyed.keys fields).map .string))) ∧
          (Keyed.keys fields).Pairwise fun first second =>
            Text.bytes first < Text.bytes second) ∧
      ∀ style, (∀ pair ∈ pairs, pair.2.WellFormed) →
        ∃ statement alone, Dialect.postgres.compile style e = .ok statement ∧
          List.Forall₂
            (fun pair own => Dialect.postgres.compile style pair.2 = .ok own) pairs alone ∧
          statement.parameters = (pairs.zip alone).flatMap fun (pair, own) =>
            Constant.text pair.1 :: own.parameters := by
  constructor
  · simp only [buildObject_eq_ok, exists_and_left, exists_eq, and_true]
  intro e he
  obtain ⟨-, rfl⟩ := buildObject_eq_ok.1 he
  refine ⟨?_, ?_, ?_⟩
  · intro row fault
    rw [evaluate_pairOperands, map_eq_error, evaluatePairs_eq_error]
  · intro row hvalues
    obtain ⟨data, hdata⟩ := exists_evaluatePairs hvalues
    have hvalue : (operation .buildObject (pairOperands pairs)).evaluate row =
        .ok (.json (.object (Keyed.ofList (fieldsOf data)))) := by
      rw [evaluate_pairOperands, hdata]
      rfl
    refine ⟨_, hvalue, mem_keys_ofList hdata, ?_, ?_, ?_⟩
    · intro key value datum hlast hdatum
      rw [Keyed.ofList, Keyed.find?_merge_last, last?_fieldsOf hdata hlast hdatum]
      rfl
    · exact ⟨_, apply_one_json rfl rfl rfl, evaluate_keys hvalue⟩
    · simp only [Text.bytes_lt_iff]
      exact List.pairwise_map.2 (Keyed.ordered_ofList (fieldsOf data))
  · intro style hpairs
    have hobject := WellFormed.apply (wellFormed_pairOperands hpairs) he
    obtain ⟨statement, hstatement⟩ := exists_postgres_compile style hobject
    obtain ⟨alone, halone⟩ := exists_forall₂ fun pair hmem =>
      exists_postgres_compile style (hpairs pair hmem)
    refine ⟨statement, alone, hstatement, halone, ?_⟩
    rw [Dialect.postgres_compile_constants hobject hstatement, constants_pairOperands,
      flatMap_alone hpairs halone]

/-- A key that is given three times, last in an object of its own, and SQL NULL. -/
theorem built_objects_repeated_key :
    let inner : Expr := .operation .buildObject [textOperand "x", .constant (.text "v")]
    let pairs : List (String × Expr) :=
      [("b", .constant (.integer 1)), ("a", .constant .null),
        ("b", .column ⟨none, ["missing"], .jsonb⟩), ("b", inner)]
    ∃ e fields, buildObject pairs = .ok e ∧
      e.evaluate (fun _ => .null) = .ok (.json (.object fields)) ∧
      Keyed.find? fields "a" = some .null ∧
      Keyed.find? fields "b" = some (.object [("x", .string "v")]) ∧
      ∃ statement, Dialect.postgres.compile .numbered e = .ok statement ∧
        statement.parameters = [.text "b", .integer 1, .text "a", .null, .text "b", .text "b",
          .text "x", .text "v"] := by
  intro inner pairs
  obtain ⟨hbuilt, hobject⟩ := built_objects pairs
  have hpairs : pairs ≠ [] ∧ ∀ pair ∈ pairs, pair.2.isEmptyList = false := by
    simp only [pairs, List.forall_mem_cons]
    exact ⟨nofun, rfl, rfl, rfl, rfl, nofun⟩
  have hwell : ∀ pair ∈ pairs, pair.2.WellFormed := by
    simp only [pairs, List.forall_mem_cons]
    exact ⟨trivial, trivial, trivial, ⟨rfl, trivial, trivial, trivial⟩, nofun⟩
  have hinner : inner.evaluate (fun _ => .null) = .ok (.json (.object [("x", .string "v")])) := rfl
  have hdata : ∀ pair ∈ pairs, ∃ datum, pair.2.evaluate (fun _ => .null) = .ok datum := by
    simp only [pairs, List.forall_mem_cons]
    exact ⟨⟨_, rfl⟩, ⟨_, rfl⟩, ⟨_, rfl⟩, ⟨_, hinner⟩, nofun⟩
  obtain ⟨e, he⟩ := hbuilt.2 hpairs
  obtain ⟨-, hvalues, hparameters⟩ := hobject e he
  obtain ⟨fields, hvalue, -, hlast, -⟩ := hvalues (fun _ => .null) hdata
  obtain ⟨statement, alone, hstatement, halone, hown⟩ := hparameters .numbered hwell
  exact ⟨e, fields, he, hvalue, hlast "a" (.constant .null) .null rfl rfl,
    hlast "b" inner _ rfl hinner, statement, hstatement,
    hown.trans (flatMap_alone hwell halone)⟩

end Expr

end JsonbAlgebra
