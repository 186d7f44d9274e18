import JsonbAlgebra.Evaluation
import JsonbAlgebra.Expr.Predicate
import JsonbAlgebra.Proofs.LiteralUpdates

/-!
# The form of a bound value

A parameter and the datum that stands for it in evaluation are each SQL NULL, an
array, or one single value.  Binding keeps to the form in which a constant is
written, while evaluation lets the type say what a scalar is: the document null is
NULL under every type but jsonb, and a list of documents is an array under an array
type.  Apart from these scalars a constant has one form in both.

Calls that take a literal of a column's type make no such scalars, and alternatives
of a membership never have an array type.
-/

namespace JsonbAlgebra

inductive ValueForm where
  | null
  | single
  | array
  deriving DecidableEq, Repr

def BoundValue.form : BoundValue → ValueForm
  | .null => .null
  | .scalar _ => .single
  | .array _ => .array

def Datum.form : Datum → ValueForm
  | .null => .null
  | .array _ => .array
  | _ => .single

/-- A scalar that its declared type makes NULL or an array. -/
inductive Document.Recast : Document → Option SqlType → Prop
  | null {type : SqlType} (htype : type ≠ .jsonb) : Recast .null (some type)
  | array (items : List Document) (element : SqlType) :
      Recast (.array items) (some (.array element))

def Constant.IsRecast (constant : Constant) : Prop :=
  ∃ value, constant.literal = .scalar value ∧ value.Recast constant.declared

/-! ## Scalars -/

namespace Datum

theorem form_of_ofTyped {type : SqlType} {value : Document} {datum : Datum}
    (h : ofTyped type value = .ok datum) (hrecast : ¬ value.Recast (some type)) :
    datum.form = .single := by
  by_cases hjsonb : type = .jsonb
  · subst hjsonb
    cases h
    rfl
  · have hpresent : value ≠ .null := by
      rintro rfl
      exact hrecast (.null hjsonb)
    rw [ofTyped.eq_def] at h
    split at h
    · cases h
      rfl
    · exact absurd rfl hpresent
    · cases h
      rfl
    · obtain ⟨word, -, rfl⟩ := map_eq_ok.1 h
      rfl
    · obtain ⟨word, -, rfl⟩ := map_eq_ok.1 h
      rfl
    · obtain ⟨number, -, rfl⟩ := map_eq_ok.1 h
      rfl
    · obtain ⟨number, -, rfl⟩ := map_eq_ok.1 h
      rfl
    · obtain ⟨truth, -, rfl⟩ := map_eq_ok.1 h
      rfl
    · exact absurd (.array _ _) hrecast
    · cases h

theorem form_ofUntyped {value : Document} (hpresent : value ≠ .null) :
    (ofUntyped value).form = .single := by
  cases value with
  | null => exact absurd rfl hpresent
  | number n =>
      rw [ofUntyped]
      cases n.word? <;> rfl
  | _ => rfl

end Datum

namespace Binding

theorem ofScalar_eq_ok {position : Nat} {declared : Option SqlType} {value : Document}
    {binding : Binding} (h : ofScalar position declared value = .ok binding) :
    binding.value = .scalar value ∧ declared.or (typeOf? value) = some binding.type := by
  rw [ofScalar] at h
  cases htype : declared.or (typeOf? value) with
  | none =>
      rw [htype] at h
      cases h
  | some type =>
      rw [htype] at h
      cases h
      exact ⟨rfl, rfl⟩

/-- A scalar is one single value to both, unless its type recasts it.  Without a
type a null is not bound at all. -/
theorem form_ofScalar {position : Nat} {declared : Option SqlType} {value : Document}
    {binding : Binding} {datum : Datum} (hbinding : ofScalar position declared value = .ok binding)
    (hdatum : Datum.ofScalar declared value = .ok datum) (hrecast : ¬ value.Recast declared) :
    binding.value.form = datum.form := by
  obtain ⟨hvalue, htype⟩ := ofScalar_eq_ok hbinding
  have hsingle : datum.form = .single := by
    cases declared with
    | some type => exact Datum.form_of_ofTyped hdatum hrecast
    | none =>
        have hpresent : value ≠ .null := by
          rintro rfl
          cases htype
        cases hdatum
        exact Datum.form_ofUntyped hpresent
  rw [hvalue, hsingle]
  rfl

theorem ofList_eq_ok {declared : Option SqlType} {position : Nat} {values : List Document}
    {bindings : List Binding} (h : ofList declared position values = .ok bindings) :
    List.Forall₂ (fun value binding => ∃ place, ofScalar place declared value = .ok binding)
      values bindings := by
  induction values generalizing position bindings with
  | nil =>
      cases h
      exact .nil
  | cons value values ih =>
      obtain ⟨first, hfirst, h⟩ := bind_eq_ok.1 h
      obtain ⟨others, hothers, h⟩ := bind_eq_ok.1 h
      cases h
      exact .cons ⟨position, hfirst⟩ (ih hothers)

/-! ## Constants -/

theorem form_ofArray {position : Nat} {declared : Option SqlType} {items : List Document}
    {binding : Binding} {datum : Datum} (hbinding : ofArray position declared items = .ok binding)
    (hdatum : Constant.datum ⟨.array items, declared⟩ = .ok datum) :
    binding.value.form = datum.form := by
  by_cases hjsonb : declared = some .jsonb
  · subst hjsonb
    cases hbinding
    cases hdatum
    rfl
  · rw [Constant.datum] at hdatum
    dsimp only at hdatum
    rw [if_neg hjsonb] at hdatum
    cases hdatum
    rw [ofArray.eq_def] at hbinding
    split at hbinding
    · exact absurd rfl hjsonb
    · cases hbinding
      rfl
    · split at hbinding
      · cases hbinding
        rfl
      · cases hbinding

theorem form_ofConstant {position : Nat} {constant : Constant} {bindings : List Binding}
    {datum : Datum} (hlist : constant.isValueList = false)
    (hbindings : ofConstant position constant = .ok bindings)
    (hdatum : constant.datum = .ok datum) (hrecast : ¬ constant.IsRecast) :
    ∃ binding, bindings = [binding] ∧ binding.value.form = datum.form := by
  obtain ⟨literal, declared⟩ := constant
  cases literal with
  | null =>
      obtain ⟨binding, hbinding, rfl⟩ := map_eq_ok.1 hbindings
      refine ⟨binding, rfl, ?_⟩
      cases hdatum
      cases declared with
      | none => cases hbinding
      | some type =>
          cases hbinding
          rfl
  | scalar value =>
      obtain ⟨binding, hbinding, rfl⟩ := map_eq_ok.1 hbindings
      exact ⟨binding, rfl, form_ofScalar hbinding hdatum fun h => hrecast ⟨value, rfl, h⟩⟩
  | array items =>
      obtain ⟨binding, hbinding, rfl⟩ := map_eq_ok.1 hbindings
      exact ⟨binding, rfl, form_ofArray hbinding hdatum⟩
  | list values => cases hlist

end Binding

/-! ## Array types -/

namespace Datum

theorem form_of_ofTyped_array {element : SqlType} {value : Document} {datum : Datum}
    (h : ofTyped (.array element) value = .ok datum) : datum.form ≠ .single := by
  cases value with
  | null =>
      cases h
      exact nofun
  | array items =>
      cases h
      exact nofun
  | _ => cases h

end Datum

theorem Constant.form_datum {constant : Constant} {type : SqlType} {datum : Datum}
    (hdeclared : constant.declared = some type) (harray : type.isArray = true)
    (h : constant.datum = .ok datum) : datum.form ≠ .single := by
  obtain ⟨literal, declared⟩ := constant
  subst hdeclared
  cases type with
  | array element =>
      cases literal with
      | null =>
          cases h
          exact nofun
      | scalar value => exact Datum.form_of_ofTyped_array h
      | array items =>
          cases h
          exact nofun
      | list values => cases h
  | _ => cases harray

theorem Constant.not_isRecast_ofLiteral (type : SqlType) (value : Document) :
    ¬ (ofLiteral type value).IsRecast := by
  rintro ⟨scalar, hliteral, hrecast⟩
  rw [declared_ofLiteral] at hrecast
  cases hrecast with
  | null =>
      cases value with
      | array items =>
          rw [ofLiteral] at hliteral
          split at hliteral <;> cases hliteral
      | _ => cases hliteral
  | array items element =>
      cases value with
      | array items => cases hliteral
      | _ => cases hliteral

/-- Alternatives of a membership are a value list, whose type is no array. -/
theorem Expr.alternatives_eq (subject : Expr) (values : List Document) :
    ∃ declared, subject.alternatives values = ⟨.list values, declared⟩ ∧
      ∀ type, declared = some type → type.isArray = false := by
  rw [alternatives]
  split
  · rename_i type hfilter
    refine ⟨some type, rfl, ?_⟩
    intro other hother
    cases hother
    have hkept := (Option.filter_eq_some_iff.1 hfilter).2
    rw [Bool.and_eq_true, Bool.not_eq_true'] at hkept
    exact hkept.1
  · exact ⟨none, rfl, nofun⟩

namespace Binding

theorem isArray_typeOf? {value : Document} {type : SqlType} (h : typeOf? value = some type) :
    type.isArray = false := by
  cases value with
  | number n =>
      cases h
      split <;> rfl
  | boolean b =>
      cases h
      rfl
  | string s =>
      cases h
      rfl
  | _ => cases h

theorem isArray_type_of_alternatives {position : Nat} {subject : Expr} {values : List Document}
    {bindings : List Binding}
    (h : ofConstant position (subject.alternatives values) = .ok bindings) :
    ∀ binding ∈ bindings, binding.type.isArray = false := by
  obtain ⟨declared, halternatives, hdeclared⟩ := subject.alternatives_eq values
  rw [halternatives] at h
  refine forall_mem_of_forall₂ ((ofList_eq_ok h).imp ?_)
  rintro value binding ⟨place, hbinding⟩
  obtain ⟨-, htype⟩ := ofScalar_eq_ok hbinding
  cases declared with
  | some type =>
      cases htype
      exact hdeclared _ rfl
  | none => exact isArray_typeOf? htype

theorem form_of_ofLiteral {position : Nat} {type : SqlType} {value : Document}
    {bindings : List Binding} {datum : Datum}
    (hbindings : ofConstant position (.ofLiteral type value) = .ok bindings)
    (hdatum : (Constant.ofLiteral type value).datum = .ok datum) :
    ∀ binding ∈ bindings, binding.type.isArray = true → binding.value.form ≠ .single := by
  obtain ⟨-, hbinds⟩ := Constant.bindsAs_ofLiteral type value
  obtain ⟨binding, rfl, hform⟩ := form_ofConstant (Constant.isValueList_ofLiteral type value)
    hbindings hdatum (Constant.not_isRecast_ofLiteral type value)
  have hbinding := List.head_eq_of_cons_eq (Except.ok.inj (hbindings.symm.trans (hbinds position)))
  intro other hmem harray
  obtain rfl := List.mem_singleton.1 hmem
  rw [hform]
  rw [hbinding] at harray
  exact Constant.form_datum (Constant.declared_ofLiteral type value) harray hdatum

/-- Every constant that is bound and has a datum, other than a value list, has one
form in both, and so has every element of a value list, unless it is a scalar that
its type recasts.  The bindings of a null or of a literal of a column's type are no
single values under an array type, and those of alternatives have no array type. -/
theorem form_eq_form_datum :
    (∀ position constant bindings datum, constant.isValueList = false →
      ofConstant position constant = .ok bindings → constant.datum = .ok datum →
      ¬ constant.IsRecast →
      ∃ binding, bindings = [binding] ∧ binding.value.form = datum.form) ∧
    (∀ position values declared bindings,
      ofConstant position ⟨.list values, declared⟩ = .ok bindings →
      List.Forall₂ (fun value binding => ∀ datum, Datum.ofScalar declared value = .ok datum →
        ¬ value.Recast declared → binding.value.form = datum.form) values bindings) ∧
    (∀ column, ∃ constant, Change.setNull column = .set column (.constant constant) ∧
      ∀ position, ofConstant position constant = .ok [⟨position, .null, column.type⟩]) ∧
    (∀ column value, ∃ constant,
      Change.setValue column value = .set column (.constant constant) ∧ ¬ constant.IsRecast ∧
      ∀ position bindings datum, ofConstant position constant = .ok bindings →
        constant.datum = .ok datum →
        ∀ binding ∈ bindings, binding.type.isArray = true → binding.value.form ≠ .single) ∧
    (∀ subject values e, Expr.isIn subject values = .ok e → ∃ constant,
      e = .operation .inList [subject, .constant constant] ∧
      ∀ position bindings, ofConstant position constant = .ok bindings →
        ∀ binding ∈ bindings, binding.type.isArray = false) := by
  refine ⟨?_, ?_, ?_, ?_, ?_⟩
  · intro position constant bindings datum hlist hbindings hdatum hrecast
    exact form_ofConstant hlist hbindings hdatum hrecast
  · intro position values declared bindings hbindings
    refine (ofList_eq_ok hbindings).imp ?_
    rintro value binding ⟨place, hbinding⟩ datum hdatum hrecast
    exact form_ofScalar hbinding hdatum hrecast
  · intro column
    exact ⟨.typedNull column.type, rfl, (Constant.bindsAs_typedNull column.type).binding⟩
  · intro column value
    refine ⟨_, Change.setValue_eq column value, Constant.not_isRecast_ofLiteral _ _, ?_⟩
    intro position bindings datum hbindings hdatum
    exact form_of_ofLiteral hbindings hdatum
  · intro subject values e he
    obtain ⟨-, rfl⟩ := Expr.apply_eq_ok_iff.1 he
    exact ⟨_, rfl, fun position bindings h => isArray_type_of_alternatives h⟩

/-- A text declared as a number, an array column set to an array, and alternatives
of which one is no text. -/
theorem form_eq_form_datum_mixed :
    let number : Constant := .typed (.string "4") .bigint
    let tags : Column := ⟨none, "tags", .array .text⟩
    let texts := [Document.string "a", .boolean true]
    (ofConstant 1 number = .ok [⟨1, .scalar (.string "4"), .bigint⟩] ∧
      number.datum = .ok (.integer 4) ∧
      (BoundValue.scalar (.string "4")).form = (Datum.integer 4).form) ∧
    (∃ constant, Change.setValue tags (.array [.null]) = .set tags (.constant constant) ∧
      ofConstant 2 constant = .ok [⟨2, .array [.null], .array .text⟩] ∧
      (BoundValue.array [.null]).form ≠ .single) ∧
    (ofConstant 3 ⟨.list texts, some .text⟩ =
        .ok [⟨3, .scalar (.string "a"), .text⟩, ⟨4, .scalar (.boolean true), .text⟩] ∧
      (BoundValue.scalar (.boolean true)).form = (Datum.text "true").form) := by
  intro number tags texts
  obtain ⟨hconstant, hlist, -, hvalue, -⟩ := form_eq_form_datum
  refine ⟨⟨rfl, rfl, ?_⟩, ?_, rfl, ?_⟩
  · have hplain : ¬ number.IsRecast := by
      rintro ⟨value, hliteral, hrecast⟩
      cases hliteral
      cases hrecast
    obtain ⟨binding, hbinding, hform⟩ := hconstant 1 number _ _ rfl rfl rfl hplain
    cases hbinding
    exact hform
  · obtain ⟨constant, hset, -, hform⟩ := hvalue tags (.array [.null])
    cases hset
    exact ⟨_, rfl, rfl, hform 2 _ _ rfl rfl _ List.mem_cons_self rfl⟩
  · obtain ⟨-, hothers⟩ := List.forall₂_cons.1 (hlist 3 texts (some .text) _ rfl)
    exact (List.forall₂_cons.1 hothers).1 _ rfl nofun

/-- An array set with an array type, and a null among alternatives of texts: an
array and NULL in evaluation, and scalars when they are bound. -/
theorem form_ne_form_datum :
    let tags : Column := ⟨none, "tags", .array .text⟩
    let array : Constant := .typed (.array [.string "a"]) (.array .text)
    (Change.setTyped tags (.array [.string "a"]) (.array .text) = .set tags (.constant array) ∧
      ofConstant 1 array = .ok [⟨1, .scalar (.array [.string "a"]), .array .text⟩] ∧
      array.datum = .ok (.array [.string "a"]) ∧
      (BoundValue.scalar (.array [.string "a"])).form ≠ (Datum.array [.string "a"]).form) ∧
    (Expr.alternatives (.column ⟨none, ["name"], .text⟩) [.null] = ⟨.list [.null], some .text⟩ ∧
      ofConstant 1 ⟨.list [.null], some .text⟩ = .ok [⟨1, .scalar .null, .text⟩] ∧
      Datum.ofScalar (some .text) .null = .ok .null ∧
      (BoundValue.scalar .null).form ≠ Datum.null.form) := by
  exact ⟨⟨rfl, rfl, rfl, nofun⟩, rfl, rfl, rfl, nofun⟩

end Binding

end JsonbAlgebra
