import JsonbAlgebra.Proofs.SlotBindings
import JsonbAlgebra.Proofs.ValueLists

/-!
# The tag of a bound type

The check of an operation asks a constant for its tag and binding gives it a type, each
by a rule of its own.  The two agree: a declared type has the tag of the constant, the
type of a scalar has the tag of the scalar, and the elements of an array have texts as
their common type exactly if there are elements and all of them are texts.  So a slot
that has accepted a constant accepts the type that the constant is bound as, and a
constant chooses the pattern for paths exactly if it is bound as an array of texts.
-/

namespace JsonbAlgebra

theorem SqlType.tag_array (element : SqlType) :
    (SqlType.array element).tag = if element = .text then .textArray else .array := by
  cases element <;> rfl

theorem SqlType.tag_eq_textArray_iff {type : SqlType} :
    type.tag = .textArray ↔ type = .array .text := by
  cases type with
  | array element =>
      rw [tag_array, SqlType.array.injEq]
      split <;> simp [*]
  | _ => exact ⟨nofun, nofun⟩

/-! ## Elements of arrays -/

namespace Binding

/-- The common type is of the kind of every element. -/
theorem kind?_of_foldlM_widen {element type : SqlType} {kind : Document.Kind}
    (helement : element.kind? = some kind) {values : List Document}
    (h : values.foldlM widen element = .ok type) : type.kind? = some kind :=
  foldlM_invariant (P := fun type => type.kind? = some kind)
    (fun _ _ _ _ hstep hkind => (widen_eq_ok hkind hstep).2) h helement

theorem kind?_of_elementType {items : List Document} {element : SqlType}
    (h : elementType items = .ok element) :
    items ≠ [] ∧ ∀ item ∈ items, element.kind? = some item.kind := by
  obtain ⟨kind, -, hne, hitems⟩ := exists_elementType_iff.1 ⟨element, h⟩
  refine ⟨hne, ?_⟩
  cases items with
  | nil => exact absurd rfl hne
  | cons first others =>
      rw [elementType] at h
      split at h
      · cases h
      · rename_i type htype
        have hfirst : first.kind = kind := hitems first List.mem_cons_self
        have hkind := kind?_of_foldlM_widen (kind?_of_typeOf? htype) h
        intro item hmem
        rw [hkind, hfirst, hitems item hmem]

theorem kind?_eq_string_iff {type : SqlType} : type.kind? = some .string ↔ type = .text := by
  cases type <;> simp [SqlType.kind?]

theorem isSome_text?_iff {value : Document} : value.text?.isSome = true ↔ value.kind = .string := by
  cases value <;> simp [Document.text?, Document.kind]

/-- Elements have texts as their common type exactly if all of them are texts. -/
theorem elementType_eq_text_iff {items : List Document} {element : SqlType}
    (h : elementType items = .ok element) :
    element = .text ↔ (!items.isEmpty && items.all fun item => item.text?.isSome) = true := by
  obtain ⟨hne, hkinds⟩ := kind?_of_elementType h
  rw [Bool.and_eq_true, Bool.not_eq_true', List.isEmpty_eq_false_iff, List.all_eq_true,
    and_iff_right hne, ← kind?_eq_string_iff]
  simp only [isSome_text?_iff]
  constructor
  · intro htext item hmem
    rw [hkinds item hmem, Option.some.injEq] at htext
    exact htext
  · intro hall
    obtain ⟨first, hfirst⟩ := List.exists_mem_of_ne_nil items hne
    rw [hkinds first hfirst, hall first hfirst]

/-! ## Constants -/

theorem tag_of_typeOf? {value : Document} {type : SqlType} (h : typeOf? value = some type) :
    type.tag = Constant.scalarTag value := by
  cases value with
  | number n =>
      cases h
      rw [Constant.scalarTag]
      split <;> rfl
  | boolean b => cases h; rfl
  | string s => cases h; rfl
  | _ => cases h

theorem tag_of_elementType {items : List Document} {element : SqlType}
    (h : elementType items = .ok element) :
    (SqlType.array element).tag = (Constant.array items).tag := by
  rw [SqlType.tag_array]
  exact if_congr (elementType_eq_text_iff h) rfl rfl

/-- A constant without a type has the tag of the type of its value's shape. -/
theorem tag_of_typing {constant : Constant} (hdeclared : constant.declared = none)
    {entry : Entry} (hentries : constant.entries = [entry])
    (hlist : constant.isValueList = false) {type : SqlType}
    (h : entry.value.typing = .ok type) : type.tag = constant.tag := by
  obtain ⟨literal, declared⟩ := constant
  subst hdeclared
  cases literal with
  | null =>
      cases hentries
      cases h
  | scalar value =>
      cases hentries
      rw [BoundValue.typing] at h
      cases htype : typeOf? value with
      | none =>
          rw [htype] at h
          cases h
      | some other =>
          rw [htype] at h
          cases h
          exact tag_of_typeOf? htype
  | array items =>
      cases hentries
      obtain ⟨element, helement, rfl⟩ := map_eq_ok.1 h
      exact tag_of_elementType helement
  | list values => cases hlist

end Binding

theorem Constant.exists_entries_eq {constant : Constant} (hlist : constant.isValueList = false) :
    ∃ entry, constant.entries = [entry] ∧ entry.declared = constant.declared := by
  obtain ⟨literal, declared⟩ := constant
  cases literal with
  | null => exact ⟨_, rfl, rfl⟩
  | scalar value => exact ⟨_, rfl, rfl⟩
  | array items =>
      simp only [entries]
      split
      · exact ⟨_, rfl, rfl⟩
      · exact ⟨_, rfl, rfl⟩
  | list values => cases hlist

theorem Dialect.takesPath_iff {operands : List Expr} {constant : Constant}
    (hoperand : operands[1]? = some (.constant constant)) :
    takesPath operands = true ↔ constant.tag = .textArray := by
  rw [takesPath, hoperand, Option.map_some, beq_iff_eq, Option.some.injEq, Expr.tag]

namespace Binding

/-- A constant other than a value list has one binding, with a type of its own tag. -/
theorem exists_ofConstant_eq {position : Nat} {constant : Constant} {bindings : List Binding}
    (hlist : constant.isValueList = false) (h : ofConstant position constant = .ok bindings) :
    ∃ binding, bindings = [binding] ∧ binding.type.tag = constant.tag := by
  obtain ⟨entry, hentries, hentry⟩ := Constant.exists_entries_eq hlist
  rw [ofConstant_eq_bindFrom, hentries, Entry.bindFrom_singleton] at h
  obtain ⟨binding, hbinding, rfl⟩ := map_eq_ok.1 h
  refine ⟨binding, rfl, ?_⟩
  rw [Entry.bindAt] at hbinding
  cases hdeclared : entry.declared with
  | some type =>
      rw [hdeclared] at hbinding
      cases hbinding
      exact (Constant.tag_of_declared (hentry.symm.trans hdeclared) hlist).symm
  | none =>
      rw [hdeclared] at hbinding
      cases htyping : entry.value.typing with
      | error shape =>
          rw [htyping] at hbinding
          cases hbinding
      | ok type =>
          rw [htyping] at hbinding
          cases hbinding
          exact tag_of_typing (hentry.symm.trans hdeclared) hentries hlist htyping

/-- The tag that a constant is checked with is the tag of the type it is bound as.  In
every operation that has passed its check, the slot of a constant accepts that type, and
the pattern for paths is chosen by a constant exactly if it is bound as an array of
texts. -/
theorem checked_tag_is_bound :
    (∀ position constant bindings, constant.isValueList = false →
      ofConstant position constant = .ok bindings →
      ∃ binding, bindings = [binding] ∧ binding.type.tag = constant.tag) ∧
    ∀ operator operands, (Expr.operation operator operands).WellFormed →
      ∀ index constant position bindings, operands[index]? = some (.constant constant) →
        constant.isValueList = false → ofConstant position constant = .ok bindings →
        ∃ binding slot, bindings = [binding] ∧ operator.contract.slotAt index = some slot ∧
          slot.accepts binding.type.tag = true ∧
          (index = 1 → ∀ dialect : Dialect,
            dialect.draft (.operation operator operands) =
              dialect.draftAll operands >>= fun drafts =>
                (dialect.template operator).fill operator
                  (decide (binding.type = .array .text)) drafts) ∧
          (index = 1 → ∀ (dialect : Dialect) (pattern : String),
            (dialect.template operator).pathPattern = some pattern →
            (dialect.template operator).chosen (Dialect.takesPath operands) =
              if binding.type = .array .text then pattern
              else (dialect.template operator).pattern) := by
  refine ⟨fun position constant bindings hlist h => exists_ofConstant_eq hlist h, ?_⟩
  intro operator operands hwell index constant position bindings hoperand hlist hbindings
  obtain ⟨binding, rfl, htag⟩ := exists_ofConstant_eq hlist hbindings
  obtain ⟨hadmits, haccepts⟩ :=
    Expr.applicationFault?_eq_none (Expr.wellFormed_operation_iff.1 hwell).1
  obtain ⟨hindex, -⟩ := List.getElem?_eq_some_iff.1 hoperand
  obtain ⟨slot, hslot⟩ := Operator.exists_slotAt hadmits hindex
  have haccept : slot.accepts constant.tag = true := haccepts index _ slot hoperand hslot
  have hpath : index = 1 →
      Dialect.takesPath operands = decide (binding.type = .array .text) := by
    rintro rfl
    rw [Bool.eq_iff_iff, Dialect.takesPath_iff hoperand, ← htag, SqlType.tag_eq_textArray_iff,
      decide_eq_true_iff]
  refine ⟨binding, slot, rfl, hslot, htag ▸ haccept, ?_, ?_⟩
  · intro hone dialect
    rw [Dialect.draft, hpath hone]
  · intro hone dialect pattern hpattern
    rw [hpath hone, Template.chosen, hpattern, Option.getD_some]
    simp only [decide_eq_true_eq]

/-- A key that is an array of texts without a declared type, in a dialect with a pattern
for paths, and an array of numbers of both kinds. -/
theorem checked_tag_is_bound_untyped :
    let path : Constant := .array [.string "a", .string "0"]
    let mixed : Constant := .array [.ofWord 1, .number (.real (.zero false))]
    let operands : List Expr := [.column ⟨none, ["doc"], .jsonb⟩, .constant path]
    ofConstant 2 path = .ok [⟨2, .array [.string "a", .string "0"], .array .text⟩] ∧
      Slot.key.accepts (SqlType.array .text).tag = true ∧
      (Dialect.postgres.template .get).chosen (Dialect.takesPath operands) =
        "(\x7b1\x7d #> \x7b2\x7d)" ∧
      ∃ bindings binding, ofConstant 1 mixed = .ok bindings ∧ bindings = [binding] ∧
        binding.type.tag = mixed.tag := by
  intro path mixed operands
  obtain ⟨hconstant, hoperation⟩ := checked_tag_is_bound
  have hwell : (Expr.operation .get operands).WellFormed := ⟨rfl, trivial, trivial, trivial⟩
  obtain ⟨binding, slot, hbinding, hslot, haccepts, -, hchosen⟩ :=
    hoperation .get operands hwell 1 path 2 _ rfl rfl rfl
  cases hbinding
  cases hslot
  obtain ⟨binding, hbinding, htag⟩ := hconstant 1 mixed _ rfl rfl
  exact ⟨rfl, haccepts, hchosen rfl .postgres _ rfl, _, binding, rfl, hbinding, htag⟩

end Binding

end JsonbAlgebra
