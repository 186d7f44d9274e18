import JsonbAlgebra.Proofs.SlotBindings

/-!
# The common type of the elements of an array

The elements are gone through from the left, with the type that fits all elements so far.
Only whole numbers have a type that fits into another one, that of real numbers, so the
common type is always the type of some element, and the types of the other elements fit
into it.  This says nothing about the order of the elements or how often one of them
occurs.
-/

namespace JsonbAlgebra.Binding

/-- Values of the first type can be written as values of the second. -/
def Fits (type wide : SqlType) : Prop :=
  type = wide ∨ type = .bigint ∧ wide = .double

/-- The least type that two types fit into, if there is one. -/
def join (type other : SqlType) : Option SqlType :=
  if type = other then some other
  else if isNumeric type && isNumeric other then some .double
  else none

/-- A type of one of the items that the types of all items fit into. -/
def IsCommon (type : SqlType) (items : List Document) : Prop :=
  (∃ item ∈ items, typeOf? item = some type) ∧
    ∀ item ∈ items, ∃ own, typeOf? item = some own ∧ Fits own type

/-! ## Two types -/

theorem isNumeric_iff {type : SqlType} :
    isNumeric type = true ↔ type = .bigint ∨ type = .double := by
  cases type <;> simp [isNumeric]

theorem Fits.refl (type : SqlType) : Fits type type :=
  .inl rfl

theorem Fits.of_ne {type wide : SqlType} (h : Fits type wide) (hne : type ≠ wide) :
    type = .bigint ∧ wide = .double :=
  h.resolve_left hne

theorem join_eq_some {type other wide : SqlType} :
    join type other = some wide ↔
      Fits type wide ∧ Fits other wide ∧ (type = wide ∨ other = wide) := by
  unfold join
  by_cases heq : type = other
  · subst heq
    rw [if_pos rfl, Option.some.injEq]
    constructor
    · rintro rfl
      exact ⟨.refl _, .refl _, .inl rfl⟩
    · rintro ⟨-, -, h | h⟩ <;> exact h
  · rw [if_neg heq]
    constructor
    · intro h
      split at h
      · rename_i hnumeric
        cases h
        rw [Bool.and_eq_true, isNumeric_iff, isNumeric_iff] at hnumeric
        rcases hnumeric with ⟨rfl | rfl, rfl | rfl⟩
        · exact absurd rfl heq
        · exact ⟨.inr ⟨rfl, rfl⟩, .refl _, .inr rfl⟩
        · exact ⟨.refl _, .inr ⟨rfl, rfl⟩, .inl rfl⟩
        · exact absurd rfl heq
      · cases h
    · rintro ⟨htype, hother, rfl | rfl⟩
      · obtain ⟨rfl, rfl⟩ := hother.of_ne (Ne.symm heq)
        rfl
      · obtain ⟨rfl, rfl⟩ := htype.of_ne heq
        rfl

theorem Fits.trans {first second third : SqlType} (hfirst : Fits first second)
    (hsecond : Fits second third) : Fits first third := by
  rcases hfirst with rfl | ⟨rfl, rfl⟩
  · exact hsecond
  · rcases hsecond with rfl | ⟨h, -⟩
    · exact .inr ⟨rfl, rfl⟩
    · cases h

theorem Fits.antisymm {type other : SqlType} (h : Fits type other) (hback : Fits other type) :
    type = other := by
  rcases h with rfl | ⟨rfl, rfl⟩
  · rfl
  · rcases hback with h | ⟨h, -⟩ <;> cases h

/-- Two types that fit into a third have a join, which is no greater. -/
theorem exists_join {type other wide : SqlType} (htype : Fits type wide)
    (hother : Fits other wide) :
    ∃ next, join type other = some next ∧ Fits next wide ∧
      (type = wide ∨ other = wide → next = wide) := by
  by_cases heq : type = other
  · subst heq
    exact ⟨type, if_pos rfl, htype, fun h => h.elim id id⟩
  · have hwide : type = wide ∨ other = wide := by
      by_contra hnone
      obtain ⟨hfirst, hsecond⟩ := not_or.1 hnone
      exact heq ((htype.of_ne hfirst).1.trans (hother.of_ne hsecond).1.symm)
    exact ⟨wide, join_eq_some.2 ⟨htype, hother, hwide⟩, .refl wide, fun _ => rfl⟩

/-! ## All elements -/

theorem widen_eq_ok_iff {element next : SqlType} {value : Document} :
    widen element value = .ok next ↔
      ∃ own, typeOf? value = some own ∧ join own element = some next := by
  unfold widen join
  cases typeOf? value with
  | none => simp
  | some own =>
      simp only [Option.some.injEq, exists_eq_left']
      split_ifs <;> simp

/-- The induction is on the elements that are left; the type so far stands for all those
before them. -/
theorem foldlM_widen_eq_ok {element type : SqlType} {values : List Document} :
    values.foldlM widen element = .ok type ↔
      Fits element type ∧
        (∀ value ∈ values, ∃ own, typeOf? value = some own ∧ Fits own type) ∧
        (element = type ∨ ∃ value ∈ values, typeOf? value = some type) := by
  induction values generalizing element with
  | nil =>
      simp only [List.foldlM_nil, pure, Except.pure, Except.ok.injEq, List.not_mem_nil,
        false_implies, implies_true, true_and, false_and, exists_false, or_false]
      exact ⟨fun h => ⟨.inl h, h⟩, And.right⟩
  | cons value values ih =>
      simp only [foldlM_cons_eq_ok, widen_eq_ok_iff, ih, List.forall_mem_cons,
        List.exists_mem_cons_iff]
      constructor
      · rintro ⟨next, ⟨own, hown, hjoin⟩, hnext, hvalues, hattained⟩
        obtain ⟨hfirst, helement, hjoined⟩ := join_eq_some.1 hjoin
        refine ⟨helement.trans hnext, ⟨⟨own, hown, hfirst.trans hnext⟩, hvalues⟩, ?_⟩
        rcases hattained with rfl | hlater
        · rcases hjoined with rfl | rfl
          · exact .inr (.inl hown)
          · exact .inl rfl
        · exact .inr (.inr hlater)
      · rintro ⟨helement, ⟨⟨own, hown, hfits⟩, hvalues⟩, hattained⟩
        obtain ⟨next, hjoin, hnext, hwhole⟩ := exists_join hfits helement
        refine ⟨next, ⟨own, hown, hjoin⟩, hnext, hvalues, ?_⟩
        rcases hattained with h | h | hlater
        · exact .inl (hwhole (.inr h))
        · rw [hown] at h
          exact .inl (hwhole (.inl (Option.some.inj h)))
        · exact .inr hlater

theorem elementType_eq_ok_iff {items : List Document} {type : SqlType} :
    elementType items = .ok type ↔ IsCommon type items := by
  unfold IsCommon
  cases items with
  | nil => simp [elementType]
  | cons value values =>
      rw [elementType, List.forall_mem_cons, List.exists_mem_cons_iff]
      cases typeOf? value with
      | none => simp
      | some own =>
          simp only [foldlM_widen_eq_ok, Option.some.injEq, exists_eq_left']
          tauto

/-! ## Two lists of elements -/

theorem IsCommon.congr {items others : List Document} {type : SqlType}
    (h : ∀ item, item ∈ items ↔ item ∈ others) : IsCommon type items ↔ IsCommon type others := by
  simp only [IsCommon, h]

/-- Elements whose types fit into one type have a common type themselves. -/
theorem exists_isCommon {items : List Document} {wide : SqlType} (hne : items ≠ [])
    (h : ∀ item ∈ items, ∃ own, typeOf? item = some own ∧ Fits own wide) :
    ∃ type, IsCommon type items ∧ Fits type wide := by
  by_cases hattained : ∃ item ∈ items, typeOf? item = some wide
  · exact ⟨wide, ⟨hattained, h⟩, .refl wide⟩
  · have hwhole : ∀ item ∈ items, typeOf? item = some .bigint ∧ wide = .double := by
      intro item hmem
      obtain ⟨own, hown, hfits⟩ := h item hmem
      have hother : own ≠ wide := by
        rintro rfl
        exact hattained ⟨item, hmem, hown⟩
      obtain ⟨rfl, hwide⟩ := hfits.of_ne hother
      exact ⟨hown, hwide⟩
    obtain ⟨first, hfirst⟩ := List.exists_mem_of_ne_nil items hne
    refine ⟨.bigint, ⟨⟨first, hfirst, (hwhole first hfirst).1⟩, fun item hmem => ?_⟩, ?_⟩
    · exact ⟨.bigint, (hwhole item hmem).1, .refl _⟩
    · exact .inr ⟨rfl, (hwhole first hfirst).2⟩

theorem IsCommon.eq_of_mem {items : List Document} {type wide : SqlType} {item : Document}
    (h : IsCommon type items) (hfits : Fits type wide) (hmem : item ∈ items)
    (hitem : typeOf? item = some wide) : type = wide := by
  obtain ⟨own, hown, hback⟩ := h.2 item hmem
  obtain rfl := Option.some.inj (hitem.symm.trans hown)
  exact hfits.antisymm hback

/-- The common type of two lists together is the join of the common types of each. -/
theorem isCommon_append {items others : List Document} {type : SqlType} (hitems : items ≠ [])
    (hothers : others ≠ []) :
    IsCommon type (items ++ others) ↔
      ∃ first second, IsCommon first items ∧ IsCommon second others ∧
        join first second = some type := by
  constructor
  · rintro ⟨⟨item, hmem, hitem⟩, hall⟩
    rw [List.forall_mem_append] at hall
    obtain ⟨first, hfirst, hfirstFits⟩ := exists_isCommon hitems hall.1
    obtain ⟨second, hsecond, hsecondFits⟩ := exists_isCommon hothers hall.2
    refine ⟨first, second, hfirst, hsecond,
      join_eq_some.2 ⟨hfirstFits, hsecondFits, ?_⟩⟩
    rcases List.mem_append.1 hmem with hmem | hmem
    · exact .inl (hfirst.eq_of_mem hfirstFits hmem hitem)
    · exact .inr (hsecond.eq_of_mem hsecondFits hmem hitem)
  · rintro ⟨first, second, hfirst, hsecond, hjoin⟩
    obtain ⟨hfirstFits, hsecondFits, hattained⟩ := join_eq_some.1 hjoin
    have hwiden : ∀ {own : SqlType} {list : List Document}, IsCommon own list → Fits own type →
        ∀ item ∈ list, ∃ own, typeOf? item = some own ∧ Fits own type := by
      intro own list hcommon hfits item hmem
      obtain ⟨itemType, hitem, hfitsOwn⟩ := hcommon.2 item hmem
      exact ⟨itemType, hitem, hfitsOwn.trans hfits⟩
    refine ⟨?_, List.forall_mem_append.2 ⟨hwiden hfirst hfirstFits, hwiden hsecond hsecondFits⟩⟩
    rcases hattained with rfl | rfl
    · obtain ⟨item, hmem, hitem⟩ := hfirst.1
      exact ⟨item, List.mem_append_left others hmem, hitem⟩
    · obtain ⟨item, hmem, hitem⟩ := hsecond.1
      exact ⟨item, List.mem_append_right items hmem, hitem⟩

/-! ## The four types of elements -/

theorem typeOf?_eq_some {value : Document} {type : SqlType} :
    typeOf? value = some type ↔
      (type = .text ∧ ∃ text, value = .string text) ∨
      (type = .boolean ∧ ∃ truth, value = .boolean truth) ∨
      (type = .bigint ∧ ∃ n, value = .number n ∧ n.isReal = false) ∨
      (type = .double ∧ ∃ n, value = .number n ∧ n.isReal = true) := by
  cases value with
  | number n => cases hreal : n.isReal <;> simp [typeOf?, hreal, @eq_comm _ type]
  | _ => simp [typeOf?, @eq_comm _ type]

/-- A type that no other one fits into is common to elements that all have it. -/
theorem isCommon_of_ne {items : List Document} {type : SqlType} (htype : type ≠ .double) :
    IsCommon type items ↔ items ≠ [] ∧ ∀ item ∈ items, typeOf? item = some type := by
  constructor
  · rintro ⟨⟨first, hfirst, -⟩, hall⟩
    refine ⟨List.ne_nil_of_mem hfirst, fun item hmem => ?_⟩
    obtain ⟨own, hown, hfits⟩ := hall item hmem
    have heq : own = type := hfits.resolve_right fun h => htype h.2
    rw [hown, heq]
  · rintro ⟨hne, hall⟩
    obtain ⟨first, hfirst⟩ := List.exists_mem_of_ne_nil items hne
    exact ⟨⟨first, hfirst, hall first hfirst⟩, fun item hmem => ⟨type, hall item hmem, .refl type⟩⟩

theorem isCommon_double {items : List Document} :
    IsCommon .double items ↔
      (∀ item ∈ items, ∃ n, item = .number n) ∧ ∃ n, .number n ∈ items ∧ n.isReal = true := by
  have hfits : ∀ item, (∃ own, typeOf? item = some own ∧ Fits own .double) ↔
      ∃ n, item = .number n := by
    intro item
    cases item <;> simp [typeOf?, Fits]
  have hreal : (∃ item ∈ items, typeOf? item = some .double) ↔
      ∃ n, .number n ∈ items ∧ n.isReal = true := by
    simp only [typeOf?_eq_some]
    constructor
    · rintro ⟨item, hmem, h⟩
      obtain ⟨n, rfl, hn⟩ : ∃ n, item = .number n ∧ n.isReal = true := by simpa using h
      exact ⟨n, hmem, hn⟩
    · rintro ⟨n, hmem, hn⟩
      exact ⟨_, hmem, by simp [hn]⟩
  rw [IsCommon, hreal, and_comm]
  simp only [hfits]

/-! ## Arrays among constants -/

theorem ofArray_of_elementType {items : List Document} {type : SqlType}
    (h : elementType items = .ok type) (position : Nat) :
    ofArray position none items = .ok ⟨position, .array items, .array type⟩ := by
  rw [ofArray, h]

theorem ofArray_eq_error {items : List Document} {shape : Shape}
    (h : elementType items = .error shape) (position : Nat) :
    ofArray position none items = .error (.unresolvedType position shape) := by
  rw [ofArray, h]

theorem ofConstant_array_eq_error {items : List Document} {shape : Shape}
    (h : elementType items = .error shape) (position : Nat) :
    ofConstant position (.array items) = .error (.unresolvedType position shape) :=
  congrArg (Except.map ([·])) (ofArray_eq_error h position)

/-- Behind constants that are bound, the fault names the position of the array. -/
theorem ofConstants_array_eq_error {before : List Constant} {bindings : List Binding}
    (hbefore : ofConstants before = .ok bindings) {items : List Document} {shape : Shape}
    (h : elementType items = .error shape) (after : List Constant) :
    ofConstants (before ++ Constant.array items :: after) =
      .error (.unresolvedType ((before.map Constant.slots).sum + 1) shape) := by
  rw [ofConstants, ofConstantsFrom_eq_bindFrom] at hbefore ⊢
  have hposition : 1 + (before.flatMap Constant.entries).length =
      (before.map Constant.slots).sum + 1 := by
    rw [Constant.length_flatMap_entries, Nat.add_comm]
  have harray : Entry.bindFrom ((before.map Constant.slots).sum + 1)
      ((Constant.array items :: after).flatMap Constant.entries) =
        .error (.unresolvedType ((before.map Constant.slots).sum + 1) shape) := by
    rw [List.flatMap_cons, Entry.bindFrom_append, ← ofConstant_eq_bindFrom,
      ofConstant_array_eq_error h]
    rfl
  rw [List.flatMap_append, Entry.bindFrom_append, hbefore, hposition, harray]
  rfl

/-- The common type of the elements is text, boolean or bigint if there are elements and
all of them are texts, truth values or whole numbers, and double if all are numbers and
one of them is real; otherwise binding stops at the position of the array.  It depends on
which elements there are and not on their order or number, and for two lists together it
is the join of the types of each. -/
theorem element_types_joined :
    (∀ items : List Document,
      (elementType items = .ok .text ↔
        items ≠ [] ∧ ∀ item ∈ items, ∃ text, item = .string text) ∧
      (elementType items = .ok .boolean ↔
        items ≠ [] ∧ ∀ item ∈ items, ∃ truth, item = .boolean truth) ∧
      (elementType items = .ok .bigint ↔
        items ≠ [] ∧ ∀ item ∈ items, ∃ n, item = .number n ∧ n.isReal = false) ∧
      (elementType items = .ok .double ↔
        (∀ item ∈ items, ∃ n, item = .number n) ∧ ∃ n, .number n ∈ items ∧ n.isReal = true) ∧
      ∀ type, elementType items = .ok type →
        type ∈ [.text, .boolean, .bigint, .double] ∧
        ∀ position, ofArray position none items = .ok ⟨position, .array items, .array type⟩) ∧
    (∀ items shape, elementType items = .error shape →
      (∀ position, ofArray position none items = .error (.unresolvedType position shape)) ∧
      ∀ before bindings, ofConstants before = .ok bindings → ∀ after,
        ofConstants (before ++ Constant.array items :: after) =
          .error (.unresolvedType ((before.map Constant.slots).sum + 1) shape)) ∧
    (∀ items others : List Document, (∀ item, item ∈ items ↔ item ∈ others) →
      ∀ type, elementType items = .ok type ↔ elementType others = .ok type) ∧
    ∀ items others : List Document, items ≠ [] → others ≠ [] →
      ∀ type, elementType (items ++ others) = .ok type ↔
        ∃ first second, elementType items = .ok first ∧ elementType others = .ok second ∧
          join first second = some type := by
  simp only [elementType_eq_ok_iff]
  refine ⟨?_, ?_, ?_, ?_⟩
  · intro items
    refine ⟨?_, ?_, ?_, isCommon_double, ?_⟩
    · simp [isCommon_of_ne, typeOf?_eq_some]
    · simp [isCommon_of_ne, typeOf?_eq_some]
    · simp [isCommon_of_ne, typeOf?_eq_some]
    · intro type htype
      obtain ⟨item, -, hitem⟩ := htype.1
      refine ⟨?_, ofArray_of_elementType (elementType_eq_ok_iff.2 htype)⟩
      rcases typeOf?_eq_some.1 hitem with h | h | h | h <;> simp [h.1]
  · intro items shape h
    exact ⟨ofArray_eq_error h, fun before bindings hbefore after =>
      ofConstants_array_eq_error hbefore h after⟩
  · exact fun items others h type => IsCommon.congr h
  · exact fun items others hitems hothers type => isCommon_append hitems hothers

/-- A whole and a real number in either order and with one of them repeated, both joined
to the type of whole numbers, and an array with a null behind alternatives. -/
theorem element_types_joined_mixed :
    let whole : Document := .ofWord 1
    let real : Document := .number (.real (.zero false))
    let before : List Constant := [.valueList [whole, real], .text "a"]
    elementType [real, whole, real] = .ok .double ∧
      elementType ([whole, real] ++ [whole]) = .ok .double ∧
      elementType [whole, .null] = .error (.arrayHolding .null) ∧
      ofConstants (before ++ Constant.array [whole, .null] :: [.null]) =
        .error (.unresolvedType 4 (.arrayHolding .null)) := by
  intro whole real before
  obtain ⟨hfour, herror, hsame, happend⟩ := element_types_joined
  have hmixed : elementType [whole, real] = .ok .double :=
    (hfour [whole, real]).2.2.2.1.2
      ⟨List.forall_mem_cons.2 ⟨⟨_, rfl⟩, List.forall_mem_singleton.2 ⟨_, rfl⟩⟩,
        .real (.zero false), List.mem_cons_of_mem _ List.mem_cons_self, rfl⟩
  have hwhole : elementType [whole] = .ok .bigint := rfl
  have hnull : elementType [whole, .null] = .error (.arrayHolding .null) := rfl
  refine ⟨?_, ?_, hnull, (herror _ _ hnull).2 before _ rfl [.null]⟩
  · refine (hsame [real, whole, real] [whole, real] ?_ .double).2 hmixed
    intro item
    simp only [List.mem_cons, List.not_mem_nil, or_false]
    tauto
  · exact (happend [whole, real] [whole] (by simp) (by simp) .double).2
      ⟨.double, .bigint, hmixed, hwhole, rfl⟩

end JsonbAlgebra.Binding
