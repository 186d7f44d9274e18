import JsonbAlgebra.Proofs.Entries

/-!
# Bindings slot by slot

The constants of a statement are bound entry by entry, one for each placeholder.  An
entry takes its declared type or the type of its value's shape, and binding stops at the
first entry that has neither.  How an entry is bound depends on its position in nothing
but the position, so two lists of constants are bound as they would be apart, and only the
positions of the second are shifted by the placeholders of the first.
-/

namespace JsonbAlgebra

/-! ## Types that follow from a shape -/

/-- The kinds of documents that have a type by themselves. -/
def Document.Kind.IsTyped : Document.Kind → Prop
  | .boolean | .number | .string => True
  | .null | .array | .object => False

/-- The kind of the documents that a type is the own type of. -/
def SqlType.kind? : SqlType → Option Document.Kind
  | .boolean => some .boolean
  | .bigint | .double => some .number
  | .text => some .string
  | _ => none

namespace BoundValue

/-- Values whose shape has a type: documents of such a kind, and arrays that are not
empty and hold documents of one such kind only. -/
def HasType : BoundValue → Prop
  | .null => False
  | .scalar value => value.kind.IsTyped
  | .array items => ∃ kind : Document.Kind, kind.IsTyped ∧ items ≠ [] ∧
      ∀ item ∈ items, item.kind = kind

end BoundValue

namespace Binding

theorem kind?_of_typeOf? {value : Document} {type : SqlType} (h : typeOf? value = some type) :
    type.kind? = some value.kind := by
  cases value with
  | number n =>
      cases h
      cases n.isReal <;> rfl
  | boolean b => cases h; rfl
  | string s => cases h; rfl
  | _ => cases h

theorem exists_typeOf?_iff {value : Document} :
    (∃ type, typeOf? value = some type) ↔ value.kind.IsTyped := by
  cases value <;> simp [typeOf?, Document.kind, Document.Kind.IsTyped]

theorem isTyped_of_kind? {type : SqlType} {kind : Document.Kind} (h : type.kind? = some kind) :
    kind.IsTyped := by
  cases type <;> cases h <;> trivial

/-- Types of documents of one kind are the same unless both are numeric. -/
theorem eq_or_isNumeric_of_kind? {type other : SqlType} {kind : Document.Kind}
    (htype : type.kind? = some kind) (hother : other.kind? = some kind) :
    type = other ∨ (isNumeric type && isNumeric other) = true := by
  cases type <;> cases htype <;> cases other <;> cases hother <;> simp [isNumeric]

theorem kind?_of_isNumeric {type : SqlType} (h : isNumeric type = true) :
    type.kind? = some .number := by
  cases type <;> simp_all [isNumeric, SqlType.kind?]

/-- One more element keeps the kind of the elements, and only an element of this kind
does not end the search. -/
theorem widen_eq_ok {element next : SqlType} {kind : Document.Kind} {value : Document}
    (helement : element.kind? = some kind) (h : widen element value = .ok next) :
    value.kind = kind ∧ next.kind? = some kind := by
  unfold widen at h
  split at h
  · cases h
  · rename_i type htype
    have hvalue := kind?_of_typeOf? htype
    split at h
    · rename_i heq
      cases h
      rw [heq, helement] at hvalue
      exact ⟨(Option.some.inj hvalue).symm, helement⟩
    · split at h
      · rename_i hnumeric
        cases h
        obtain ⟨htypeNumeric, hnumeric⟩ := Bool.and_eq_true_iff.1 hnumeric
        rw [kind?_of_isNumeric htypeNumeric] at hvalue
        rw [kind?_of_isNumeric hnumeric] at helement
        cases helement
        exact ⟨(Option.some.inj hvalue).symm, rfl⟩
      · cases h

theorem exists_widen_of_kind {element : SqlType} {value : Document}
    (helement : element.kind? = some value.kind) : ∃ next, widen element value = .ok next := by
  obtain ⟨type, htype⟩ := exists_typeOf?_iff.2 (isTyped_of_kind? helement)
  rcases eq_or_isNumeric_of_kind? (kind?_of_typeOf? htype) helement with rfl | hnumeric
  · exact ⟨type, by simp [widen, htype]⟩
  · by_cases heq : type = element
    · exact ⟨element, by simp [widen, htype, heq]⟩
    · exact ⟨.double, by simp [widen, htype, heq, hnumeric]⟩

/-- The elements behind one of a kind have a common type with it if they are all of its
kind. -/
theorem exists_foldlM_widen_iff {element : SqlType} {kind : Document.Kind}
    (helement : element.kind? = some kind) {values : List Document} :
    (∃ type, values.foldlM widen element = .ok type) ↔ ∀ value ∈ values, value.kind = kind := by
  induction values generalizing element with
  | nil => simp [pure, Except.pure]
  | cons value values ih =>
      rw [List.forall_mem_cons]
      constructor
      · rintro ⟨type, h⟩
        obtain ⟨next, hnext, hrest⟩ := foldlM_cons_eq_ok.1 h
        obtain ⟨hvalue, hkind⟩ := widen_eq_ok helement hnext
        exact ⟨hvalue, (ih hkind).1 ⟨type, hrest⟩⟩
      · rintro ⟨rfl, hvalues⟩
        obtain ⟨next, hnext⟩ := exists_widen_of_kind helement
        obtain ⟨type, hrest⟩ := (ih (widen_eq_ok helement hnext).2).2 hvalues
        exact ⟨type, foldlM_cons_eq_ok.2 ⟨next, hnext, hrest⟩⟩

theorem exists_elementType_iff {items : List Document} :
    (∃ type, elementType items = .ok type) ↔
      ∃ kind : Document.Kind, kind.IsTyped ∧ items ≠ [] ∧ ∀ item ∈ items, item.kind = kind := by
  cases items with
  | nil => simp [elementType]
  | cons first items =>
      rw [elementType]
      cases htype : typeOf? first with
      | none =>
          have huntyped : ¬ first.kind.IsTyped := by simp [← exists_typeOf?_iff, htype]
          simp only [reduceCtorEq, exists_false, false_iff]
          rintro ⟨kind, hkind, -, hitems⟩
          rw [hitems first List.mem_cons_self] at huntyped
          exact huntyped hkind
      | some type =>
          have hkind := kind?_of_typeOf? htype
          simp only [exists_foldlM_widen_iff hkind]
          constructor
          · intro hitems
            exact ⟨first.kind, isTyped_of_kind? hkind, List.cons_ne_nil _ _,
              List.forall_mem_cons.2 ⟨rfl, hitems⟩⟩
          · rintro ⟨kind, -, -, hitems⟩
            obtain ⟨rfl, hitems⟩ := List.forall_mem_cons.1 hitems
            exact hitems

end Binding

theorem BoundValue.exists_typing_iff {value : BoundValue} :
    (∃ type, value.typing = .ok type) ↔ value.HasType := by
  cases value with
  | null => simp [typing, HasType]
  | scalar document =>
      rw [HasType, ← Binding.exists_typeOf?_iff, typing]
      cases Binding.typeOf? document <;> simp
  | array items =>
      rw [HasType, ← Binding.exists_elementType_iff, typing]
      constructor
      · rintro ⟨type, h⟩
        obtain ⟨element, helement, -⟩ := map_eq_ok.1 h
        exact ⟨element, helement⟩
      · rintro ⟨element, helement⟩
        exact ⟨.array element, map_eq_ok.2 ⟨element, helement, rfl⟩⟩

/-! ## Entries in order -/

/-- An entry that has no type: none is declared, and none follows from its shape. -/
def Entry.Untyped (entry : Entry) : Prop :=
  entry.declared = none ∧ ¬ entry.value.HasType

def Binding.shift (offset : Nat) (binding : Binding) : Binding :=
  { binding with position := binding.position + offset }

namespace Entry

theorem untyped_iff {entry : Entry} :
    entry.Untyped ↔ entry.declared = none ∧ ∃ shape, entry.value.typing = .error shape := by
  rw [Untyped, ← BoundValue.exists_typing_iff]
  cases entry.value.typing <;> simp

theorem exists_bindAt_iff (position : Nat) {entry : Entry} :
    (∃ binding, entry.bindAt position = .ok binding) ↔ ¬ entry.Untyped := by
  rw [untyped_iff, bindAt]
  cases entry.declared with
  | some type => simp
  | none => cases entry.value.typing <;> simp

theorem bindAt_eq_error {position : Nat} {entry : Entry} {fault : Fault} :
    entry.bindAt position = .error fault ↔
      ∃ shape, entry.Untyped ∧ entry.value.typing = .error shape ∧
        fault = .unresolvedType position shape := by
  rw [untyped_iff, bindAt]
  cases entry.declared with
  | some type => simp
  | none => cases entry.value.typing <;> simp [eq_comm]

theorem bindAt_shift (position offset : Nat) (entry : Entry) {binding : Binding} :
    entry.bindAt (position + offset) = .ok binding ↔
      ∃ unshifted, entry.bindAt position = .ok unshifted ∧ binding = unshifted.shift offset := by
  unfold bindAt
  cases entry.declared with
  | some type => simp [Binding.shift, eq_comm]
  | none => cases entry.value.typing <;> simp [Binding.shift, eq_comm]

theorem bindFrom_cons_eq_error {position : Nat} {entry : Entry} {entries : List Entry}
    {fault : Fault} :
    bindFrom position (entry :: entries) = .error fault ↔
      entry.bindAt position = .error fault ∨
        ¬ entry.Untyped ∧ bindFrom (position + 1) entries = .error fault := by
  rw [← exists_bindAt_iff position, bindFrom]
  cases entry.bindAt position with
  | error other => simp [bind_eq_error]
  | ok binding => simp [bind_eq_error, pure, Except.pure]

theorem bindFrom_shift (position offset : Nat) {entries : List Entry} {bindings : List Binding} :
    bindFrom (position + offset) entries = .ok bindings ↔
      ∃ unshifted, bindFrom position entries = .ok unshifted ∧
        bindings = unshifted.map (Binding.shift offset) := by
  induction entries generalizing position bindings with
  | nil => simp [bindFrom, eq_comm]
  | cons entry entries ih =>
      have hnext : position + offset + 1 = position + 1 + offset := by omega
      simp only [bindFrom_cons_eq_ok, bindAt_shift, hnext, ih]
      constructor
      · rintro ⟨-, -, ⟨first, hfirst, rfl⟩, ⟨others, hothers, rfl⟩, rfl⟩
        exact ⟨first :: others, ⟨first, others, hfirst, hothers, rfl⟩, rfl⟩
      · rintro ⟨-, ⟨first, others, hfirst, hothers, rfl⟩, rfl⟩
        exact ⟨_, _, ⟨first, hfirst, rfl⟩, ⟨others, hothers, rfl⟩, rfl⟩

theorem exists_bindFrom_iff (position : Nat) {entries : List Entry} :
    (∃ bindings, bindFrom position entries = .ok bindings) ↔
      ∀ entry ∈ entries, ¬ entry.Untyped := by
  induction entries generalizing position with
  | nil => simp [bindFrom]
  | cons entry entries ih =>
      rw [List.forall_mem_cons, ← exists_bindAt_iff position, ← ih (position + 1)]
      constructor
      · rintro ⟨bindings, h⟩
        obtain ⟨first, others, hfirst, hothers, -⟩ := bindFrom_cons_eq_ok.1 h
        exact ⟨⟨first, hfirst⟩, others, hothers⟩
      · rintro ⟨⟨first, hfirst⟩, others, hothers⟩
        exact ⟨_, bindFrom_cons_eq_ok.2 ⟨first, others, hfirst, hothers, rfl⟩⟩

/-- Binding fails at the first entry without a type, behind as many positions as there
are entries before it. -/
theorem exists_first_untyped {position : Nat} {entries : List Entry} {fault : Fault}
    (h : bindFrom position entries = .error fault) :
    ∃ before entry after shape, entries = before ++ entry :: after ∧
      (∀ earlier ∈ before, ¬ earlier.Untyped) ∧ entry.Untyped ∧
      entry.value.typing = .error shape ∧
      fault = .unresolvedType (position + before.length) shape := by
  induction entries generalizing position with
  | nil => cases h
  | cons entry entries ih =>
      rcases bindFrom_cons_eq_error.1 h with hfirst | ⟨hentry, hothers⟩
      · obtain ⟨shape, huntyped, htyping, rfl⟩ := bindAt_eq_error.1 hfirst
        exact ⟨[], entry, entries, shape, rfl, nofun, huntyped, htyping, rfl⟩
      · obtain ⟨before, untyped, after, shape, rfl, hbefore, huntyped, htyping, rfl⟩ := ih hothers
        refine ⟨entry :: before, untyped, after, shape, rfl,
          List.forall_mem_cons.2 ⟨hentry, hbefore⟩, huntyped, htyping, ?_⟩
        rw [List.length_cons, Nat.add_right_comm, Nat.add_assoc]

theorem exists_bindFrom_eq_error_iff {position : Nat} {entries : List Entry} :
    (∃ fault, bindFrom position entries = .error fault) ↔ ∃ entry ∈ entries, entry.Untyped := by
  constructor
  · rintro ⟨fault, h⟩
    obtain ⟨before, entry, after, shape, rfl, -, huntyped, -⟩ := exists_first_untyped h
    exact ⟨entry, List.mem_append_right _ List.mem_cons_self, huntyped⟩
  · rintro ⟨entry, hmem, huntyped⟩
    cases hresult : bindFrom position entries with
    | error fault => exact ⟨fault, rfl⟩
    | ok bindings =>
        exact absurd huntyped ((exists_bindFrom_iff position).1 ⟨bindings, hresult⟩ entry hmem)

end Entry

/-- The constants of two lists are bound together if those of each list are, and then to
the bindings of the first list followed by those of the second, shifted by the slots of
the first.  Binding fails if one of the entries has no type, with the position of the
first such entry, which is one more than the number of entries before it. -/
theorem Binding.ofConstants_compositional :
    (∀ first second bindings, ofConstants (first ++ second) = .ok bindings ↔
      ∃ early late, ofConstants first = .ok early ∧ ofConstants second = .ok late ∧
        bindings = early ++ late.map (shift (first.map Constant.slots).sum)) ∧
    (∀ constants, (∃ fault, ofConstants constants = .error fault) ↔
      ∃ entry ∈ constants.flatMap Constant.entries, entry.Untyped) ∧
    ∀ constants fault, ofConstants constants = .error fault →
      ∃ before entry after shape, constants.flatMap Constant.entries = before ++ entry :: after ∧
        (∀ earlier ∈ before, ¬ earlier.Untyped) ∧ entry.Untyped ∧
        entry.value.typing = .error shape ∧ fault = .unresolvedType (1 + before.length) shape := by
  simp only [ofConstants, ofConstantsFrom_eq_bindFrom]
  refine ⟨?_, ?_, ?_⟩
  · intro first second bindings
    rw [List.flatMap_append, Entry.bindFrom_append, Constant.length_flatMap_entries, bind_eq_ok]
    constructor
    · rintro ⟨early, hearly, h⟩
      obtain ⟨shifted, hshifted, h⟩ := bind_eq_ok.1 h
      obtain ⟨late, hlate, rfl⟩ := (Entry.bindFrom_shift 1 _).1 hshifted
      cases h
      exact ⟨early, late, hearly, hlate, rfl⟩
    · rintro ⟨early, late, hearly, hlate, rfl⟩
      exact ⟨early, hearly,
        bind_eq_ok.2 ⟨_, (Entry.bindFrom_shift 1 _).2 ⟨late, hlate, rfl⟩, rfl⟩⟩
  · exact fun constants => Entry.exists_bindFrom_eq_error_iff
  · exact fun constants fault h => Entry.exists_first_untyped h

/-- Alternatives and an array in front of a null and of an empty list, and in front of
alternatives of which the second has no type. -/
theorem Binding.ofConstants_compositional_alternatives :
    let first : List Constant :=
      [.valueList [.string "a", .boolean true], .array [.ofWord 1, .ofWord 2]]
    let second : List Constant := [.valueList [], .typedNull .text]
    let failing : List Constant := [.valueList [.string "b", .object []], .null]
    let fault : Fault := .unresolvedType 5 (.single .object)
    ofConstants (first ++ second) =
        .ok [⟨1, .scalar (.string "a"), .text⟩, ⟨2, .scalar (.boolean true), .boolean⟩,
          ⟨3, .array [.ofWord 1, .ofWord 2], .array .bigint⟩, ⟨4, .null, .text⟩] ∧
      ofConstants (first ++ failing) = .error fault ∧
      ∃ before entry after shape,
        (first ++ failing).flatMap Constant.entries = before ++ entry :: after ∧
        (∀ earlier ∈ before, ¬ earlier.Untyped) ∧ entry.Untyped ∧
        entry.value.typing = .error shape ∧ fault = .unresolvedType (1 + before.length) shape := by
  intro first second failing fault
  obtain ⟨happend, -, hfirst⟩ := Binding.ofConstants_compositional
  exact ⟨(happend first second _).2 ⟨_, _, rfl, rfl, rfl⟩, rfl, hfirst _ _ rfl⟩

end JsonbAlgebra
