import JsonbAlgebra.Expr.Navigation
import JsonbAlgebra.Proofs.Alignment
import JsonbAlgebra.Proofs.ConditionBuilding
import JsonbAlgebra.Proofs.PostgresParameters
import JsonbAlgebra.Proofs.SlotBindings

/-!
# Appending to an array again and again

Items that are appended to a column of arrays take the column's type.  What comes out of
that is an operation, which declares no type, so the items of every later append are an
array without a type and binding finds one by their shape.  The chain is built and
compiled whatever the items are; it is bound if the later items have types by themselves,
and it is bound in the type of the column throughout only if these happen to be the
column's own element type.
-/

namespace JsonbAlgebra

theorem SqlType.isArray_tag {type : SqlType} (h : type.isArray = true) :
    type.tag.isArray = true := by
  cases type with
  | array element => cases element <;> simp [tag, Tag.isArray]
  | _ => simp [isArray, element?] at h

theorem Slot.collection_accepts {name : String} {tag : Tag} (h : tag.isArray = true) :
    (Slot.collection name).accepts tag = true := by
  cases tag <;> simp [Tag.isArray] at h <;>
    simp [Slot.collection, accepts, Tag.fits]

namespace Expr

/-! ## Building the chain -/

def append (subject : Expr) (constant : Constant) : Expr :=
  .operation .concat [subject, .constant constant]

@[simp] theorem tag_append (subject : Expr) (constant : Constant) :
    (subject.append constant).tag = subject.tag := by
  simp [append, tag, Operator.contract, Contract.resultTag, tags]

@[simp] theorem constants_append (subject : Expr) (constant : Constant) :
    (subject.append constant).constants = subject.constants ++ [constant] := by
  simp [append, constants, constantsAll]

theorem isArray_tag_collection {subject : Expr} (htag : subject.tag.isArray = true)
    (items : List Document) : (collection subject items).tag.isArray = true := by
  have hjson : subject.tag ≠ .json := by
    intro h
    simp [h, Tag.isArray] at htag
  unfold collection
  rw [if_neg hjson]
  split
  · rename_i type htype
    have harray : type.isArray = true := (Option.filter_eq_some_iff.1 htype).2
    exact SqlType.isArray_tag harray
  · simp only [Constant.array, Constant.tag]
    split <;> rfl

theorem operandFault?_collection {index : Nat} {name : String} {operand : Expr}
    (hslot : Operator.concat.contract.slotAt index = some (.collection name))
    (htag : operand.tag.isArray = true) : operandFault? .concat index operand = none := by
  have haccepts : (Slot.collection name).accepts operand.tag = true :=
    Slot.collection_accepts htag
  have hsingle : operand.isEmptyList = false := by
    apply isEmptyList_of_tag_ne
    intro h
    simp [h, Tag.isArray] at htag
  simp [operandFault?, hslot, Option.filter_some, haccepts, hsingle]

/-- Items can be appended to everything that is an array, whatever they are. -/
theorem concatItems_of_isArray {subject : Expr} (htag : subject.tag.isArray = true)
    (items : List Document) :
    subject.concatItems items = .ok (subject.append (collection subject items)) := by
  have hitems : (Expr.constant (collection subject items)).tag.isArray = true :=
    isArray_tag_collection htag items
  have hfirst : operandFault? .concat 0 subject = none := operandFault?_collection rfl htag
  have hsecond : operandFault? .concat 1 (.constant (collection subject items)) = none :=
    operandFault?_collection rfl hitems
  unfold concatItems concat
  refine apply_of_admits rfl ?_
  simp [operandsFault?, hfirst, hsecond]

/-- The first items are typed like the column. -/
theorem collection_column {ref : ColumnRef} (htype : ref.type.isArray = true)
    (items : List Document) :
    collection (.column ref) items = .typedArray items ref.type := by
  have harray := SqlType.isArray_tag htype
  have hjson : (Expr.column ref).tag ≠ .json := by
    intro h
    rw [tag] at h
    simp [h, Tag.isArray] at harray
  simp [collection, hjson, declared?, Option.filter_some, htype]

/-- The items behind them are not typed at all. -/
theorem collection_append {subject : Expr} (htag : subject.tag.isArray = true)
    (constant : Constant) (items : List Document) :
    collection (subject.append constant) items = .array items := by
  have hjson : subject.tag ≠ .json := by
    intro h
    simp [h, Tag.isArray] at htag
  simp only [collection, tag_append, if_neg hjson]
  simp [append, declared?]

theorem foldlM_concatItems_append {subject : Expr} (htag : subject.tag.isArray = true)
    (constant : Constant) (lists : List (List Document)) :
    lists.foldlM concatItems (subject.append constant) =
      .ok ((lists.map Constant.array).foldl append (subject.append constant)) := by
  induction lists generalizing subject constant with
  | nil => rfl
  | cons items lists ih =>
      have hnext : (subject.append constant).tag.isArray = true := by simpa using htag
      rw [List.foldlM_cons, concatItems_of_isArray hnext, collection_append htag]
      exact ih hnext (.array items)

theorem foldlM_concatItems_column {ref : ColumnRef} (htype : ref.type.isArray = true)
    (first : List Document) (later : List (List Document)) :
    (first :: later).foldlM concatItems (.column ref) =
      .ok ((Constant.typedArray first ref.type :: later.map .array).foldl append
        (.column ref)) := by
  have htag : (Expr.column ref).tag.isArray = true := SqlType.isArray_tag htype
  rw [List.foldlM_cons, concatItems_of_isArray htag, collection_column htype]
  exact foldlM_concatItems_append htag _ later

theorem constants_foldl_append (subject : Expr) (added : List Constant) :
    (added.foldl append subject).constants = subject.constants ++ added := by
  induction added generalizing subject with
  | nil => simp
  | cons constant added ih => simp [ih]

theorem WellFormed.concatItems {subject e : Expr} {items : List Document}
    (hsubject : subject.WellFormed) (h : subject.concatItems items = .ok e) : e.WellFormed :=
  WellFormed.apply (allWellFormed_iff.2 (by simp [hsubject, wellFormed_constant])) h

end Expr

/-! ## Binding the chain -/

theorem Binding.forall_elementType_iff {lists : List (List Document)} {elements : List SqlType}
    (h : List.Forall₂ (fun items element => elementType items = .ok element) lists elements)
    (element : SqlType) :
    (∀ items ∈ lists, elementType items = .ok element) ↔ ∀ other ∈ elements, other = element := by
  induction h with
  | nil => simp
  | cons hfirst _ ih => simp [hfirst, ih]

namespace Entry

/-- Arrays without a type of their own take that of their items. -/
theorem types_of_bindFrom_arrays {position : Nat} {lists : List (List Document)}
    {bindings : List Binding}
    (h : bindFrom position (lists.map fun items => ⟨.array items, none⟩) = .ok bindings) :
    ∃ elements,
      List.Forall₂ (fun items element => Binding.elementType items = .ok element)
        lists elements ∧
      bindings.map Binding.type = elements.map .array := by
  induction lists generalizing position bindings with
  | nil =>
      cases h
      exact ⟨[], .nil, rfl⟩
  | cons items lists ih =>
      rw [List.map_cons] at h
      obtain ⟨first, others, hfirst, hothers, rfl⟩ := bindFrom_cons_eq_ok.1 h
      obtain ⟨elements, helements, htypes⟩ := ih hothers
      unfold bindAt BoundValue.typing at hfirst
      cases helement : Binding.elementType items with
      | error shape => simp [helement, Except.map] at hfirst
      | ok element =>
          simp only [helement, Except.map, Except.ok.injEq] at hfirst
          subst hfirst
          exact ⟨element :: elements, .cons helement helements, by simp [htypes]⟩

theorem untyped_array_iff {items : List Document} :
    Untyped ⟨.array items, none⟩ ↔ ∃ shape, Binding.elementType items = .error shape := by
  rw [untyped_iff]
  simp [BoundValue.typing, map_eq_error]

theorem bindAt_array_eq_error {position : Nat} {items : List Document} {fault : Fault} :
    bindAt position ⟨.array items, none⟩ = .error fault ↔
      ∃ shape, Binding.elementType items = .error shape ∧
        fault = .unresolvedType position shape := by
  rw [bindAt_eq_error]
  simp only [untyped_array_iff, BoundValue.typing, map_eq_error]
  constructor
  · rintro ⟨shape, -, hshape, rfl⟩
    exact ⟨shape, hshape, rfl⟩
  · rintro ⟨shape, hshape, rfl⟩
    exact ⟨shape, ⟨shape, hshape⟩, hshape, rfl⟩

/-- Binding arrays without a type stops at the first whose items have none in common. -/
theorem bindFrom_arrays_eq_error {position : Nat} {lists : List (List Document)}
    {fault : Fault} :
    bindFrom position (lists.map fun items => ⟨.array items, none⟩) = .error fault ↔
      ∃ before items after shape, lists = before ++ items :: after ∧
        (∀ earlier ∈ before, ∃ type, Binding.elementType earlier = .ok type) ∧
        Binding.elementType items = .error shape ∧
        fault = .unresolvedType (position + before.length) shape := by
  induction lists generalizing position with
  | nil => simp [bindFrom]
  | cons items lists ih =>
      rw [List.map_cons, bindFrom_cons_eq_error, bindAt_array_eq_error, ih, untyped_array_iff]
      constructor
      · rintro (⟨shape, hshape, rfl⟩ | ⟨htyped, before, other, after, shape, rfl, hbefore,
          hshape, rfl⟩)
        · exact ⟨[], items, lists, shape, rfl, by simp, hshape, by simp⟩
        · have hitems : ∃ type, Binding.elementType items = .ok type := by
            cases helement : Binding.elementType items with
            | ok type => exact ⟨type, rfl⟩
            | error shape => exact absurd ⟨shape, helement⟩ htyped
          refine ⟨items :: before, other, after, shape, rfl, ?_, hshape, ?_⟩
          · simpa using ⟨hitems, hbefore⟩
          · simp only [List.length_cons]
            congr 1
            omega
      · rintro ⟨before, other, after, shape, hlists, hbefore, hshape, rfl⟩
        cases before with
        | nil =>
            simp only [List.nil_append, List.cons.injEq] at hlists
            obtain ⟨rfl, rfl⟩ := hlists
            exact .inl ⟨shape, hshape, by simp⟩
        | cons earlier before =>
            simp only [List.cons_append, List.cons.injEq] at hlists
            obtain ⟨rfl, rfl⟩ := hlists
            obtain ⟨⟨type, htype⟩, hbefore⟩ := List.forall_mem_cons.1 hbefore
            refine .inr ⟨by simp [htype], before, other, after, shape, rfl, hbefore, hshape, ?_⟩
            simp only [List.length_cons]
            congr 1
            omega

/-- All of them have one type if it is that of the items of every list. -/
theorem bindFrom_arrays_type_iff (position : Nat) {lists : List (List Document)}
    {element : SqlType} :
    (∃ bindings, bindFrom position (lists.map fun items => ⟨.array items, none⟩) = .ok bindings ∧
        ∀ binding ∈ bindings, binding.type = .array element) ↔
      ∀ items ∈ lists, Binding.elementType items = .ok element := by
  -- The types of the bindings are the arrays of the inferred element types.
  have htypes : ∀ (bindings : List Binding) (elements : List SqlType),
      bindings.map Binding.type = elements.map .array →
      ((∀ binding ∈ bindings, binding.type = .array element) ↔
        ∀ other ∈ elements, other = element) := by
    intro bindings elements h
    have hmap : (∀ binding ∈ bindings, binding.type = .array element) ↔
        ∀ type ∈ bindings.map Binding.type, type = .array element := by simp
    rw [hmap, h]
    simp
  cases hbindings : bindFrom position (lists.map fun items => ⟨.array items, none⟩) with
  | error fault =>
      obtain ⟨before, items, after, shape, rfl, -, hshape, -⟩ :=
        bindFrom_arrays_eq_error.1 hbindings
      have hnot : ¬ ∀ other ∈ before ++ items :: after, Binding.elementType other = .ok element :=
        fun hall => by simp [hall items (by simp)] at hshape
      simpa only [reduceCtorEq, false_and, exists_false, false_iff] using hnot
  | ok bindings =>
      obtain ⟨elements, helements, hmap⟩ := types_of_bindFrom_arrays hbindings
      rw [Binding.forall_elementType_iff helements, ← htypes bindings elements hmap]
      simp only [Except.ok.injEq, exists_eq_left']

end Entry

namespace Binding

/-- The constants of a chain of appends, bound from the first position on. -/
theorem ofConstants_appends {type : SqlType} (htype : type.isArray = true)
    (first : List Document) (later : List (List Document)) :
    ofConstants (.typedArray first type :: later.map .array) =
      (Entry.bindFrom 2 (later.map fun items => ⟨.array items, none⟩)).map
        (⟨1, .array first, type⟩ :: ·) := by
  have hjsonb : type ≠ .jsonb := by
    intro h
    simp [h, SqlType.isArray, SqlType.element?] at htype
  have hlater : (later.map Constant.array).flatMap Constant.entries =
      later.map fun items => ⟨.array items, none⟩ := by
    induction later with
    | nil => rfl
    | cons items later ih => simp [ih, Constant.array, Constant.entries]
  have hfirst : (Constant.typedArray first type).entries = [⟨.array first, some type⟩] := by
    simp [Constant.typedArray, Constant.entries, hjsonb]
  rw [ofConstants, ofConstantsFrom_eq_bindFrom, List.flatMap_cons, hfirst, hlater,
    List.singleton_append, Entry.bindFrom]
  cases Entry.bindFrom (1 + 1) (later.map fun items => ⟨.array items, none⟩) <;> rfl

end Binding

namespace Expr

/-- Items appended one list after another to a column of arrays are built and compiled.
Bound they are one array for each list, in order, the first in the type of the column and
each later one in the type of its items; all of them are in the type of the column exactly
if the items of every later list have its element type in common.  A list whose items have
no type in common, such as an empty one, cannot be bound behind the first. -/
theorem bind_appended_arrays (style : Placeholder) {ref : ColumnRef} {element : SqlType}
    (htype : ref.type = .array element) (first : List Document)
    (later : List (List Document)) :
    ∃ e statement,
      (first :: later).foldlM concatItems (.column ref) = .ok e ∧
      Dialect.postgres.compile style e = .ok statement ∧
      (∀ bound, statement.bind = .ok bound →
        bound.bindings.map Binding.position = List.range' 1 (first :: later).length ∧
        bound.bindings.map Binding.value = (first :: later).map .array ∧
        ∃ elements,
          List.Forall₂ (fun items element => Binding.elementType items = .ok element)
            later elements ∧
          bound.bindings.map Binding.type = ref.type :: elements.map .array) ∧
      ((∃ bound, statement.bind = .ok bound ∧
          ∀ binding ∈ bound.bindings, binding.type = ref.type) ↔
        ∀ items ∈ later, Binding.elementType items = .ok element) ∧
      ∀ fault, statement.bind = .error fault ↔
        ∃ before items after shape, later = before ++ items :: after ∧
          (∀ earlier ∈ before, ∃ type, Binding.elementType earlier = .ok type) ∧
          Binding.elementType items = .error shape ∧
          fault = .unresolvedType (2 + before.length) shape := by
  have harray : ref.type.isArray = true := by simp [htype, SqlType.isArray, SqlType.element?]
  have hbuilt := foldlM_concatItems_column harray first later
  have hwell : WellFormed _ := foldlM_invariant
    (fun items _ subject next hnext hsubject => hsubject.concatItems hnext) hbuilt
    (wellFormed_column ref)
  obtain ⟨statement, hcompile, hparameters⟩ :=
    (Dialect.postgres_compile_parameters style).1 _ hwell
  have hbind : statement.bind =
      (Entry.bindFrom 2 (later.map fun items => ⟨.array items, none⟩)).map fun bindings =>
        ⟨statement.sql, ⟨1, .array first, ref.type⟩ :: bindings⟩ := by
    rw [Statement.bind, hparameters, constants_foldl_append, constants, List.nil_append,
      Binding.ofConstants_appends harray]
    cases Entry.bindFrom 2 (later.map fun items => ⟨.array items, none⟩) <;> rfl
  refine ⟨_, statement, hbuilt, hcompile, ?_, ?_, ?_⟩
  · intro bound hbound
    rw [hbind] at hbound
    obtain ⟨bindings, hbindings, rfl⟩ := map_eq_ok.1 hbound
    have hfollow := Binding.bindFrom_follow hbindings
    obtain ⟨elements, helements, htypes⟩ := Entry.types_of_bindFrom_arrays hbindings
    refine ⟨?_, ?_, elements, helements, ?_⟩
    · simp [hfollow.positions, List.range'_succ]
    · simp [hfollow.values]
    · simp [htypes]
  · rw [hbind, ← Entry.bindFrom_arrays_type_iff 2]
    constructor
    · rintro ⟨bound, hbound, hall⟩
      obtain ⟨bindings, hbindings, rfl⟩ := map_eq_ok.1 hbound
      rw [htype] at hall
      exact ⟨bindings, hbindings, (List.forall_mem_cons.1 hall).2⟩
    · rintro ⟨bindings, hbindings, hall⟩
      rw [hbindings, htype]
      exact ⟨_, rfl, List.forall_mem_cons.2 ⟨rfl, hall⟩⟩
  · intro fault
    rw [hbind, map_eq_error, Entry.bindFrom_arrays_eq_error]

/-- Whole numbers behind an empty list in a column of arrays of their own type. -/
theorem bind_appended_arrays_whole :
    let column : ColumnRef := ⟨none, ["marks"], .array .bigint⟩
    let lists : List (List Document) := [[], [.ofWord 1], [.ofWord 2, .ofWord 3]]
    column.type = .array .bigint ∧
      ∃ e statement bound,
        lists.foldlM concatItems (.column column) = .ok e ∧
        Dialect.postgres.compile .numbered e = .ok statement ∧
        statement.bind = .ok bound ∧
        bound.bindings.map Binding.value = lists.map .array ∧
        ∀ binding ∈ bound.bindings, binding.type = .array .bigint := by
  intro column lists
  have htype : column.type = .array .bigint := rfl
  obtain ⟨e, statement, hbuilt, hcompile, hbound, hall, -⟩ :=
    bind_appended_arrays .numbered htype [] [[.ofWord 1], [.ofWord 2, .ofWord 3]]
  have hlater : ∀ items ∈ [[Document.ofWord 1], [.ofWord 2, .ofWord 3]],
      Binding.elementType items = .ok .bigint := by
    simp only [List.forall_mem_cons, List.not_mem_nil, false_implies, implies_true, and_true]
    exact ⟨rfl, rfl⟩
  obtain ⟨bound, hbind, htypes⟩ := hall.2 hlater
  exact ⟨htype, e, statement, bound, hbuilt, hcompile, hbind, (hbound bound hbind).2.1, htypes⟩

/-- Behind texts an empty list cannot be bound, and in a column of arrays of integers
whole numbers are bound in another type than the ones in front of them. -/
theorem bind_appended_arrays_empty :
    let texts : ColumnRef := ⟨none, ["tags"], .array .text⟩
    let integers : ColumnRef := ⟨none, ["marks"], .array .integer⟩
    (∃ e statement,
      [[.string "a"], []].foldlM concatItems (.column texts) = .ok e ∧
      Dialect.postgres.compile .numbered e = .ok statement ∧
      statement.bind = .error (.unresolvedType 2 .emptyArray)) ∧
    ∃ e statement bound,
      [[.ofWord 1], [.ofWord 2]].foldlM concatItems (.column integers) = .ok e ∧
      Dialect.postgres.compile .numbered e = .ok statement ∧
      statement.bind = .ok bound ∧
      bound.bindings.map Binding.type = [.array .integer, .array .bigint] := by
  exact ⟨⟨_, _, rfl, rfl, rfl⟩, _, _, _, rfl, rfl, rfl, rfl⟩

end Expr

end JsonbAlgebra
