import JsonbAlgebra.Binding
import JsonbAlgebra.Proofs.Success
import Mathlib.Algebra.GroupWithZero.Nat

/-!
# Entries

A constant takes one placeholder or, when it is a list of alternatives, one for each of
them.  Its entries are the values at these placeholders, and binding constants is binding
their entries on consecutive positions.
-/

namespace JsonbAlgebra

structure Entry where
  value : BoundValue
  declared : Option SqlType

/-- A value list has an entry for each value and any other constant has one.
An array that is declared as jsonb is one document. -/
def Constant.entries (constant : Constant) : List Entry :=
  match constant.literal with
  | .null => [⟨.null, constant.declared⟩]
  | .scalar value => [⟨.scalar value, constant.declared⟩]
  | .array items =>
    if constant.declared = some .jsonb then [⟨.scalar (.array items), constant.declared⟩]
    else [⟨.array items, constant.declared⟩]
  | .list values => values.map fun value => ⟨.scalar value, constant.declared⟩

theorem Constant.length_entries (constant : Constant) :
    constant.entries.length = constant.slots := by
  unfold Constant.entries Constant.slots
  cases constant.literal with
  | array items => dsimp only; split <;> rfl
  | list values => simp
  | _ => rfl

theorem Constant.length_flatMap_entries (constants : List Constant) :
    (constants.flatMap Constant.entries).length = (constants.map Constant.slots).sum := by
  rw [List.length_flatMap]
  exact congrArg List.sum (List.map_congr_left fun constant _ => constant.length_entries)

namespace BoundValue

/-- The type of a value's shape, or the shape that has none. -/
def typing : BoundValue → Except Shape SqlType
  | .null => .error (.single .null)
  | .scalar value =>
    match Binding.typeOf? value with
    | some type => .ok type
    | none => .error (.single value.kind)
  | .array items => (Binding.elementType items).map .array

end BoundValue

namespace Entry

def bindAt (position : Nat) (entry : Entry) : Except Fault Binding :=
  match entry.declared with
  | some type => .ok ⟨position, entry.value, type⟩
  | none =>
    match entry.value.typing with
    | .ok type => .ok ⟨position, entry.value, type⟩
    | .error shape => .error (.unresolvedType position shape)

/-- Entries on consecutive positions, from a position on. -/
def bindFrom : Nat → List Entry → Except Fault (List Binding)
  | _, [] => .ok []
  | position, entry :: entries => do
    let first ← entry.bindAt position
    let others ← bindFrom (position + 1) entries
    return first :: others

theorem bindFrom_cons_eq_ok {position : Nat} {entry : Entry} {entries : List Entry}
    {bindings : List Binding} :
    bindFrom position (entry :: entries) = .ok bindings ↔
      ∃ first others, entry.bindAt position = .ok first ∧
        bindFrom (position + 1) entries = .ok others ∧ bindings = first :: others := by
  simp only [bindFrom, bind_eq_ok, pure, Except.pure, Except.ok.injEq]
  constructor
  · rintro ⟨first, hfirst, others, hothers, rfl⟩
    exact ⟨first, others, hfirst, hothers, rfl⟩
  · rintro ⟨first, others, hfirst, hothers, rfl⟩
    exact ⟨first, hfirst, others, hothers, rfl⟩

theorem length_bindFrom {position : Nat} {entries : List Entry} {bindings : List Binding}
    (h : bindFrom position entries = .ok bindings) : bindings.length = entries.length := by
  induction entries generalizing position bindings with
  | nil =>
      cases h
      rfl
  | cons entry entries ih =>
      obtain ⟨first, others, -, hothers, rfl⟩ := bindFrom_cons_eq_ok.1 h
      rw [List.length_cons, List.length_cons, ih hothers]

theorem bindFrom_singleton (position : Nat) (entry : Entry) :
    bindFrom position [entry] = (entry.bindAt position).map ([·]) := by
  rw [bindFrom, bindFrom]
  cases entry.bindAt position <;> rfl

theorem bindFrom_append (position : Nat) (first second : List Entry) :
    bindFrom position (first ++ second) = do
      let early ← bindFrom position first
      let late ← bindFrom (position + first.length) second
      return early ++ late := by
  induction first generalizing position with
  | nil =>
      rw [List.nil_append, bindFrom, List.length_nil, Nat.add_zero]
      cases bindFrom position second <;> rfl
  | cons entry entries ih =>
      have hnext : position + 1 + entries.length = position + (entries.length + 1) := by omega
      rw [List.cons_append, bindFrom, bindFrom, ih, List.length_cons, hnext]
      cases entry.bindAt position with
      | error fault => rfl
      | ok binding =>
          cases bindFrom (position + 1) entries with
          | error fault => rfl
          | ok early => cases bindFrom (position + (entries.length + 1)) second <;> rfl

end Entry

/-! ## Constants as their entries -/

namespace Binding

theorem ofScalar_eq_bindAt (position : Nat) (declared : Option SqlType) (value : Document) :
    ofScalar position declared value = Entry.bindAt position ⟨.scalar value, declared⟩ := by
  cases declared with
  | some type => rfl
  | none =>
      rw [ofScalar, Entry.bindAt, BoundValue.typing, Option.none_or]
      cases typeOf? value <;> rfl

theorem ofNull_eq_bindAt (position : Nat) (declared : Option SqlType) :
    ofNull position declared = Entry.bindAt position ⟨.null, declared⟩ := by
  cases declared <;> rfl

theorem ofArray_eq_bindFrom (position : Nat) (declared : Option SqlType)
    (items : List Document) :
    (ofArray position declared items).map ([·]) =
      Entry.bindFrom position (Constant.entries ⟨.array items, declared⟩) := by
  cases declared with
  | some type => cases type <;> rfl
  | none =>
      have hentries : Constant.entries ⟨.array items, none⟩ = [⟨.array items, none⟩] := rfl
      rw [hentries, Entry.bindFrom_singleton, Entry.bindAt, BoundValue.typing, ofArray]
      cases elementType items <;> rfl

theorem ofList_eq_bindFrom (declared : Option SqlType) (position : Nat)
    (values : List Document) :
    ofList declared position values =
      Entry.bindFrom position (values.map fun value => ⟨.scalar value, declared⟩) := by
  induction values generalizing position with
  | nil => rfl
  | cons value values ih =>
      rw [ofList, List.map_cons, Entry.bindFrom, ofScalar_eq_bindAt, ih]

theorem ofConstant_eq_bindFrom (position : Nat) (constant : Constant) :
    ofConstant position constant = Entry.bindFrom position constant.entries := by
  obtain ⟨literal, declared⟩ := constant
  cases literal with
  | null =>
      rw [Constant.entries, Entry.bindFrom_singleton, ← ofNull_eq_bindAt]
      rfl
  | scalar value =>
      rw [Constant.entries, Entry.bindFrom_singleton, ← ofScalar_eq_bindAt]
      rfl
  | array items => exact ofArray_eq_bindFrom position declared items
  | list values => exact ofList_eq_bindFrom declared position values

theorem length_ofConstant {position : Nat} {constant : Constant} {bindings : List Binding}
    (h : ofConstant position constant = .ok bindings) : bindings.length = constant.slots := by
  rw [ofConstant_eq_bindFrom] at h
  rw [Entry.length_bindFrom h, constant.length_entries]

/-- The constants behind another one start behind its slots. -/
theorem ofConstantsFrom_cons (position : Nat) (constant : Constant) (constants : List Constant) :
    ofConstantsFrom position (constant :: constants) = do
      let first ← ofConstant position constant
      let others ← ofConstantsFrom (position + constant.slots) constants
      return first ++ others := by
  rw [ofConstantsFrom]
  cases hfirst : ofConstant position constant with
  | error fault => rfl
  | ok first =>
      rw [← length_ofConstant hfirst]
      rfl

theorem ofConstantsFrom_eq_bindFrom (position : Nat) (constants : List Constant) :
    ofConstantsFrom position constants =
      Entry.bindFrom position (constants.flatMap Constant.entries) := by
  induction constants generalizing position with
  | nil => rfl
  | cons constant constants ih =>
      rw [ofConstantsFrom_cons, List.flatMap_cons, Entry.bindFrom_append, ofConstant_eq_bindFrom,
        ih, constant.length_entries]

end Binding

end JsonbAlgebra
