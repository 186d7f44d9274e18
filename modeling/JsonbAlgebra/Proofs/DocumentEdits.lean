import JsonbAlgebra.Document.Edit
import JsonbAlgebra.Proofs.KeyedOrder
import JsonbAlgebra.Proofs.Success

/-!
# Editing what a lookup finds

Setting and deleting walk down a path in their own way, but as far as the path
leads somewhere they walk like the lookup.  An edit is then its last step on the
document that the path without that step leads to, put back in that document's
place.  Putting a document in the place of another obeys the laws of a lens, and
the laws of both edits follow from them.

Objects are taken with ascending keys, which is how documents are read and kept.
-/

namespace JsonbAlgebra.Document

/-! ## Places in arrays -/

theorem item?_eq_some {items : List Document} {index : Int} {child : Document} :
    item? items index = some child ↔
      ∃ place, position? items.length index = some place ∧ items[place]? = some child :=
  Option.bind_eq_some_iff

/-- An index designates a place by counting from either end. -/
theorem position?_eq_some {length place : Nat} {index : Int} :
    position? length index = some place ↔
      place < length ∧ (index = place ∨ index = (place : Int) - length) := by
  unfold position?
  split
  · split <;> simp only [Option.some.injEq, reduceCtorEq, false_iff] <;> omega
  · split <;> simp only [Option.some.injEq, reduceCtorEq, false_iff] <;> omega

theorem position?_eq_none {length : Nat} {index : Int} :
    position? length index = none ↔ (length : Int) ≤ index ∨ index < -(length : Int) := by
  unfold position?
  split
  · split <;> simp only [reduceCtorEq, false_iff, true_iff] <;> omega
  · split <;> simp only [reduceCtorEq, false_iff, true_iff] <;> omega

/-! ## One step -/

/-- The document with another child at a step that leads to one. -/
def withChild (document : Document) (step : String) (child : Document) : Document :=
  match document with
  | .object fields => .object (Keyed.insert fields step child)
  | .array items =>
    .array (((index? step).bind (position? items.length)).elim items fun place =>
      items.set place child)
  | _ => document

theorem child?_array_eq_some {items : List Document} {step : String} {child : Document} :
    (Document.array items).child? step = some child ↔
      ∃ place, (index? step).bind (position? items.length) = some place ∧
        items[place]? = some child := by
  simp only [child?, Option.bind_eq_some_iff, item?_eq_some]
  constructor
  · rintro ⟨index, hindex, place, hplace, hchild⟩
    exact ⟨place, ⟨index, hindex, hplace⟩, hchild⟩
  · rintro ⟨place, ⟨index, hindex, hplace⟩, hchild⟩
    exact ⟨index, hindex, place, hplace, hchild⟩

theorem isContainer_of_child? {document child : Document} {step : String}
    (h : document.child? step = some child) : document.isContainer = true := by
  cases document with
  | object fields => rfl
  | array items => rfl
  | _ => cases h

theorem withChild_array {items : List Document} {step : String} {place : Nat}
    (hplace : (index? step).bind (position? items.length) = some place) (child : Document) :
    (Document.array items).withChild step child = .array (items.set place child) := by
  rw [withChild.eq_def]
  dsimp only
  rw [hplace, Option.elim_some]

section Step

variable {document : Document} {step : String} {old : Document} (h : document.child? step = some old)
include h

theorem child?_withChild (child : Document) :
    (document.withChild step child).child? step = some child := by
  cases document with
  | object fields => exact Keyed.find?_insert_self fields step child
  | array items =>
      obtain ⟨place, hplace, hold⟩ := child?_array_eq_some.1 h
      have hlt : place < items.length := (List.getElem?_eq_some_iff.1 hold).1
      rw [withChild_array hplace]
      refine child?_array_eq_some.2 ⟨place, by rw [List.length_set]; exact hplace, ?_⟩
      exact List.getElem?_set_self hlt
  | _ => cases h

theorem withChild_withChild (first second : Document) :
    (document.withChild step first).withChild step second = document.withChild step second := by
  cases document with
  | object fields => exact congrArg Document.object (Keyed.insert_insert fields step first second)
  | array items =>
      obtain ⟨place, hplace, -⟩ := child?_array_eq_some.1 h
      have hagain : (index? step).bind (position? (items.set place first).length) = some place := by
        rw [List.length_set, hplace]
      rw [withChild_array hplace, withChild_array hplace, withChild_array hagain, List.set_set]
  | _ => cases h

theorem withChild_self (hordered : document.Ordered) : document.withChild step old = document := by
  cases document with
  | object fields => exact congrArg Document.object (hordered.1.insert_of_find? h)
  | array items =>
      obtain ⟨place, hplace, hold⟩ := child?_array_eq_some.1 h
      obtain ⟨hlt, rfl⟩ := List.getElem?_eq_some_iff.1 hold
      rw [withChild_array hplace, List.set_getElem_self]
  | _ => cases h

end Step

theorem orderedItems_iff {items : List Document} :
    OrderedItems items ↔ ∀ item ∈ items, item.Ordered := by
  induction items with
  | nil => simp [OrderedItems]
  | cons item items ih => simp [OrderedItems, ih]

theorem orderedFields_iff {fields : List (String × Document)} :
    OrderedFields fields ↔ ∀ entry ∈ fields, entry.2.Ordered := by
  induction fields with
  | nil => simp [OrderedFields]
  | cons entry fields ih => simp [OrderedFields, ih]

theorem Ordered.child? {document : Document} (hordered : document.Ordered) {step : String}
    {child : Document} (h : document.child? step = some child) : child.Ordered := by
  cases document with
  | object fields => exact orderedFields_iff.1 hordered.2 _ (Keyed.mem_of_find? h)
  | array items =>
      obtain ⟨place, -, hchild⟩ := child?_array_eq_some.1 h
      exact orderedItems_iff.1 hordered _ (List.mem_of_getElem? hchild)
  | _ => cases h

theorem Ordered.at? {document : Document} (hordered : document.Ordered) {path : List String}
    {target : Document} (h : document.at? path = some target) : target.Ordered := by
  induction path generalizing document with
  | nil =>
      obtain rfl := Option.some.inj h
      exact hordered
  | cons step rest ih =>
      obtain ⟨child, hchild, hrest⟩ := Option.bind_eq_some_iff.1 h
      exact ih (hordered.child? hchild) hrest

/-! ## A whole path -/

/-- The document with another one at a path that leads somewhere. -/
def replaceAt (document : Document) : List String → Document → Document
  | [], replacement => replacement
  | step :: rest, replacement =>
    match document.child? step with
    | some child => document.withChild step (child.replaceAt rest replacement)
    | none => document

theorem replaceAt_cons {document child : Document} {step : String}
    (hchild : document.child? step = some child) (rest : List String) (replacement : Document) :
    document.replaceAt (step :: rest) replacement =
      document.withChild step (child.replaceAt rest replacement) := by
  rw [replaceAt, hchild]

section Path

variable {document : Document} {path : List String} {old : Document}
  (h : document.at? path = some old)
include h

theorem at?_replaceAt (replacement : Document) :
    (document.replaceAt path replacement).at? path = some replacement := by
  induction path generalizing document with
  | nil => rfl
  | cons step rest ih =>
      obtain ⟨child, hchild, hrest⟩ := Option.bind_eq_some_iff.1 h
      rw [replaceAt_cons hchild, at?_cons, child?_withChild hchild, Option.bind_some, ih hrest]

theorem replaceAt_replaceAt (first second : Document) :
    (document.replaceAt path first).replaceAt path second = document.replaceAt path second := by
  induction path generalizing document with
  | nil => rfl
  | cons step rest ih =>
      obtain ⟨child, hchild, hrest⟩ := Option.bind_eq_some_iff.1 h
      rw [replaceAt_cons hchild, replaceAt_cons hchild,
        replaceAt_cons (child?_withChild hchild _), withChild_withChild hchild, ih hrest]

theorem replaceAt_append (rest : List String) (replacement : Document) :
    document.replaceAt (path ++ rest) replacement =
      document.replaceAt path (old.replaceAt rest replacement) := by
  induction path generalizing document with
  | nil =>
      obtain rfl := Option.some.inj h
      rfl
  | cons step path ih =>
      obtain ⟨child, hchild, hpath⟩ := Option.bind_eq_some_iff.1 h
      rw [List.cons_append, replaceAt_cons hchild, replaceAt_cons hchild, ih hpath]

theorem replaceAt_self (hordered : document.Ordered) : document.replaceAt path old = document := by
  induction path generalizing document with
  | nil => exact Option.some.inj h.symm
  | cons step rest ih =>
      obtain ⟨child, hchild, hrest⟩ := Option.bind_eq_some_iff.1 h
      rw [replaceAt_cons hchild, ih hrest (hordered.child? hchild),
        withChild_self hchild hordered]

end Path

/-! ## Edits as replacements -/

section Edits

variable {last : LastStep} {document : Document} {path : List String}

theorem editAt_object (position : Nat) (step next : String) (rest : List String)
    (fields : List (String × Document)) :
    editAt last position (step :: next :: rest) (.object fields) =
      match Keyed.find? fields step with
      | some child =>
        (editAt last (position + 1) (next :: rest) child).map fun edited =>
          .object (Keyed.insert fields step edited)
      | none => .ok (.object fields) :=
  rfl

theorem editAt_array (position : Nat) (step next : String) (rest : List String)
    (items : List Document) :
    editAt last position (step :: next :: rest) (.array items) =
      match indexAt position step with
      | .error fault => .error fault
      | .ok index =>
        match position? items.length index with
        | some place =>
          match items[place]? with
          | some child =>
            (editAt last (position + 1) (next :: rest) child).map fun edited =>
              .array (items.set place edited)
          | none => .ok (.array items)
        | none => .ok (.array items) := by
  exact rfl

theorem editAt_array_last (position : Nat) (step : String) (items : List Document) :
    editAt last position [step] (.array items) =
      (indexAt position step).map fun index => .array (last.atIndex index items) :=
  rfl

theorem indexAt_of_index? {step : String} {index : Int} (h : index? step = some index)
    (position : Nat) : indexAt position step = .ok index := by
  rw [indexAt, h]

theorem indexAt_of_index?_eq_none {step : String} (h : index? step = none) (position : Nat) :
    indexAt position step = .error (.notInteger position step) := by
  rw [indexAt, h]

/-- An edit that has not come to its last step goes on in the child. -/
theorem editAt_cons {child : Document} {step : String} (hchild : document.child? step = some child)
    {rest : List String} (hrest : rest ≠ []) (position : Nat) :
    editAt last position (step :: rest) document =
      (editAt last (position + 1) rest child).map (document.withChild step) := by
  obtain _ | ⟨next, rest⟩ := rest
  · exact absurd rfl hrest
  cases document with
  | object fields =>
      have hfind : Keyed.find? fields step = some child := hchild
      rw [editAt_object, hfind]
      rfl
  | array items =>
      obtain ⟨place, hplace, hitem⟩ := child?_array_eq_some.1 hchild
      obtain ⟨index, hindex, hposition⟩ := Option.bind_eq_some_iff.1 hplace
      have hwith : (Document.array items).withChild step = fun edited =>
          .array (items.set place edited) :=
        funext fun edited => withChild_array hplace edited
      rw [editAt_array, indexAt_of_index? hindex, hwith]
      dsimp only
      rw [hposition]
      dsimp only
      rw [hitem]
  | _ => cases hchild

/-- An edit does its last step where the path without that step leads. -/
theorem editAt_append {target : Document} (h : document.at? path = some target) (step : String)
    (position : Nat) :
    editAt last position (path ++ [step]) document =
      (editAt last (position + path.length) [step] target).map (document.replaceAt path) := by
  induction path generalizing document position with
  | nil =>
      obtain rfl := Option.some.inj h
      rw [List.nil_append, List.length_nil, Nat.add_zero]
      cases editAt last position [step] document <;> rfl
  | cons first rest ih =>
      obtain ⟨child, hchild, hrest⟩ := Option.bind_eq_some_iff.1 h
      have hreplace : document.replaceAt (first :: rest) = fun edited =>
          document.withChild first (child.replaceAt rest edited) :=
        funext fun edited => replaceAt_cons hchild rest edited
      have hposition : position + 1 + rest.length = position + (first :: rest).length := by
        rw [List.length_cons]
        omega
      rw [List.cons_append, editAt_cons hchild (by simp), ih hrest, hposition, hreplace]
      cases editAt last (position + (first :: rest).length) [step] target <;> rfl

/-- An edit that has to go on where there is nothing fails or changes nothing. -/
theorem eq_of_editAt_of_child?_eq_none {step : String} (hchild : document.child? step = none)
    {rest : List String} (hrest : rest ≠ []) {position : Nat} {edited : Document}
    (h : editAt last position (step :: rest) document = .ok edited) : edited = document := by
  obtain _ | ⟨next, rest⟩ := rest
  · exact absurd rfl hrest
  cases document with
  | object fields =>
      have hfind : Keyed.find? fields step = none := hchild
      rw [editAt_object, hfind] at h
      exact (Except.ok.inj h).symm
  | array items =>
      rw [editAt_array] at h
      cases hindex : index? step with
      | none =>
          rw [indexAt_of_index?_eq_none hindex] at h
          cases h
      | some index =>
          have hitem : item? items index = none := by
            rw [child?, hindex, Option.bind_some] at hchild
            exact hchild
          rw [indexAt_of_index? hindex] at h
          dsimp only at h
          cases hplace : position? items.length index with
          | none =>
              rw [hplace] at h
              exact (Except.ok.inj h).symm
          | some place =>
              rw [item?, hplace, Option.bind_some] at hitem
              rw [hplace] at h
              dsimp only at h
              rw [hitem] at h
              exact (Except.ok.inj h).symm
  | _ => exact (Except.ok.inj h).symm

/-- Where the path without its last step leads to nothing that has children, an
edit that succeeds changes nothing. -/
theorem eq_of_editAt_eq_ok (hordered : document.Ordered)
    (htarget : ∀ target, document.at? path = some target → target.isContainer = false)
    {step : String} {position : Nat} {edited : Document}
    (h : editAt last position (path ++ [step]) document = .ok edited) : edited = document := by
  induction path generalizing document position edited with
  | nil =>
      have hscalar := htarget document rfl
      cases document with
      | object fields => cases hscalar
      | array items => cases hscalar
      | _ => exact (Except.ok.inj h).symm
  | cons first rest ih =>
      have hrest : rest ++ [step] ≠ [] := by simp
      rw [List.cons_append] at h
      cases hchild : document.child? first with
      | none => exact eq_of_editAt_of_child?_eq_none hchild hrest h
      | some child =>
          have hbelow : ∀ target, child.at? rest = some target → target.isContainer = false := by
            intro target hat
            apply htarget
            rw [at?_cons, hchild]
            exact hat
          rw [editAt_cons hchild hrest] at h
          obtain ⟨inner, hinner, rfl⟩ := map_eq_ok.1 h
          rw [ih (hordered.child? hchild) hbelow hinner, withChild_self hchild hordered]

end Edits

/-! ## Setting and deleting -/

/-- Setting a child that is there is putting another one in its place. -/
theorem editAt_setLast {document old : Document} {step : String}
    (h : document.child? step = some old) (value : Document) (position : Nat) :
    editAt (setLast value) position [step] document = .ok (document.withChild step value) := by
  cases document with
  | object fields => rfl
  | array items =>
      obtain ⟨place, hplace, -⟩ := child?_array_eq_some.1 h
      obtain ⟨index, hindex, hposition⟩ := Option.bind_eq_some_iff.1 hplace
      have hlast : (setLast value).atIndex index items = items.set place value := by
        simp only [setLast, hposition]
      rw [editAt_array_last, indexAt_of_index? hindex, withChild_array hplace, Except.map, hlast]
  | _ => cases h

section Paths

variable {document : Document} (hcontainer : document.isContainer = true) {path : List String}
  {step : String}
include hcontainer

theorem setPath_eq {target : Document} (h : document.at? path = some target) (value : Document) :
    document.setPath (path ++ [step]) value =
      (editAt (setLast value) path.length [step] target).map (document.replaceAt path) := by
  rw [setPath, if_pos hcontainer, editAt_append h, Nat.zero_add]

theorem deletePath_eq {target : Document} (h : document.at? path = some target) :
    document.deletePath (path ++ [step]) =
      (editAt deleteLast path.length [step] target).map (document.replaceAt path) := by
  rw [deletePath, if_pos hcontainer, editAt_append h, Nat.zero_add]

end Paths

end JsonbAlgebra.Document
