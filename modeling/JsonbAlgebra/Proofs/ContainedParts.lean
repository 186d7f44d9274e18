import JsonbAlgebra.Proofs.ContainmentDepth
import JsonbAlgebra.Proofs.DocumentEdits
import JsonbAlgebra.Proofs.ExactNumbers
import JsonbAlgebra.Proofs.Regrouping

/-!
# What was put in is contained

Every document contains itself.  A concatenation contains what was appended, save for an
object behind something else, since an array never contains an object.  It also contains
what it was appended to, unless that is an object, whose values may have been replaced
and which an array does not contain either.  An object contains each field set in it, and
after a key is deleted it neither has the key nor contains an object that has it.
-/

namespace JsonbAlgebra.Document

theorem contains_iff {outer inner : Document} :
    outer.contains inner = true ↔ Covers True outer inner :=
  within_iff

/-! ## A document in itself -/

theorem sameScalar_self {document : Document} (h : document.isContainer = false) :
    SameScalar document document := by
  cases document with
  | null => exact .null
  | boolean value => exact .boolean value
  | number x => exact .number x.equal_self
  | string value => exact .string value
  | array items => cases h
  | object fields => cases h

theorem covers_self {held : Prop} {document : Document} (hordered : document.Ordered) :
    Covers held document document := by
  induction document with
  | array items ih =>
      exact covers_array.2 fun item hmem =>
        ⟨item, hmem, ih item hmem (orderedItems_iff.1 hordered item hmem)⟩
  | object fields ih =>
      exact covers_object.2 fun key value hmem =>
        ⟨value, hordered.1.find?_of_mem hmem,
          ih key value hmem (orderedFields_iff.1 hordered.2 _ hmem)⟩
  | _ => exact (covers_scalar rfl).2 (.inl (sameScalar_self rfl))

/-! ## Concatenations -/

/-- An array contains whatever brings no elements that it does not hold. -/
theorem covers_of_elements {items : List Document} {inner : Document} (hordered : inner.Ordered)
    (hkind : inner.kind ≠ .object) (helements : ∀ element ∈ inner.elements, element ∈ items) :
    Covers True (.array items) inner := by
  cases hcontainer : inner.isContainer with
  | false =>
      have hself : inner ∈ items := by
        cases inner with
        | array wanted | object wanted => cases hcontainer
        | _ => exact helements _ List.mem_cons_self
      refine (covers_scalar hcontainer).2 (.inr ⟨trivial, items, rfl, inner, hself, ?_⟩)
      exact sameScalar_self hcontainer
  | true =>
      cases inner with
      | array wanted =>
          exact covers_array.2 fun item hmem =>
            ⟨item, helements item hmem, covers_self (orderedItems_iff.1 hordered item hmem)⟩
      | object wanted => exact absurd rfl hkind
      | _ => cases hcontainer

theorem contains_concat_right_iff (left : Document) {right : Document}
    (hordered : right.Ordered) :
    (left.concat right).contains right = true ↔
      ¬ (right.kind = .object ∧ left.kind ≠ .object) := by
  rw [contains_iff]
  by_cases hmerge : Mergeable left right
  · refine iff_of_true ?_ fun h => h.2 hmerge.1
    obtain ⟨fields, rfl⟩ := exists_fields hmerge.1
    obtain ⟨extra, rfl⟩ := exists_fields hmerge.2
    refine covers_object.2 fun key value hmem => ⟨value, ?_, ?_⟩
    · rw [Keyed.find?_merge hordered.1, hordered.1.find?_of_mem hmem]
      rfl
    · exact covers_self (orderedFields_iff.1 hordered.2 _ hmem)
  · rw [concat_of_not_mergeable hmerge]
    by_cases hkind : right.kind = .object
    · have hleft : left.kind ≠ .object := fun hleft => hmerge ⟨hleft, hkind⟩
      refine iff_of_false (covers_container ?_ ?_) fun h => h ⟨hkind, hleft⟩
      · obtain ⟨fields, rfl⟩ := exists_fields hkind
        rfl
      · rw [hkind]
        exact nofun
    · refine iff_of_true ?_ fun h => hkind h.1
      exact covers_of_elements hordered hkind fun _ => List.mem_append_right _

theorem contains_concat_left {left : Document} (hordered : left.Ordered)
    (hkind : left.kind ≠ .object) (right : Document) :
    (left.concat right).contains left = true := by
  rw [contains_iff, concat_of_not_mergeable fun h => hkind h.1]
  exact covers_of_elements hordered hkind fun _ => List.mem_append_left _

/-! ## Fields -/

theorem contains_setPath (fields : List (String × Document)) (key : String) {value : Document}
    (hordered : value.Ordered) :
    ∃ edited, (object fields).setPath [key] value = .ok edited ∧
      edited.contains (.object [(key, value)]) = true := by
  refine ⟨.object (Keyed.insert fields key value), rfl, ?_⟩
  refine contains_iff.2 (covers_object.2 fun name other hmem => ?_)
  obtain ⟨rfl, rfl⟩ := Prod.mk.inj (List.mem_singleton.1 hmem)
  exact ⟨other, Keyed.find?_insert_self fields name other, covers_self hordered⟩

theorem not_contains_of_find?_eq_none {fields wanted : List (String × Document)} {key : String}
    (hfind : Keyed.find? fields key = none) (hkey : key ∈ Keyed.keys wanted) :
    (object fields).contains (.object wanted) = false := by
  rw [Bool.eq_false_iff]
  intro h
  obtain ⟨value, hvalue⟩ := Keyed.mem_keys_iff.1 hkey
  obtain ⟨found, hfound, -⟩ :=
    covers_object.1 (contains_iff.1 h) key value (Keyed.mem_of_find? hvalue)
  cases hfind.symm.trans hfound

theorem deleteKey_leaves_no_key {fields : List (String × Document)}
    (hordered : Keyed.Ordered fields) (key : String) :
    ∃ deleted, (object fields).deleteKey key = .ok deleted ∧ deleted.hasKey key = false ∧
      ∀ wanted, key ∈ Keyed.keys wanted → deleted.contains (.object wanted) = false := by
  have hfind := hordered.find?_erase_self key
  refine ⟨.object (Keyed.erase fields key), rfl, ?_, fun wanted hkey => ?_⟩
  · rw [hasKey, hfind]
    rfl
  · exact not_contains_of_find?_eq_none hfind hkey

/-- Every document contains itself.  A concatenation contains its right side unless that
is an object and the left side is none, and it contains its left side if that is no
object.  An object in which a field is set contains the field, and one from which a key
is deleted neither has the key nor contains an object with that key. -/
theorem contains_what_was_put {left right : Document} (hleft : left.Ordered)
    (hright : right.Ordered) :
    left.contains left = true ∧
      ((left.concat right).contains right = true ↔
        ¬ (right.kind = .object ∧ left.kind ≠ .object)) ∧
      (left.kind ≠ .object → (left.concat right).contains left = true) ∧
      ∀ fields key, left = .object fields →
        (∃ edited, left.setPath [key] right = .ok edited ∧
          edited.contains (.object [(key, right)]) = true) ∧
        ∃ deleted, left.deleteKey key = .ok deleted ∧ deleted.hasKey key = false ∧
          ∀ wanted, key ∈ Keyed.keys wanted → deleted.contains (.object wanted) = false := by
  refine ⟨contains_iff.2 (covers_self hleft), contains_concat_right_iff left hright,
    fun hkind => contains_concat_left hleft hkind right, ?_⟩
  rintro fields key rfl
  exact ⟨contains_setPath fields key hright, deleteKey_leaves_no_key hleft.1 key⟩

/-- A nested value in place of a scalar. -/
theorem contains_what_was_put_nested :
    let left := object [("a", boolean true), ("b", null)]
    let right := object [("a", array [object [("c", string "x")]])]
    left.Ordered ∧ right.Ordered ∧ left.contains left = true ∧
      (left.concat right).contains right = true ∧
      ∃ deleted, left.deleteKey "a" = .ok deleted ∧ deleted.hasKey "a" = false ∧
        deleted.contains right = false := by
  intro left right
  have hkeys : Keyed.Ordered [("a", boolean true), ("b", null)] := List.pairwise_pair.2 (by decide)
  have hleft : left.Ordered := by
    simp [left, Document.Ordered, OrderedFields, hkeys]
  have hright : right.Ordered := by
    simp [right, Document.Ordered, OrderedFields, OrderedItems, Keyed.Ordered]
  obtain ⟨hself, hconcat, -, hfields⟩ := contains_what_was_put hleft hright
  obtain ⟨-, deleted, hdeleted, hkey, hlacks⟩ := hfields _ "a" rfl
  exact ⟨hleft, hright, hself, hconcat.2 fun h => h.2 rfl, deleted, hdeleted, hkey,
    hlacks _ List.mem_cons_self⟩

end JsonbAlgebra.Document
