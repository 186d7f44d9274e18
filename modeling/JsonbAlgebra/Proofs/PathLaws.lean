import JsonbAlgebra.Proofs.DocumentEdits

/-!
# Lookup, setting and deleting agree on paths

What setting and deleting do depends on where the path without its last step
leads.  At a place that is there, setting replaces and can be taken back.  A key
of an object is created by setting and is gone after deleting.  An integer in an
array designates a place from either end, or else makes setting add an item at
that end.  Anywhere else both edits leave the document alone.

An integer is read as a step only if a signed 64-bit word holds it.  A longer one
is refused by both edits.
-/

namespace JsonbAlgebra.Document

/-! ## Integers as steps -/

theorem index?_of_fitsWord {step : String} {index : Int}
    (hread : Text.readInteger step.toList = some index) (hfits : Text.FitsWord index) :
    index? step = some index := by
  have hword : Text.word? index = some (Int64.ofInt index) := if_pos hfits
  rw [index?, Text.readWord, hread, Option.bind_some, hword, Option.map_some,
    Text.word?_eq_some_iff.1 hword]

theorem index?_of_not_fitsWord {step : String} {index : Int}
    (hread : Text.readInteger step.toList = some index) (hfits : ¬ Text.FitsWord index) :
    index? step = none := by
  have hword : Text.word? index = none := if_neg hfits
  rw [index?, Text.readWord, hread, Option.bind_some, hword]
  rfl

/-! ## The last step of a path -/

theorem exists_parent {document old : Document} {path : List String} {step : String}
    (h : document.at? (path ++ [step]) = some old) :
    ∃ parent, document.at? path = some parent ∧ parent.child? step = some old := by
  rw [at?_append] at h
  obtain ⟨parent, hparent, hstep⟩ := Option.bind_eq_some_iff.1 h
  obtain ⟨child, hchild, hold⟩ := Option.bind_eq_some_iff.1 hstep
  obtain rfl := Option.some.inj hold
  exact ⟨parent, hparent, hchild⟩

theorem replaceAt_step {document parent old : Document} {path : List String} {step : String}
    (hparent : document.at? path = some parent) (hchild : parent.child? step = some old)
    (replacement : Document) :
    document.replaceAt (path ++ [step]) replacement =
      document.replaceAt path (parent.withChild step replacement) := by
  rw [replaceAt_append hparent, replaceAt_cons hchild]
  rfl

theorem isContainer_withChild {document old : Document} {step : String}
    (hchild : document.child? step = some old) (child : Document) :
    (document.withChild step child).isContainer = true := by
  cases document with
  | object fields => rfl
  | array items => rfl
  | _ => cases hchild

section Laws

variable {document : Document} (hcontainer : document.isContainer = true) {path : List String}
  {step : String}
include hcontainer

theorem isContainer_replaceAt {replacement : Document}
    (hreplacement : replacement.isContainer = true) :
    (document.replaceAt path replacement).isContainer = true := by
  cases path with
  | nil => exact hreplacement
  | cons first rest =>
      rw [replaceAt]
      split
      · rename_i child hchild
        exact isContainer_withChild hchild _
      · exact hcontainer

/-! ## A place that is there -/

theorem setPath_of_at? {old : Document} (h : document.at? (path ++ [step]) = some old)
    (value : Document) :
    document.setPath (path ++ [step]) value = .ok (document.replaceAt (path ++ [step]) value) := by
  obtain ⟨parent, hparent, hchild⟩ := exists_parent h
  rw [setPath_eq hcontainer hparent, editAt_setLast hchild, replaceAt_step hparent hchild]
  rfl

theorem isContainer_replaceAt_step {old : Document}
    (h : document.at? (path ++ [step]) = some old) (replacement : Document) :
    (document.replaceAt (path ++ [step]) replacement).isContainer = true := by
  obtain ⟨parent, hparent, hchild⟩ := exists_parent h
  rw [replaceAt_step hparent hchild]
  exact isContainer_replaceAt hcontainer (isContainer_withChild hchild replacement)

theorem setPath_laws_of_at? (hordered : document.Ordered) {old : Document}
    (h : document.at? (path ++ [step]) = some old) (value other : Document) :
    ∃ edited, document.setPath (path ++ [step]) value = .ok edited ∧
      edited.at? (path ++ [step]) = some value ∧
      document.setPath (path ++ [step]) old = .ok document ∧
      edited.setPath (path ++ [step]) other = document.setPath (path ++ [step]) other := by
  have hedited := at?_replaceAt h value
  refine ⟨_, setPath_of_at? hcontainer h value, hedited, ?_, ?_⟩
  · rw [setPath_of_at? hcontainer h, replaceAt_self h hordered]
  · rw [setPath_of_at? (isContainer_replaceAt_step hcontainer h value) hedited,
      setPath_of_at? hcontainer h, replaceAt_replaceAt h]

/-! ## A key of an object -/

section Object

variable {fields : List (String × Document)} (h : document.at? path = some (.object fields))
include h

theorem setPath_of_object (value : Document) :
    document.setPath (path ++ [step]) value =
      .ok (document.replaceAt path (.object (Keyed.insert fields step value))) := by
  rw [setPath_eq hcontainer h]
  rfl

theorem deletePath_of_object :
    document.deletePath (path ++ [step]) =
      .ok (document.replaceAt path (.object (Keyed.erase fields step))) := by
  rw [deletePath_eq hcontainer h]
  rfl

theorem edits_of_object (hordered : document.Ordered) (value : Document) :
    ∃ edited deleted, document.setPath (path ++ [step]) value = .ok edited ∧
      edited.at? (path ++ [step]) = some value ∧
      document.deletePath (path ++ [step]) = .ok deleted ∧
      edited.deletePath (path ++ [step]) = .ok deleted ∧
      deleted.at? (path ++ [step]) = none := by
  have hfields : Keyed.Ordered fields := (hordered.at? h).1
  have hedited := at?_replaceAt h (.object (Keyed.insert fields step value))
  have hdeleted := at?_replaceAt h (.object (Keyed.erase fields step))
  have hstill : (document.replaceAt path (.object (Keyed.insert fields step value))).isContainer =
      true := isContainer_replaceAt hcontainer rfl
  refine ⟨_, _, setPath_of_object hcontainer h value, ?_, deletePath_of_object hcontainer h,
    ?_, ?_⟩
  · rw [at?_append, hedited, Option.bind_some, at?_cons, child?, Keyed.find?_insert_self]
    rfl
  · rw [deletePath_of_object hstill hedited, hfields.erase_insert, replaceAt_replaceAt h]
  · rw [at?_append, hdeleted, Option.bind_some, at?_cons, child?, hfields.find?_erase_self]
    rfl

end Object

/-! ## An integer in an array -/

section Array

variable {items : List Document} (h : document.at? path = some (.array items)) {index : Int}
include h

theorem setPath_of_array (hindex : index? step = some index) (value : Document) :
    document.setPath (path ++ [step]) value =
      .ok (document.replaceAt path (.array ((setLast value).atIndex index items))) := by
  rw [setPath_eq hcontainer h, editAt_array_last, indexAt_of_index? hindex]
  rfl

theorem deletePath_of_array (hindex : index? step = some index) :
    document.deletePath (path ++ [step]) =
      .ok (document.replaceAt path (.array (deleteLast.atIndex index items))) := by
  rw [deletePath_eq hcontainer h, editAt_array_last, indexAt_of_index? hindex]
  rfl

theorem edits_of_array (hordered : document.Ordered) (hindex : index? step = some index)
    (value : Document) :
    ∃ edited deleted, document.setPath (path ++ [step]) value = .ok edited ∧
      document.deletePath (path ++ [step]) = .ok deleted ∧
      (∀ place < items.length, index = place ∨ index = (place : Int) - items.length →
        edited.at? path = some (.array (items.set place value)) ∧
          deleted.at? path = some (.array (items.eraseIdx place))) ∧
      ((items.length : Int) ≤ index →
        edited.at? path = some (.array (items ++ [value])) ∧ deleted = document) ∧
      (index < -(items.length : Int) →
        edited.at? path = some (.array (value :: items)) ∧ deleted = document) := by
  have hset := at?_replaceAt h (.array ((setLast value).atIndex index items))
  have hdelete := at?_replaceAt h (.array (deleteLast.atIndex index items))
  have hunchanged : position? items.length index = none →
      document.replaceAt path (.array (deleteLast.atIndex index items)) = document := by
    intro hnone
    have hlast : deleteLast.atIndex index items = items := by
      simp only [deleteLast, hnone]
    rw [hlast, replaceAt_self h hordered]
  refine ⟨_, _, setPath_of_array hcontainer h hindex value,
    deletePath_of_array hcontainer h hindex, ?_, ?_, ?_⟩
  · intro place hlt hplace
    have hposition := position?_eq_some.2 ⟨hlt, hplace⟩
    rw [hset, hdelete]
    simp only [setLast, deleteLast, hposition, and_self]
  · intro hbehind
    have hnone := position?_eq_none.2 (.inl hbehind)
    have hnonnegative : ¬ index < 0 := by omega
    refine ⟨?_, hunchanged hnone⟩
    rw [hset]
    simp only [setLast, hnone, if_neg hnonnegative]
  · intro hbefore
    have hnone := position?_eq_none.2 (.inr hbefore)
    have hnegative : index < 0 := by omega
    refine ⟨?_, hunchanged hnone⟩
    rw [hset]
    simp only [setLast, hnone, if_pos hnegative]

theorem edits_of_array_refused (hindex : index? step = none) (value : Document) :
    document.setPath (path ++ [step]) value = .error (.notInteger path.length step) ∧
      document.deletePath (path ++ [step]) = .error (.notInteger path.length step) := by
  rw [setPath_eq hcontainer h, deletePath_eq hcontainer h, editAt_array_last, editAt_array_last,
    indexAt_of_index?_eq_none hindex]
  exact ⟨rfl, rfl⟩

end Array

/-! ## Nothing with children -/

theorem eq_of_edit_eq_ok (hordered : document.Ordered)
    (htarget : ∀ target, document.at? path = some target → target.isContainer = false)
    {value edited : Document}
    (h : document.setPath (path ++ [step]) value = .ok edited ∨
      document.deletePath (path ++ [step]) = .ok edited) : edited = document := by
  rw [setPath, deletePath, if_pos hcontainer, if_pos hcontainer] at h
  rcases h with h | h
  · exact eq_of_editAt_eq_ok hordered htarget h
  · exact eq_of_editAt_eq_ok hordered htarget h

end Laws

/-- Lookup, setting and deleting at a path that is not empty, by what the path
without its last step leads to: a place that is there is set and taken back; a key
is set, or gone; an integer of a word's range sets or deletes its item or adds one
at an end, while a longer one is refused; and otherwise nothing changes. -/
theorem path_edit_laws {document : Document} (hordered : document.Ordered)
    (hcontainer : document.isContainer = true) (path : List String) (step : String)
    (value other : Document) :
    (∀ old, document.at? (path ++ [step]) = some old →
      ∃ edited, document.setPath (path ++ [step]) value = .ok edited ∧
        edited.at? (path ++ [step]) = some value ∧
        document.setPath (path ++ [step]) old = .ok document ∧
        edited.setPath (path ++ [step]) other = document.setPath (path ++ [step]) other) ∧
    (∀ fields, document.at? path = some (.object fields) →
      ∃ edited deleted, document.setPath (path ++ [step]) value = .ok edited ∧
        edited.at? (path ++ [step]) = some value ∧
        document.deletePath (path ++ [step]) = .ok deleted ∧
        edited.deletePath (path ++ [step]) = .ok deleted ∧
        deleted.at? (path ++ [step]) = none) ∧
    (∀ items index, document.at? path = some (.array items) →
      Text.readInteger step.toList = some index →
      (Text.FitsWord index →
        ∃ edited deleted, document.setPath (path ++ [step]) value = .ok edited ∧
          document.deletePath (path ++ [step]) = .ok deleted ∧
          (∀ place < items.length, index = place ∨ index = (place : Int) - items.length →
            edited.at? path = some (.array (items.set place value)) ∧
              deleted.at? path = some (.array (items.eraseIdx place))) ∧
          ((items.length : Int) ≤ index →
            edited.at? path = some (.array (items ++ [value])) ∧ deleted = document) ∧
          (index < -(items.length : Int) →
            edited.at? path = some (.array (value :: items)) ∧ deleted = document)) ∧
      (¬ Text.FitsWord index →
        document.setPath (path ++ [step]) value = .error (.notInteger path.length step) ∧
          document.deletePath (path ++ [step]) = .error (.notInteger path.length step))) ∧
    ((∀ target, document.at? path = some target → target.isContainer = false) →
      ∀ edited, document.setPath (path ++ [step]) value = .ok edited ∨
        document.deletePath (path ++ [step]) = .ok edited → edited = document) := by
  refine ⟨?_, ?_, ?_, ?_⟩
  · intro old hold
    exact setPath_laws_of_at? hcontainer hordered hold value other
  · intro fields hfields
    exact edits_of_object hcontainer hfields hordered value
  · intro items index hitems hread
    constructor
    · intro hfits
      exact edits_of_array hcontainer hitems hordered (index?_of_fitsWord hread hfits) value
    · intro hlong
      exact edits_of_array_refused hcontainer hitems (index?_of_not_fitsWord hread hlong) value
  · intro htarget edited hedited
    exact eq_of_edit_eq_ok hcontainer hordered htarget hedited

/-- The last of two items, reached under a key and counted from the end. -/
theorem path_edit_laws_last_item :
    ∃ edited deleted,
      (object [("a", array [.string "x", .string "y"])]).setPath ["a", "-1"] .null = .ok edited ∧
        (object [("a", array [.string "x", .string "y"])]).deletePath ["a", "-1"] = .ok deleted ∧
        edited.at? ["a"] = some (array [.string "x", .null]) ∧
        deleted.at? ["a"] = some (array [.string "x"]) := by
  have hordered : (object [("a", array [.string "x", .string "y"])]).Ordered := by
    simp [Document.Ordered, OrderedFields, OrderedItems, Keyed.Ordered]
  have hread : Text.readInteger "-1".toList = some (-1) := by decide
  obtain ⟨-, -, hindex, -⟩ := path_edit_laws hordered rfl ["a"] "-1" .null .null
  obtain ⟨edited, deleted, hset, hdelete, hplaces, -⟩ :=
    (hindex _ _ rfl hread).1 (by decide)
  obtain ⟨hedited, hdeleted⟩ := hplaces 1 (by decide) (.inr rfl)
  exact ⟨edited, deleted, hset, hdelete, hedited, hdeleted⟩

/-- One more than the greatest word does not append to an array. -/
theorem setPath_too_long :
    (array []).Ordered ∧ (array []).isContainer = true ∧
      (array []).at? [] = some (array []) ∧
      Text.readInteger "9223372036854775808".toList = some 9223372036854775808 ∧
      ¬ ∃ edited, (array []).setPath ["9223372036854775808"] .null = .ok edited ∧
        edited.at? [] = some (array ([] ++ [.null])) := by
  have hread : Text.readInteger "9223372036854775808".toList = some 9223372036854775808 := by
    decide
  refine ⟨trivial, rfl, rfl, hread, ?_⟩
  rintro ⟨edited, hset, -⟩
  have hcontainer : (array []).isContainer = true := rfl
  have hempty : (array []).at? [] = some (array []) := rfl
  have hindex := index?_of_not_fitsWord hread (by decide)
  have hrefused := (edits_of_array_refused hcontainer hempty hindex .null).1
  rw [List.nil_append] at hrefused
  rw [hrefused] at hset
  cases hset

end JsonbAlgebra.Document
