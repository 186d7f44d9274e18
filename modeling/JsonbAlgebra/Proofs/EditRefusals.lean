import JsonbAlgebra.Proofs.DocumentEdits

/-!
# What edits refuse

Besides documents without children, an edit refuses a path that comes to an array
with a step that is no index.  The step is read before it is known whether the
array has such an item, and whatever is done at the last step, so that setting and
deleting refuse the same paths.  The lookup takes the same step for one that leads
nowhere.

Deleting what the lookup does not find changes nothing, unless it is refused.
-/

namespace JsonbAlgebra.Document

/-- Whether a path comes to an array with a step that no signed 64-bit word
stands for. -/
def Misread (document : Document) (path : List String) : Prop :=
  ∃ before step after items, path = before ++ step :: after ∧
    document.at? before = some (.array items) ∧ Text.readWord step.toList = none

theorem index?_eq_none_iff {step : String} :
    index? step = none ↔ Text.readWord step.toList = none := by
  simp [index?]

theorem not_misread_nil (document : Document) : ¬ document.Misread [] := by
  rintro ⟨before, step, after, items, hpath, -⟩
  simp at hpath

theorem misread_cons {document : Document} {step : String} {rest : List String} :
    document.Misread (step :: rest) ↔
      ((∃ items, document = .array items) ∧ index? step = none) ∨
        ∃ child, document.child? step = some child ∧ child.Misread rest := by
  constructor
  · rintro ⟨before, misread, after, items, hpath, hitems, hread⟩
    cases before with
    | nil =>
        simp only [List.nil_append, List.cons.injEq] at hpath
        rw [← hpath.1] at hread
        exact .inl ⟨⟨items, Option.some.inj hitems⟩, index?_eq_none_iff.2 hread⟩
    | cons first before =>
        simp only [List.cons_append, List.cons.injEq] at hpath
        obtain ⟨child, hchild, hbefore⟩ := Option.bind_eq_some_iff.1 hitems
        rw [← hpath.1] at hchild
        exact .inr ⟨child, hchild, before, misread, after, items, hpath.2, hbefore, hread⟩
  · rintro (⟨⟨items, rfl⟩, hindex⟩ | ⟨child, hchild, before, misread, after, items, rfl,
      hitems, hread⟩)
    · exact ⟨[], step, rest, items, rfl, rfl, index?_eq_none_iff.1 hindex⟩
    · exact ⟨step :: before, misread, after, items, rfl, by simp [hchild, hitems], hread⟩

section Edits

variable {last : LastStep} {document : Document} {step : String} {rest : List String}

theorem editAt_nil (last : LastStep) (position : Nat) (document : Document) :
    editAt last position [] document = .ok document := by
  cases document <;> rfl

theorem editAt_array_of_index?_eq_none (hindex : index? step = none) (position : Nat)
    (rest : List String) (items : List Document) :
    editAt last position (step :: rest) (.array items) = .error (.notInteger position step) := by
  cases rest with
  | nil => simp [editAt_array_last, indexAt_of_index?_eq_none hindex, Except.map]
  | cons next rest => simp [editAt_array, indexAt_of_index?_eq_none hindex]

/-- An edit whose step is read as it should be succeeds if it ends there. -/
theorem exists_editAt_eq_ok (last : LastStep)
    (hread : ∀ items, document = .array items → index? step ≠ none)
    (hend : rest = [] ∨ document.child? step = none) (position : Nat) :
    ∃ edited, editAt last position (step :: rest) document = .ok edited := by
  cases document with
  | object fields =>
      cases rest with
      | nil => exact ⟨_, rfl⟩
      | cons next rest =>
          have hfind : Keyed.find? fields step = none := hend.resolve_left (by simp)
          simp [editAt_object, hfind]
  | array items =>
      obtain ⟨index, hindex⟩ := Option.ne_none_iff_exists'.1 (hread items rfl)
      cases rest with
      | nil => simp [editAt_array_last, indexAt_of_index? hindex, Except.map]
      | cons next rest =>
          have hitem : item? items index = none := by
            simpa [child?, hindex] using hend
          cases hplace : position? items.length index with
          | none => simp [editAt_array, indexAt_of_index? hindex, hplace]
          | some place =>
              have hnone : items[place]? = none := by
                simpa [item?, hplace] using hitem
              simp [editAt_array, indexAt_of_index? hindex, hplace, hnone]
  | _ => cases rest <;> exact ⟨_, rfl⟩

theorem exists_editAt_eq_error_iff {path : List String} (position : Nat) :
    (∃ fault, editAt last position path document = .error fault) ↔ document.Misread path := by
  induction path generalizing document position with
  | nil => simp [editAt_nil, not_misread_nil]
  | cons step rest ih =>
      rw [misread_cons]
      by_cases hstep : (∃ items, document = .array items) ∧ index? step = none
      · obtain ⟨⟨items, rfl⟩, hindex⟩ := hstep
        simp [editAt_array_of_index?_eq_none hindex, hindex]
      · have hread : ∀ items, document = .array items → index? step ≠ none :=
          fun items hitems hindex => hstep ⟨⟨items, hitems⟩, hindex⟩
        by_cases hend : rest = [] ∨ document.child? step = none
        · obtain ⟨edited, hedited⟩ := exists_editAt_eq_ok last hread hend position
          rcases hend with rfl | hchild
          · simp [hedited, hstep, not_misread_nil]
          · simp [hedited, hstep, hchild]
        · obtain ⟨hrest, hchild⟩ := not_or.1 hend
          obtain ⟨child, hchild⟩ := Option.ne_none_iff_exists'.1 hchild
          have hbelow : (∃ fault, editAt last (position + 1) rest child = .error fault) ↔
              child.Misread rest := ih (position + 1)
          rw [editAt_cons hchild hrest]
          cases hedit : editAt last (position + 1) rest child with
          | error fault => simp_all [Except.map]
          | ok edited => simp_all [Except.map]

end Edits

/-! ## Deleting what is missing -/

theorem eq_of_editAt_deleteLast {document edited : Document} {step : String}
    (hchild : document.child? step = none) {position : Nat}
    (h : editAt deleteLast position [step] document = .ok edited) : edited = document := by
  cases document with
  | object fields =>
      have hkept : Keyed.erase fields step = fields := Keyed.erase_of_find?_eq_none hchild
      have hedited : edited = .object (Keyed.erase fields step) := (Except.ok.inj h).symm
      rw [hedited, hkept]
  | array items =>
      cases hindex : index? step with
      | none => simp [editAt_array_of_index?_eq_none hindex] at h
      | some index =>
          have hplace : position? items.length index = none := by
            cases hplace : position? items.length index with
            | none => rfl
            | some place =>
                have hlt := position?_lt hplace
                simp [child?, hindex, item?, hplace] at hchild
                omega
          simpa [editAt_array_last, indexAt_of_index? hindex, Except.map, deleteLast, hplace]
            using h.symm
  | _ => exact (Except.ok.inj h).symm

theorem eq_of_editAt_deleteLast_of_at? {document edited : Document} (hordered : document.Ordered)
    {path : List String} (hmissing : document.at? path = none) {position : Nat}
    (h : editAt deleteLast position path document = .ok edited) : edited = document := by
  induction path generalizing document position edited with
  | nil => cases hmissing
  | cons step rest ih =>
      cases hchild : document.child? step with
      | none =>
          by_cases hrest : rest = []
          · subst hrest
            exact eq_of_editAt_deleteLast hchild h
          · exact eq_of_editAt_of_child?_eq_none hchild hrest h
      | some child =>
          have hbelow : child.at? rest = none := by
            simpa [hchild] using hmissing
          have hrest : rest ≠ [] := by
            rintro rfl
            cases hbelow
          rw [editAt_cons hchild hrest] at h
          obtain ⟨inner, hinner, rfl⟩ := map_eq_ok.1 h
          rw [ih (hordered.child? hchild) hbelow hinner, withChild_self hchild hordered]

/-! ## Setting and deleting -/

/-- Setting and deleting fail on the same documents and paths: on a document that
has no children, and where the path comes to an array with a step that is no
index.  Deleting what is not there changes nothing, and neither edit does anything
along the empty path. -/
theorem edits_fail_alike {document : Document} (hordered : document.Ordered)
    (path : List String) (value : Document) :
    ((∃ fault, document.setPath path value = .error fault) ↔
        document.isContainer = false ∨ document.Misread path) ∧
      ((∃ fault, document.deletePath path = .error fault) ↔
        document.isContainer = false ∨ document.Misread path) ∧
      ∀ edited deleted, document.setPath path value = .ok edited →
        document.deletePath path = .ok deleted →
        (path ≠ [] → document.at? path = none → deleted = document) ∧
          (path = [] → edited = document ∧ deleted = document) := by
  by_cases hcontainer : document.isContainer = true
  · have hset : document.setPath path value = editAt (setLast value) 0 path document :=
      if_pos hcontainer
    have hdelete : document.deletePath path = editAt deleteLast 0 path document :=
      if_pos hcontainer
    rw [hset, hdelete, exists_editAt_eq_error_iff, exists_editAt_eq_error_iff, hcontainer]
    refine ⟨by simp, by simp, ?_⟩
    intro edited deleted hedited hdeleted
    refine ⟨fun _ hmissing => eq_of_editAt_deleteLast_of_at? hordered hmissing hdeleted, ?_⟩
    rintro rfl
    rw [editAt_nil] at hedited hdeleted
    exact ⟨(Except.ok.inj hedited).symm, (Except.ok.inj hdeleted).symm⟩
  · have hset : document.setPath path value = .error .setInScalar := if_neg hcontainer
    have hdelete : document.deletePath path = .error .deletePathInScalar := if_neg hcontainer
    simp [hset, hdelete, hcontainer]

/-- A step that is no index in the last item of an array, and an item that is not
there. -/
theorem edits_fail_alike_in_array :
    let document : Document := object [("a", array [array [.null]])]
    (∃ fault, document.setPath ["a", "-1", "x", "y"] .null = .error fault) ∧
      (∃ fault, document.deletePath ["a", "-1", "x", "y"] = .error fault) ∧
      document.deletePath ["a", "1", "x", "y"] = .ok document := by
  intro document
  have hordered : document.Ordered := by
    simp [document, Document.Ordered, OrderedFields, OrderedItems, Keyed.Ordered]
  have hmisread : document.Misread ["a", "-1", "x", "y"] :=
    ⟨["a", "-1"], "x", ["y"], [.null], rfl, rfl, rfl⟩
  obtain ⟨hset, hdelete, -⟩ := edits_fail_alike hordered ["a", "-1", "x", "y"] .null
  obtain ⟨-, -, hmissing⟩ := edits_fail_alike hordered ["a", "1", "x", "y"] .null
  obtain ⟨edited, hedited⟩ : ∃ edited, document.setPath ["a", "1", "x", "y"] .null = .ok edited :=
    ⟨_, rfl⟩
  obtain ⟨deleted, hdeleted⟩ : ∃ deleted, document.deletePath ["a", "1", "x", "y"] = .ok deleted :=
    ⟨_, rfl⟩
  obtain rfl := (hmissing edited deleted hedited hdeleted).1 (by simp) rfl
  exact ⟨hset.2 (.inr hmisread), hdelete.2 (.inr hmisread), hdeleted⟩

end JsonbAlgebra.Document
