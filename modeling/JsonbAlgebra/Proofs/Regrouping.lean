import JsonbAlgebra.Document.Edit
import JsonbAlgebra.Proofs.KeyedLookups

/-!
# Regrouping concatenations

Concatenation merges two objects and lines up the elements of any other two documents.
Lining up is associative and so is merging, but an object among the elements of an
array is not merged any more.  So a chain of two concatenations may be regrouped just if
all three documents are objects, or if neither the first two are nor the last two.
Otherwise one grouping gives an array with one element less than the other.
-/

namespace JsonbAlgebra.Document

/-- The elements a document brings to an array: the items of an array, and any other
document as one. -/
def elements : Document → List Document
  | .array items => items
  | document => [document]

/-- Two documents that concatenation merges. -/
def Mergeable (first second : Document) : Prop :=
  first.kind = .object ∧ second.kind = .object

theorem exists_fields {document : Document} (h : document.kind = .object) :
    ∃ fields, document = .object fields := by
  cases document with
  | object fields => exact ⟨fields, rfl⟩
  | _ => cases h

theorem elements_of_object {document : Document} (h : document.kind = .object) :
    document.elements = [document] := by
  obtain ⟨fields, rfl⟩ := exists_fields h
  rfl

/-- Two documents that are not both objects are lined up. -/
theorem concat_of_not_mergeable {first second : Document} (h : ¬ Mergeable first second) :
    first.concat second = .array (first.elements ++ second.elements) := by
  cases first with
  | object fields =>
      cases second with
      | object extra => exact absurd ⟨rfl, rfl⟩ h
      | _ => rfl
  | _ => cases second <;> rfl

theorem kind_concat_of_mergeable {first second : Document} (h : Mergeable first second) :
    (first.concat second).kind = .object := by
  obtain ⟨⟨fields, rfl⟩, extra, rfl⟩ := And.intro (exists_fields h.1) (exists_fields h.2)
  rfl

section Chain

variable {first second third : Document}

/-- A document behind two others is lined up if those are no objects or it is none. -/
theorem concat_concat (h : Mergeable first second → third.kind ≠ .object) :
    (first.concat second).concat third =
      .array ((first.concat second).elements ++ third.elements) := by
  refine concat_of_not_mergeable fun hmerge => ?_
  by_cases hfirst : Mergeable first second
  · exact h hfirst hmerge.2
  · rw [concat_of_not_mergeable hfirst] at hmerge
    cases hmerge.1

theorem concat_concat_right (h : Mergeable second third → first.kind ≠ .object) :
    first.concat (second.concat third) =
      .array (first.elements ++ (second.concat third).elements) := by
  refine concat_of_not_mergeable fun hmerge => ?_
  by_cases hlast : Mergeable second third
  · exact h hlast hmerge.1
  · rw [concat_of_not_mergeable hlast] at hmerge
    cases hmerge.2

theorem elements_concat_of_not_mergeable (h : ¬ Mergeable first second) :
    (first.concat second).elements = first.elements ++ second.elements := by
  rw [concat_of_not_mergeable h]
  rfl

theorem elements_concat_of_mergeable (h : Mergeable first second) :
    (first.concat second).elements = [first.concat second] :=
  elements_of_object (kind_concat_of_mergeable h)

theorem concat_concat_of_not_mergeable (hfirst : ¬ Mergeable first second)
    (hlast : ¬ Mergeable second third) :
    (first.concat second).concat third =
        .array (first.elements ++ second.elements ++ third.elements) ∧
      first.concat (second.concat third) =
        .array (first.elements ++ second.elements ++ third.elements) := by
  rw [concat_concat fun h => absurd h hfirst, concat_concat_right fun h => absurd h hlast,
    elements_concat_of_not_mergeable hfirst, elements_concat_of_not_mergeable hlast,
    List.append_assoc]
  exact ⟨rfl, rfl⟩

/-- An object that is merged on one side only is missing from the elements there. -/
theorem exists_of_one_mergeable (h : ¬ (Mergeable first second ↔ Mergeable second third)) :
    ∃ items others, (first.concat second).concat third = .array items ∧
      first.concat (second.concat third) = .array others ∧ items.length ≠ others.length := by
  by_cases hfirst : Mergeable first second
  · have hlast : ¬ Mergeable second third := fun hlast => h (iff_of_true hfirst hlast)
    have hthird : third.kind ≠ .object := fun hthird => hlast ⟨hfirst.2, hthird⟩
    refine ⟨_, _, concat_concat fun _ => hthird, concat_concat_right fun h => absurd h hlast, ?_⟩
    rw [elements_concat_of_mergeable hfirst, elements_concat_of_not_mergeable hlast,
      elements_of_object hfirst.1, elements_of_object hfirst.2]
    simp
  · have hlast : Mergeable second third := by_contra fun hlast => h (iff_of_false hfirst hlast)
    have hnot : first.kind ≠ .object := fun hkind => hfirst ⟨hkind, hlast.1⟩
    refine ⟨_, _, concat_concat fun h => absurd h hfirst, concat_concat_right fun _ => hnot, ?_⟩
    rw [elements_concat_of_not_mergeable hfirst, elements_concat_of_mergeable hlast,
      elements_of_object hlast.1, elements_of_object hlast.2]
    simp

end Chain

/-- Three objects are merged into one, whichever two are merged first. -/
theorem concat_objects {a b c : List (String × Document)} (ha : Keyed.Ordered a)
    (hb : Keyed.Ordered b) (hc : Keyed.Ordered c) :
    ∃ merged, ((object a).concat (.object b)).concat (.object c) = .object merged ∧
      (object a).concat ((object b).concat (.object c)) = .object merged ∧
      Keyed.Ordered merged ∧
      (∀ key, key ∈ Keyed.keys merged ↔
        key ∈ Keyed.keys a ∨ key ∈ Keyed.keys b ∨ key ∈ Keyed.keys c) ∧
      ∀ key, Keyed.find? merged key =
        ((Keyed.find? c key).or (Keyed.find? b key)).or (Keyed.find? a key) := by
  have hfind : ∀ key, Keyed.find? ((Keyed.merge a b).merge c) key =
      ((Keyed.find? c key).or (Keyed.find? b key)).or (Keyed.find? a key) := fun key => by
    rw [Keyed.find?_merge hc, Keyed.find?_merge hb, Option.or_assoc]
  refine ⟨(Keyed.merge a b).merge c, rfl, ?_, (ha.merge b).merge c, fun key => ?_, hfind⟩
  · exact congrArg object (Keyed.merge_assoc ha hb hc).symm
  · simp only [Keyed.mem_keys_iff, ← Option.isSome_iff_exists, hfind, Option.isSome_or,
      Bool.or_eq_true]
    tauto

/-- A chain of two concatenations may be regrouped just if all three documents are
objects, which are merged with the rightmost value under every key, or if neither the
first two documents are objects nor the last two, and then their elements are lined up.
Otherwise the two groupings are arrays of different lengths. -/
theorem regroup_iff {first second third : Document} (hfirst : first.Ordered)
    (hsecond : second.Ordered) (hthird : third.Ordered) :
    ((first.concat second).concat third = first.concat (second.concat third) ↔
        (first.kind = .object ∧ second.kind = .object ∧ third.kind = .object) ∨
          (¬ Mergeable first second ∧ ¬ Mergeable second third)) ∧
      (¬ Mergeable first second → ¬ Mergeable second third →
        (first.concat second).concat third =
            .array (first.elements ++ second.elements ++ third.elements) ∧
          first.concat (second.concat third) =
            .array (first.elements ++ second.elements ++ third.elements)) ∧
      (∀ a b c, first = .object a → second = .object b → third = .object c →
        ∃ merged, (first.concat second).concat third = .object merged ∧
          first.concat (second.concat third) = .object merged ∧ Keyed.Ordered merged ∧
          (∀ key, key ∈ Keyed.keys merged ↔
            key ∈ Keyed.keys a ∨ key ∈ Keyed.keys b ∨ key ∈ Keyed.keys c) ∧
          ∀ key, Keyed.find? merged key =
            ((Keyed.find? c key).or (Keyed.find? b key)).or (Keyed.find? a key)) ∧
      (¬ (Mergeable first second ↔ Mergeable second third) →
        ∃ items others, (first.concat second).concat third = .array items ∧
          first.concat (second.concat third) = .array others ∧
          items.length ≠ others.length) := by
  refine ⟨⟨fun heq => ?_, ?_⟩, concat_concat_of_not_mergeable, ?_, exists_of_one_mergeable⟩
  · by_cases hmerge : Mergeable first second ↔ Mergeable second third
    · by_cases h : Mergeable first second
      · exact .inl ⟨h.1, h.2, (hmerge.1 h).2⟩
      · exact .inr ⟨h, fun hlast => h (hmerge.2 hlast)⟩
    · obtain ⟨items, others, hitems, hothers, hlength⟩ := exists_of_one_mergeable hmerge
      have harrays : Document.array items = .array others := by rw [← hitems, heq, hothers]
      exact absurd (congrArg List.length (array.inj harrays)) hlength
  · rintro (⟨ha, hb, hc⟩ | ⟨hfirst, hlast⟩)
    · obtain ⟨a, rfl⟩ := exists_fields ha
      obtain ⟨b, rfl⟩ := exists_fields hb
      obtain ⟨c, rfl⟩ := exists_fields hc
      obtain ⟨merged, hleft, hright, -⟩ := concat_objects hfirst.1 hsecond.1 hthird.1
      rw [hleft, hright]
    · obtain ⟨hleft, hright⟩ := concat_concat_of_not_mergeable hfirst hlast
      rw [hleft, hright]
  · rintro a b c rfl rfl rfl
    exact concat_objects hfirst.1 hsecond.1 hthird.1

/-- Two objects with an array between them may be regrouped, and two objects in front of
one may not. -/
theorem regroup_iff_objects :
    let empty : Document := .object []
    let single : Document := .object [("a", .null)]
    empty.Ordered ∧ single.Ordered ∧ (array [.null]).Ordered ∧
      (empty.concat (.array [.null])).concat single =
        empty.concat ((array [.null]).concat single) ∧
      (empty.concat single).concat (.array [.null]) ≠
        empty.concat (single.concat (.array [.null])) := by
  intro empty single
  have hempty : empty.Ordered := by simp [empty, Document.Ordered, OrderedFields, Keyed.Ordered]
  have hsingle : single.Ordered := by simp [single, Document.Ordered, OrderedFields, Keyed.Ordered]
  have harray : (array [.null]).Ordered := by simp [Document.Ordered, OrderedItems]
  have hbetween := (regroup_iff hempty harray hsingle).1
  have hbehind := (regroup_iff hempty hsingle harray).1
  refine ⟨hempty, hsingle, harray, hbetween.2 (.inr ⟨?_, ?_⟩), fun heq => ?_⟩
  · exact fun h => nomatch h.2
  · exact fun h => nomatch h.1
  · rcases hbehind.1 heq with ⟨-, -, hthird⟩ | ⟨hnot, -⟩
    · cases hthird
    · exact hnot ⟨rfl, rfl⟩

end JsonbAlgebra.Document
