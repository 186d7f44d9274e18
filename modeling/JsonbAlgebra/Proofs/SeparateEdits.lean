import JsonbAlgebra.Proofs.PathLaws

/-!
# Edits at separate places

Different paths can lead to one place, since an index may count from either end.
What an edit touches is told by the places that its path steps through, with
positions counted from the front.  If the places of two paths part at some step,
an edit along one path leaves alone what the other leads to, and setting along
both gives the same document in either order.

Setting at a place that is there keeps the length of every array and the keys of
every object, so that the steps of the other path lead where they led before.
Deleting does so only under a key, because the items behind a deleted item move.
-/

namespace JsonbAlgebra.Document

/-! ## Places -/

/-- Where a document holds another one: under a key, or at a position. -/
inductive Place where
  | field (key : String)
  | item (position : Nat)
  deriving DecidableEq, Repr

def held? : Document → Place → Option Document
  | .object fields, .field key => Keyed.find? fields key
  | .array items, .item position => items[position]?
  | _, _ => none

def put : Document → Place → Document → Document
  | .object fields, .field key, child => .object (Keyed.insert fields key child)
  | .array items, .item position, child => .array (items.set position child)
  | document, _, _ => document

theorem held?_put_ne (document : Document) {place other : Place} (h : place ≠ other)
    (child : Document) : (document.put place child).held? other = document.held? other := by
  cases document with
  | object fields =>
      cases place with
      | field key =>
          cases other with
          | field name =>
              have hname : name ≠ key := fun heq => h (congrArg Place.field heq.symm)
              simp [put, held?, Keyed.find?_insert_ne fields child hname]
          | item position => rfl
      | item position => rfl
  | array items =>
      cases place with
      | field key => rfl
      | item position =>
          cases other with
          | field name => rfl
          | item index =>
              have hindex : position ≠ index := fun heq => h (congrArg Place.item heq)
              simp [put, held?, List.getElem?_set_ne hindex]
  | _ => rfl

theorem put_comm (document : Document) {place other : Place} (h : place ≠ other)
    (first second : Document) :
    (document.put place first).put other second =
      (document.put other second).put place first := by
  cases document with
  | object fields =>
      cases place with
      | field key =>
          cases other with
          | field name =>
              have hname : key ≠ name := fun heq => h (congrArg Place.field heq)
              simp [put, Keyed.insert_comm fields first second hname]
          | item position => rfl
      | item position => cases other <;> rfl
  | array items =>
      cases place with
      | field key => cases other <;> rfl
      | item position =>
          cases other with
          | field name => rfl
          | item index =>
              have hindex : position ≠ index := fun heq => h (congrArg Place.item heq)
              simp [put, List.set_comm first second hindex]
  | _ => rfl

/-! ## Steps as places -/

/-- The place that a step leads to, if it leads anywhere. -/
def place? (document : Document) (step : String) : Option Place :=
  match document with
  | .object fields => (Keyed.find? fields step).map fun _ => .field step
  | .array items => ((index? step).bind (position? items.length)).map .item
  | _ => none

theorem place?_object_eq_some {fields : List (String × Document)} {step : String}
    {place : Place} (h : (object fields).place? step = some place) : place = .field step := by
  obtain ⟨child, -, hplace⟩ := Option.map_eq_some_iff.1 h
  exact hplace.symm

theorem child?_of_place? {document : Document} {step : String} {place : Place}
    (h : document.place? step = some place) : document.child? step = document.held? place := by
  cases document with
  | object fields =>
      rw [place?_object_eq_some h]
      rfl
  | array items =>
      obtain ⟨position, hposition, rfl⟩ := Option.map_eq_some_iff.1 h
      obtain ⟨index, hindex, hindexed⟩ := Option.bind_eq_some_iff.1 hposition
      simp [child?, held?, item?, hindex, hindexed]
  | _ => cases h

theorem withChild_of_place? {document : Document} {step : String} {place : Place}
    (h : document.place? step = some place) (child : Document) :
    document.withChild step child = document.put place child := by
  cases document with
  | object fields =>
      rw [place?_object_eq_some h]
      rfl
  | array items =>
      obtain ⟨position, hposition, rfl⟩ := Option.map_eq_some_iff.1 h
      rw [withChild_array hposition]
      rfl
  | _ => cases h

section Step

variable {document old : Document} {step : String} (hold : document.child? step = some old)
include hold

theorem exists_place? : ∃ place, document.place? step = some place := by
  cases document with
  | object fields =>
      have hfind : Keyed.find? fields step = some old := hold
      exact ⟨.field step, by simp [place?, hfind]⟩
  | array items =>
      obtain ⟨position, hposition, -⟩ := child?_array_eq_some.1 hold
      exact ⟨.item position, by simp [place?, hposition]⟩
  | _ => cases hold

/-- Putting another child in the place of one moves none of the others. -/
theorem place?_withChild (child : Document) (other : String) :
    (document.withChild step child).place? other = document.place? other := by
  cases document with
  | object fields =>
      have hfind : Keyed.find? fields step = some old := hold
      by_cases hother : other = step
      · simp [withChild, place?, hother, hfind]
      · simp [withChild, place?, Keyed.find?_insert_ne fields child hother]
  | array items =>
      obtain ⟨position, hposition, -⟩ := child?_array_eq_some.1 hold
      simp [withChild_array hposition, place?]
  | _ => cases hold

variable {other : String} {place otherPlace : Place} (hplace : document.place? step = some place)
  (hother : document.place? other = some otherPlace) (hne : place ≠ otherPlace)
include hplace hother hne

theorem child?_withChild_ne (child : Document) :
    (document.withChild step child).child? other = document.child? other := by
  have hkept := place?_withChild hold child other
  rw [hother] at hkept
  rw [child?_of_place? hkept, withChild_of_place? hplace, held?_put_ne document hne,
    child?_of_place? hother]

theorem withChild_comm {otherOld : Document} (hotherOld : document.child? other = some otherOld)
    (first second : Document) :
    (document.withChild step first).withChild other second =
      (document.withChild other second).withChild step first := by
  have hfirst := place?_withChild hold first other
  have hsecond := place?_withChild hotherOld second step
  rw [hother] at hfirst
  rw [hplace] at hsecond
  rw [withChild_of_place? hfirst, withChild_of_place? hplace, withChild_of_place? hsecond,
    withChild_of_place? hother, put_comm document hne]

end Step

/-! ## Paths as places -/

/-- The places that a path steps through, as far as it leads anywhere. -/
def location (document : Document) : List String → List Place
  | [] => []
  | step :: rest =>
    match document.place? step, document.child? step with
    | some place, some child => place :: child.location rest
    | _, _ => []

theorem location_cons {document child : Document} {step : String} {place : Place}
    (hplace : document.place? step = some place) (hchild : document.child? step = some child)
    (rest : List String) : document.location (step :: rest) = place :: child.location rest := by
  rw [location, hplace, hchild]

/-- Neither of two locations lies within the other. -/
def Apart (location other : List Place) : Prop :=
  ¬ location <+: other ∧ ¬ other <+: location

theorem Apart.of_cons {place : Place} {location other : List Place}
    (h : Apart (place :: location) (place :: other)) : Apart location other := by
  simpa [Apart, List.cons_prefix_cons] using h

/-- Two paths that step through the same places for a while and then part. -/
inductive Parted : Document → List String → List String → Prop
  | here {document child otherChild : Document} {step other : String} {place otherPlace : Place}
      (hplace : document.place? step = some place)
      (hchild : document.child? step = some child)
      (hother : document.place? other = some otherPlace)
      (hotherChild : document.child? other = some otherChild)
      (hne : place ≠ otherPlace) (rest others : List String) :
      Parted document (step :: rest) (other :: others)
  | deeper {document child : Document} {step other : String} {place : Place}
      {rest others : List String} (hplace : document.place? step = some place)
      (hother : document.place? other = some place)
      (hchild : document.child? step = some child) (hdeeper : Parted child rest others) :
      Parted document (step :: rest) (other :: others)

theorem Parted.of_apart {document target otherTarget : Document} {path other : List String}
    (htarget : document.at? path = some target) (hother : document.at? other = some otherTarget)
    (hapart : Apart (document.location path) (document.location other)) :
    Parted document path other := by
  induction path generalizing document other with
  | nil => exact absurd List.nil_prefix hapart.1
  | cons step rest ih =>
      cases other with
      | nil => exact absurd List.nil_prefix hapart.2
      | cons next others =>
          obtain ⟨child, hchild, hrest⟩ := Option.bind_eq_some_iff.1 htarget
          obtain ⟨otherChild, hotherChild, hothers⟩ := Option.bind_eq_some_iff.1 hother
          obtain ⟨place, hplace⟩ := exists_place? hchild
          obtain ⟨otherPlace, hotherPlace⟩ := exists_place? hotherChild
          by_cases hne : place = otherPlace
          · subst hne
            have hsame : child = otherChild := by
              rw [child?_of_place? hplace] at hchild
              rw [child?_of_place? hotherPlace, hchild] at hotherChild
              exact Option.some.inj hotherChild
            subst hsame
            rw [location_cons hplace hchild, location_cons hotherPlace hotherChild] at hapart
            exact .deeper hplace hotherPlace hchild (ih hrest hothers hapart.of_cons)
          · exact .here hplace hchild hotherPlace hotherChild hne rest others

theorem Parted.isContainer {document : Document} {path other : List String}
    (h : Parted document path other) : document.isContainer = true := by
  cases h with
  | here _ hchild _ _ _ _ _ => exact isContainer_of_child? hchild
  | deeper _ _ hchild _ => exact isContainer_of_child? hchild

theorem child?_eq_of_place?_eq {document : Document} {step other : String} {place : Place}
    (hplace : document.place? step = some place) (hother : document.place? other = some place) :
    document.child? other = document.child? step := by
  rw [child?_of_place? hplace, child?_of_place? hother]

theorem withChild_eq_of_place?_eq {document : Document} {step other : String} {place : Place}
    (hplace : document.place? step = some place) (hother : document.place? other = some place)
    (child : Document) : document.withChild other child = document.withChild step child := by
  rw [withChild_of_place? hplace, withChild_of_place? hother]

/-- What happens to a document at the end of a path cannot be seen along a path
that has parted from it, as long as the document keeps its other children. -/
theorem at?_replaceAt_of_parted {document parent replacement : Document} {path : List String}
    {step : String} {other : List String} (hparted : Parted document (path ++ [step]) other)
    (hparent : document.at? path = some parent)
    (hkept : ∀ next place, parent.place? next = some place → parent.place? step ≠ some place →
      replacement.child? next = parent.child? next) :
    (document.replaceAt path replacement).at? other = document.at? other := by
  induction path generalizing document other with
  | nil =>
      obtain rfl := Option.some.inj hparent
      cases hparted with
      | @here _ _ _ _ next place otherPlace hplace _ hother _ hne _ others =>
          have hstep : document.place? step ≠ some otherPlace := by
            simpa [hplace] using hne
          simp [replaceAt, hkept next otherPlace hother hstep]
      | deeper _ _ _ hdeeper => cases hdeeper
  | cons first rest ih =>
      obtain ⟨child, hchild, hrest⟩ := Option.bind_eq_some_iff.1 hparent
      rw [replaceAt_cons hchild]
      cases hparted with
      | here hplace _ hother _ hne _ others =>
          rw [at?_cons, at?_cons, child?_withChild_ne hchild hplace hother hne]
      | @deeper _ below _ next _ _ others hplace hother hbelow hparted =>
          have hsame : below = child := Option.some.inj (hbelow.symm.trans hchild)
          subst hsame
          have hnext : document.child? next = some below :=
            (child?_eq_of_place?_eq hplace hother).trans hchild
          rw [← withChild_eq_of_place?_eq hplace hother, at?_cons, child?_withChild hnext,
            at?_cons, hnext, Option.bind_some, Option.bind_some, ih hparted hrest]

theorem replaceAt_comm {document : Document} {path other : List String}
    (hparted : Parted document path other) (first second : Document) :
    (document.replaceAt path first).replaceAt other second =
      (document.replaceAt other second).replaceAt path first := by
  induction hparted with
  | @here document child otherChild step next place otherPlace hplace hchild hother
      hotherChild hne rest others =>
      have hkept := child?_withChild_ne hchild hplace hother hne (child.replaceAt rest first)
      have hotherKept := child?_withChild_ne hotherChild hother hplace hne.symm
        (otherChild.replaceAt others second)
      rw [replaceAt_cons hchild, replaceAt_cons hotherChild,
        replaceAt_cons (hkept.trans hotherChild), replaceAt_cons (hotherKept.trans hchild),
        withChild_comm hchild hplace hother hne hotherChild]
  | @deeper document child step next place rest others hplace hother hchild _ ih =>
      have hnext : document.child? next = some child :=
        (child?_eq_of_place?_eq hplace hother).trans hchild
      have hwith := withChild_eq_of_place?_eq hplace hother
      rw [replaceAt_cons hchild, replaceAt_cons hnext, ← hwith,
        replaceAt_cons (child?_withChild hnext _), withChild_withChild hnext, hwith, hwith,
        replaceAt_cons (child?_withChild hchild _), withChild_withChild hchild, ih]

theorem getLast?_location {document parent old : Document} {path : List String} {step : String}
    (hparent : document.at? path = some parent) (hold : parent.child? step = some old) :
    (document.location (path ++ [step])).getLast? = parent.place? step := by
  obtain ⟨last, hlast⟩ := exists_place? hold
  induction path generalizing document with
  | nil =>
      obtain rfl := Option.some.inj hparent
      simp [location_cons hlast hold, location, hlast]
  | cons first rest ih =>
      obtain ⟨child, hchild, hrest⟩ := Option.bind_eq_some_iff.1 hparent
      obtain ⟨place, hplace⟩ := exists_place? hchild
      simp [location_cons hplace hchild, List.getLast?_cons, ih hrest, hlast]

/-! ## Edits -/

section Edits

variable {document : Document} (hcontainer : document.isContainer = true) {path : List String}
  {step : String} {other : List String}
include hcontainer

theorem exists_setPath_of_parted {old target : Document}
    (hold : document.at? (path ++ [step]) = some old) (htarget : document.at? other = some target)
    (hparted : Parted document (path ++ [step]) other) (value : Document) :
    document.setPath (path ++ [step]) value = .ok (document.replaceAt (path ++ [step]) value) ∧
      (document.replaceAt (path ++ [step]) value).at? other = some target := by
  obtain ⟨parent, hparent, hchild⟩ := exists_parent hold
  refine ⟨setPath_of_at? hcontainer hold value, ?_⟩
  rw [replaceAt_step hparent hchild, at?_replaceAt_of_parted hparted hparent, htarget]
  intro next place hnext hne
  obtain ⟨last, hlast⟩ := exists_place? hchild
  exact child?_withChild_ne hchild hlast hnext (fun heq => hne (heq ▸ hlast)) value

theorem exists_deletePath_of_parted {old target : Document}
    (hold : document.at? (path ++ [step]) = some old) (htarget : document.at? other = some target)
    (hparted : Parted document (path ++ [step]) other) {key : String}
    (hkey : (document.location (path ++ [step])).getLast? = some (.field key)) :
    ∃ deleted, document.deletePath (path ++ [step]) = .ok deleted ∧
      deleted.at? other = some target := by
  obtain ⟨parent, hparent, hchild⟩ := exists_parent hold
  rw [getLast?_location hparent hchild] at hkey
  cases parent with
  | object fields =>
      refine ⟨_, deletePath_of_object hcontainer hparent, ?_⟩
      rw [at?_replaceAt_of_parted hparted hparent, htarget]
      intro next place hnext hne
      have hstep : next ≠ step := by
        rintro rfl
        exact hne hnext
      exact Keyed.find?_erase_ne fields hstep
  | array items =>
      obtain ⟨position, -, hposition⟩ := Option.map_eq_some_iff.1 hkey
      cases hposition
  | _ => cases hkey

end Edits

/-- Two paths to places of which neither lies within the other.  Setting along one
of them keeps what the other leads to, both can be set in either order, and
deleting a key along one keeps what the other leads to. -/
theorem edits_of_apart {document old otherOld : Document} {path other : List String}
    (hpath : document.at? path = some old) (hother : document.at? other = some otherOld)
    (hapart : Apart (document.location path) (document.location other))
    (value otherValue : Document) :
    ∃ first second both, document.setPath path value = .ok first ∧
      first.at? other = document.at? other ∧
      document.setPath other otherValue = .ok second ∧
      first.setPath other otherValue = .ok both ∧ second.setPath path value = .ok both ∧
      ∀ key, (document.location path).getLast? = some (.field key) →
        ∃ deleted, document.deletePath path = .ok deleted ∧
          deleted.at? other = document.at? other := by
  have hparted := Parted.of_apart hpath hother hapart
  have hreversed := Parted.of_apart hother hpath hapart.symm
  obtain rfl | ⟨parents, step, rfl⟩ := List.eq_nil_or_concat' path
  · cases hparted
  obtain rfl | ⟨otherParents, last, rfl⟩ := List.eq_nil_or_concat' other
  · cases hreversed
  have hcontainer := hparted.isContainer
  obtain ⟨hfirst, hotherKept⟩ := exists_setPath_of_parted hcontainer hpath hother hparted value
  obtain ⟨hsecond, hkept⟩ :=
    exists_setPath_of_parted hcontainer hother hpath hreversed otherValue
  have hfirstContainer := isContainer_replaceAt_step hcontainer hpath value
  have hsecondContainer := isContainer_replaceAt_step hcontainer hother otherValue
  refine ⟨_, _, _, hfirst, hotherKept.trans hother.symm, hsecond,
    setPath_of_at? hfirstContainer hotherKept otherValue, ?_, ?_⟩
  · rw [setPath_of_at? hsecondContainer hkept value, replaceAt_comm hparted]
  · intro key hkey
    rw [hother]
    exact exists_deletePath_of_parted hcontainer hpath hother hparted hkey

/-- The first item of an array, by a key in it, and the last one, by an index
from the end. -/
theorem edits_of_apart_both_ends :
    let document : Document :=
      object [("a", array [object [("x", .null), ("y", .boolean true)], .string "z"])]
    let edited : Document :=
      object [("a", array [object [("x", .string "s"), ("y", .boolean true)], .string "z"])]
    let both : Document :=
      object [("a", array [object [("x", .string "s"), ("y", .boolean true)], .string "t"])]
    document.setPath ["a", "0", "x"] (.string "s") = .ok edited ∧
      edited.at? ["a", "-1"] = some (.string "z") ∧
      edited.setPath ["a", "-1"] (.string "t") = .ok both ∧
      ∃ deleted, document.deletePath ["a", "0", "x"] = .ok deleted ∧
        deleted.at? ["a", "-1"] = some (.string "z") := by
  intro document edited both
  have hpath : document.at? ["a", "0", "x"] = some .null := rfl
  have hother : document.at? ["a", "-1"] = some (.string "z") := rfl
  have hlocation : document.location ["a", "0", "x"] = [.field "a", .item 0, .field "x"] := rfl
  have hotherLocation : document.location ["a", "-1"] = [.field "a", .item 1] := rfl
  have hapart : Apart (document.location ["a", "0", "x"]) (document.location ["a", "-1"]) := by
    rw [hlocation, hotherLocation]
    simp [Apart]
  obtain ⟨first, second, last, hfirst, hkept, -, hlast, -, hdeleted⟩ :=
    edits_of_apart hpath hother hapart (.string "s") (.string "t")
  obtain rfl : edited = first := Except.ok.inj hfirst
  obtain rfl : both = last := Except.ok.inj hlast
  exact ⟨hfirst, hkept, hlast, hdeleted "x" rfl⟩

end JsonbAlgebra.Document
