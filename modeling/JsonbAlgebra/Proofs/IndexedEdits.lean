import JsonbAlgebra.Proofs.EditRefusals

/-!
# Documents by position

Whether an index designates an item is an option in the definition of lookups and
edits.  Here they are the way a machine performs them.  An index is a signed word,
a negative one is added to the length in words, and an item is read, replaced,
removed or put at a position that has to be there.  Such a run may stop.

None does, whatever the document, the index and the path.  A run also gives what the
definition says as long as the length of every array that it meets is a word, and no
longer array fits a memory.
-/

namespace JsonbAlgebra

/-- No array in a document is longer than a word can say. -/
def Document.Fits (document : Document) : Prop :=
  ∀ path items, document.at? path = some (.array items) → Text.FitsWord items.length

namespace Document.Fits

variable {document : Document}

theorem child {child : Document} (h : document.Fits) {step : String}
    (hchild : document.child? step = some child) : child.Fits := by
  intro path items hpath
  refine h (step :: path) items ?_
  rw [at?_cons, hchild, Option.bind_some, hpath]

theorem length {items : List Document} (h : (Document.array items).Fits) :
    Text.FitsWord items.length :=
  h [] items rfl

theorem of_child (hchild : ∀ step child, document.child? step = some child → child.Fits)
    (hlength : ∀ items, document = .array items → Text.FitsWord items.length) :
    document.Fits := by
  intro path items hpath
  cases path with
  | nil => exact hlength items (Option.some.inj hpath)
  | cons step path =>
      obtain ⟨child, hstep, hrest⟩ := Option.bind_eq_some_iff.1 hpath
      exact hchild step child hstep path items hrest

theorem of_array {items : List Document} (hlength : Text.FitsWord items.length)
    (h : ∀ item ∈ items, item.Fits) : (Document.array items).Fits := by
  refine of_child ?_ (by rintro _ ⟨⟩; exact hlength)
  intro step child hchild
  obtain ⟨place, -, hitem⟩ := child?_array_eq_some.1 hchild
  exact h child (List.mem_of_getElem? hitem)

theorem of_object {fields : List (String × Document)} (h : ∀ field ∈ fields, field.2.Fits) :
    (Document.object fields).Fits := by
  refine of_child ?_ nofun
  intro step child hchild
  exact h _ (Keyed.mem_of_find? hchild)

theorem of_scalar (h : document.isContainer = false) : document.Fits := by
  refine of_child ?_ ?_
  · intro step child hchild
    cases (isContainer_of_child? hchild).symm.trans h
  · rintro items rfl
    cases h

end Document.Fits

/-- Why a run stops without a result. -/
inductive Stop where
  | outOfRange
  | overflow
  | unreachable
  deriving DecidableEq, Repr

namespace Indexed

/-- The run does not stop, and on a condition its result is the given one. -/
def Yields {α : Type} (fits : Prop) (run : Except Stop α) (result : α) : Prop :=
  ∃ found, run = .ok found ∧ (fits → found = result)

namespace Yields

variable {α β : Type} {fits : Prop} {run : Except Stop α} {result : α}

theorem ok (result : α) : Yields fits (.ok result) result :=
  ⟨result, rfl, fun _ => rfl⟩

theorem map (h : Yields fits run result) (f : α → β) :
    Yields fits (run.map f) (f result) := by
  obtain ⟨found, rfl, heq⟩ := h
  exact ⟨f found, rfl, fun hfits => congrArg f (heq hfits)⟩

theorem imp {other : Prop} (h : Yields fits run result) (himp : other → fits) :
    Yields other run result := by
  obtain ⟨found, hrun, heq⟩ := h
  exact ⟨found, hrun, fun hother => heq (himp hother)⟩

theorem eq_ok (h : Yields fits run result) (hfits : fits) : run = .ok result := by
  obtain ⟨found, rfl, heq⟩ := h
  rw [heq hfits]

end Yields

/-! ## Items -/

section Items

variable {α : Type}

def read (items : List α) (place : Nat) : Except Stop α :=
  match items[place]? with
  | some item => .ok item
  | none => .error .outOfRange

def write (items : List α) (place : Nat) (item : α) : Except Stop (List α) :=
  if place < items.length then .ok (items.set place item) else .error .outOfRange

def remove (items : List α) (place : Nat) : Except Stop (List α) :=
  if place < items.length then .ok (items.eraseIdx place) else .error .outOfRange

/-- The items with another one put before a place, or behind the last one. -/
def insert (items : List α) (place : Nat) (item : α) : Except Stop (List α) :=
  if place ≤ items.length then .ok (items.insertIdx place item) else .error .outOfRange

theorem read_of_lt {items : List α} {place : Nat} (h : place < items.length) :
    read items place = .ok items[place] := by
  rw [read, List.getElem?_eq_getElem h]

theorem write_of_lt {items : List α} {place : Nat} (h : place < items.length) (item : α) :
    write items place item = .ok (items.set place item) :=
  if_pos h

theorem remove_of_lt {items : List α} {place : Nat} (h : place < items.length) :
    remove items place = .ok (items.eraseIdx place) :=
  if_pos h

theorem insert_first (items : List α) (item : α) : insert items 0 item = .ok (item :: items) :=
  if_pos (Nat.zero_le _)

end Items

/-! ## Positions -/

def add (left right : Int64) : Except Stop Int64 :=
  match Text.word? (left.toInt + right.toInt) with
  | some sum => .ok sum
  | none => .error .overflow

/-- The position that a possibly negative index stands for.  A length that is no word
has none for a negative index. -/
def position (length : Nat) (index : Int64) : Except Stop (Option Nat) :=
  if 0 ≤ index.toInt then
    .ok (if index.toInt.toNat < length then some index.toInt.toNat else none)
  else
    match Text.word? length with
    | none => .ok none
    | some extent => do
      let back ← add extent index
      return if 0 ≤ back.toInt then some back.toInt.toNat else none

/-- A length and a negative index never leave the words together. -/
theorem add_of_neg {extent index : Int64} (hextent : 0 ≤ extent.toInt) (hindex : index.toInt < 0) :
    ∃ sum, add extent index = .ok sum ∧ sum.toInt = extent.toInt + index.toInt := by
  have hfits : Text.FitsWord (extent.toInt + index.toInt) := by
    have hupper := (Text.fitsWord_toInt extent).2
    have hlower := (Text.fitsWord_toInt index).1
    unfold Text.FitsWord
    omega
  have hword : Text.word? (extent.toInt + index.toInt) =
      some (Int64.ofInt (extent.toInt + index.toInt)) :=
    if_pos hfits
  refine ⟨_, ?_, Text.word?_eq_some_iff.1 hword⟩
  rw [add, hword]

theorem position_eq (length : Nat) (index : Int64) :
    position length index =
      .ok (if 0 ≤ index.toInt ∨ Text.FitsWord length then
        Document.position? length index.toInt else none) := by
  unfold position Document.position?
  by_cases hindex : 0 ≤ index.toInt
  · have hlt : index.toInt.toNat < length ↔ index.toInt < length := by omega
    have hresolved : 0 ≤ index.toInt ∨ Text.FitsWord length := .inl hindex
    simp only [if_pos hindex, if_pos hresolved, hlt]
  · rw [if_neg hindex, if_neg hindex]
    by_cases hlength : Text.FitsWord length
    · have hword : Text.word? length = some (Int64.ofInt length) := if_pos hlength
      have hextent := Text.word?_eq_some_iff.1 hword
      have hnonneg : 0 ≤ (Int64.ofInt length).toInt := by omega
      obtain ⟨sum, hadd, hsum⟩ := add_of_neg hnonneg (Int.not_le.1 hindex)
      rw [hextent] at hsum
      rw [hword, if_pos (.inr hlength)]
      dsimp only
      rw [hadd, ← hsum]
      rfl
    · have hword : Text.word? (length : Int) = none := if_neg hlength
      rw [hword, if_neg (by simp [hindex, hlength])]

/-- An index is resolved without a stop and to a position that is there. -/
theorem exists_position (length : Nat) (index : Int64) :
    ∃ place?, position length index = .ok place? ∧
      (∀ place, place? = some place → place < length) ∧
      (Text.FitsWord length → place? = Document.position? length index.toInt) := by
  refine ⟨_, position_eq length index, ?_, fun hlength => if_pos (.inr hlength)⟩
  intro place hplace
  split at hplace
  · exact Document.position?_lt hplace
  · cases hplace

/-! ## Lookups -/

def item? (items : List Document) (index : Int64) : Except Stop (Option Document) := do
  match ← position items.length index with
  | some place => return items[place]?
  | none => return none

def child? (document : Document) (step : String) : Except Stop (Option Document) :=
  match document with
  | .object fields => .ok (Keyed.find? fields step)
  | .array items =>
    match Text.readWord step.toList with
    | some index => item? items index
    | none => .ok none
  | _ => .ok none

def at? (document : Document) : List String → Except Stop (Option Document)
  | [] => .ok (some document)
  | step :: path => do
    match ← child? document step with
    | some child => at? child path
    | none => return none

theorem item?_yields (items : List Document) (index : Int64) :
    Yields (Text.FitsWord items.length) (item? items index)
      (Document.item? items index.toInt) := by
  obtain ⟨place?, hrun, -, heq⟩ := exists_position items.length index
  have hitem : item? items index = .ok (place?.bind fun place => items[place]?) := by
    rw [item?, hrun]
    cases place? <;> rfl
  refine ⟨_, hitem, fun hlength => ?_⟩
  rw [heq hlength, Document.item?]

theorem child?_yields (document : Document) (step : String) :
    Yields document.Fits (child? document step) (document.child? step) := by
  cases document with
  | array items =>
      rw [child?, Document.child?, Document.index?]
      cases Text.readWord step.toList with
      | none => exact .ok none
      | some index => exact (item?_yields items index).imp Document.Fits.length
  | _ => exact .ok _

theorem at?_yields (document : Document) (path : List String) :
    Yields document.Fits (at? document path) (document.at? path) := by
  induction path generalizing document with
  | nil => exact .ok _
  | cons step path ih =>
      obtain ⟨found, hrun, heq⟩ := child?_yields document step
      rw [at?, hrun, Document.at?_cons]
      cases found with
      | none => exact ⟨none, rfl, fun hfits => by rw [← heq hfits, Option.bind_none]⟩
      | some child =>
          obtain ⟨found, hrest, hsame⟩ := ih child
          refine ⟨found, hrest, fun hfits => ?_⟩
          have hchild := heq hfits
          rw [← hchild, Option.bind_some, hsame (hfits.child hchild.symm)]

/-! ## Edits -/

/-- What an edit does at the last step of a path.  In an array it is given the index
and the position it stands for. -/
structure LastStep where
  atKey : String → List (String × Document) → List (String × Document)
  atIndex : Int64 → Option Nat → List Document → Except Stop (List Document)

def editAt (last : LastStep) (depth : Nat) :
    List String → Document → Except Stop (Except Document.EditFault Document)
  | [], document => .ok (.ok document)
  | step :: rest, .object fields =>
    if rest.isEmpty then .ok (.ok (.object (last.atKey step fields)))
    else
      match Keyed.find? fields step with
      | some child => do
        let result ← editAt last (depth + 1) rest child
        return result.map fun edited => .object (Keyed.insert fields step edited)
      | none => .ok (.ok (.object fields))
  | step :: rest, .array items =>
    match Text.readWord step.toList with
    | none => .ok (.error (.notInteger depth step))
    | some index => do
      let place? ← position items.length index
      if rest.isEmpty then
        let edited ← last.atIndex index place? items
        return .ok (.array edited)
      else
        match place? with
        | none => return .ok (.array items)
        | some place =>
          let child ← read items place
          match ← editAt last (depth + 1) rest child with
          | .error fault => return .error fault
          | .ok edited =>
            let items ← write items place edited
            return .ok (.array items)
  | _ :: _, document => .ok (.ok document)

def setLast (value : Document) : LastStep where
  atKey key fields := Keyed.insert fields key value
  atIndex index place? items :=
    match place? with
    | some place => write items place value
    | none => if index.toInt < 0 then insert items 0 value else .ok (items ++ [value])

def deleteLast : LastStep where
  atKey key fields := Keyed.erase fields key
  atIndex _ place? items :=
    match place? with
    | some place => remove items place
    | none => .ok items

def setPath (document : Document) (path : List String) (value : Document) :
    Except Stop (Except Document.EditFault Document) :=
  if document.isContainer then editAt (setLast value) 0 path document
  else .ok (.error .setInScalar)

def deletePath (document : Document) (path : List String) :
    Except Stop (Except Document.EditFault Document) :=
  if document.isContainer then editAt deleteLast 0 path document
  else .ok (.error .deletePathInScalar)

def deleteIndex (document : Document) (index : Int64) :
    Except Stop (Except Document.EditFault Document) :=
  match document with
  | .array items => do
    let place? ← position items.length index
    let items ← deleteLast.atIndex index place? items
    return .ok (.array items)
  | .object _ => .ok (.error .indexIntoObject)
  | _ => .ok (.error .deleteFromScalar)

/-- A last step that stops at no position that is there and, given the position that
an index stands for, does what a last step by definition does. -/
structure LastStep.Performs (last : LastStep) (step : Document.LastStep) : Prop where
  atKey : last.atKey = step.atKey
  atIndex : ∀ index place? items, (∀ place, place? = some place → place < items.length) →
    Yields (place? = Document.position? items.length index.toInt)
      (last.atIndex index place? items) (step.atIndex index.toInt items)

theorem setLast_performs (value : Document) :
    (setLast value).Performs (Document.setLast value) := by
  refine ⟨rfl, ?_⟩
  intro index place? items hplace
  cases place? with
  | some place =>
      refine ⟨items.set place value, write_of_lt (hplace place rfl) value, fun hposition => ?_⟩
      simp only [Document.setLast, ← hposition]
  | none =>
      by_cases hindex : index.toInt < 0
      · refine ⟨value :: items, ?_, fun hposition => ?_⟩
        · exact (if_pos hindex).trans (insert_first items value)
        · simp only [Document.setLast, ← hposition, if_pos hindex]
      · refine ⟨items ++ [value], if_neg hindex, fun hposition => ?_⟩
        simp only [Document.setLast, ← hposition, if_neg hindex]

theorem deleteLast_performs : deleteLast.Performs Document.deleteLast := by
  refine ⟨rfl, ?_⟩
  intro index place? items hplace
  cases place? with
  | some place =>
      refine ⟨items.eraseIdx place, remove_of_lt (hplace place rfl), fun hposition => ?_⟩
      simp only [Document.deleteLast, ← hposition]
  | none =>
      refine ⟨items, rfl, fun hposition => ?_⟩
      simp only [Document.deleteLast, ← hposition]

section Edits

variable {last : LastStep} {step : Document.LastStep} (hlast : last.Performs step)
include hlast

theorem atIndex_yields (items : List Document) (index : Int64) :
    ∃ place? edited, position items.length index = .ok place? ∧
      last.atIndex index place? items = .ok edited ∧
      (Text.FitsWord items.length → edited = step.atIndex index.toInt items) := by
  obtain ⟨place?, hresolved, hlt, heq⟩ := exists_position items.length index
  obtain ⟨edited, hrun, hsame⟩ := hlast.atIndex index place? items hlt
  exact ⟨place?, edited, hresolved, hrun, fun hlength => hsame (heq hlength)⟩

section Steps

variable {depth : Nat} {first : String} {rest : List String}
  (hrest : ∀ child, Yields child.Fits (editAt last (depth + 1) rest child)
    (Document.editAt step (depth + 1) rest child))
include hrest

theorem editAt_object_yields (fields : List (String × Document)) :
    Yields (Document.object fields).Fits (editAt last depth (first :: rest) (.object fields))
      (Document.editAt step depth (first :: rest) (.object fields)) := by
  cases rest with
  | nil =>
      refine ⟨_, rfl, fun _ => ?_⟩
      rw [hlast.atKey]
      rfl
  | cons next rest =>
      rw [Document.editAt_object, editAt, if_neg (by simp)]
      cases hfind : Keyed.find? fields first with
      | none => exact .ok _
      | some child =>
          have hchild : (Document.object fields).child? first = some child := hfind
          obtain ⟨found, hrun, heq⟩ := hrest child
          dsimp only
          rw [hrun]
          exact ⟨_, rfl, fun hfits => by rw [heq (hfits.child hchild)]⟩

/-- In an array the item that the edit goes on in, and that it replaces, stands at a
position that was resolved in that very array. -/
theorem editAt_array_yields (items : List Document) :
    Yields (Document.array items).Fits (editAt last depth (first :: rest) (.array items))
      (Document.editAt step depth (first :: rest) (.array items)) := by
  rw [editAt]
  cases hword : Text.readWord first.toList with
  | none =>
      have hindex : Document.index? first = none := by
        rw [Document.index?, hword, Option.map_none]
      rw [Document.editAt_array_of_index?_eq_none hindex]
      exact .ok _
  | some index =>
      have hindex : Document.index? first = some index.toInt := by
        rw [Document.index?, hword, Option.map_some]
      cases rest with
      | nil =>
          rw [Document.editAt_array_last, Document.indexAt_of_index? hindex]
          obtain ⟨place?, edited, hresolved, hrun, heq⟩ := atIndex_yields hlast items index
          refine ⟨.ok (.array edited), ?_, fun hfits => ?_⟩
          · exact bind_eq_ok.2 ⟨place?, hresolved, bind_eq_ok.2 ⟨edited, hrun, rfl⟩⟩
          · rw [heq hfits.length]
            rfl
      | cons next rest =>
          rw [Document.editAt_array, Document.indexAt_of_index? hindex]
          dsimp only
          obtain ⟨place?, hresolved, hlt, heq⟩ := exists_position items.length index
          cases place? with
          | none =>
              refine ⟨.ok (.array items), bind_eq_ok.2 ⟨none, hresolved, rfl⟩, ?_⟩
              exact fun hfits => by rw [← heq hfits.length]
          | some place =>
              have hplace := hlt place rfl
              obtain ⟨found, hrun, hsame⟩ := hrest items[place]
              refine ⟨found.map fun edited => .array (items.set place edited), ?_, ?_⟩
              · refine bind_eq_ok.2 ⟨some place, hresolved, ?_⟩
                refine bind_eq_ok.2 ⟨items[place], read_of_lt hplace, ?_⟩
                refine bind_eq_ok.2 ⟨found, hrun, ?_⟩
                cases found with
                | error fault => rfl
                | ok edited => exact bind_eq_ok.2 ⟨_, write_of_lt hplace edited, rfl⟩
              · intro hfits
                have hposition := (heq hfits.length).symm
                have hitem := List.getElem?_eq_getElem hplace
                have hchild : (Document.array items).child? first = some items[place] := by
                  rw [Document.child?, hindex, Option.bind_some]
                  exact Document.item?_eq_some.2 ⟨place, hposition, hitem⟩
                simp only [hposition, hitem, hsame (hfits.child hchild)]

end Steps

theorem editAt_yields (depth : Nat) (path : List String) (document : Document) :
    Yields document.Fits (editAt last depth path document)
      (Document.editAt step depth path document) := by
  induction path generalizing depth document with
  | nil => cases document <;> exact .ok _
  | cons first rest ih =>
      cases document with
      | object fields => exact editAt_object_yields hlast (ih (depth + 1)) fields
      | array items => exact editAt_array_yields hlast (ih (depth + 1)) items
      | _ => cases rest <;> exact .ok _

end Edits

theorem setPath_yields (document : Document) (path : List String) (value : Document) :
    Yields document.Fits (setPath document path value) (document.setPath path value) := by
  rw [setPath, Document.setPath]
  split
  · exact editAt_yields (setLast_performs value) 0 path document
  · exact .ok _

theorem deletePath_yields (document : Document) (path : List String) :
    Yields document.Fits (deletePath document path) (document.deletePath path) := by
  rw [deletePath, Document.deletePath]
  split
  · exact editAt_yields deleteLast_performs 0 path document
  · exact .ok _

theorem deleteIndex_yields (document : Document) (index : Int64) :
    Yields document.Fits (deleteIndex document index) (document.deleteIndex index.toInt) := by
  cases document with
  | array items =>
      obtain ⟨place?, edited, hresolved, hrun, heq⟩ :=
        atIndex_yields deleteLast_performs items index
      refine ⟨.ok (.array edited), ?_, fun hfits => ?_⟩
      · exact bind_eq_ok.2 ⟨place?, hresolved, bind_eq_ok.2 ⟨edited, hrun, rfl⟩⟩
      · rw [heq hfits.length, Document.deleteIndex]
  | _ => exact .ok _

end Indexed

end JsonbAlgebra
