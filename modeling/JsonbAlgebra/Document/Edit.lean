import JsonbAlgebra.Document.Basic

/-!
# Paths in documents

A path is a list of steps.  In an object a step is a key.  In an array it is
a decimal index, and a negative index counts from the end; a step that is no
integer leads nowhere.
-/

namespace JsonbAlgebra.Document

/-- The position a possibly negative index stands for in a list of so many
items. -/
def position? (length : Nat) (index : Int) : Option Nat :=
  if 0 ≤ index then
    if index < length then some index.toNat else none
  else if 0 ≤ length + index then some (length + index).toNat
  else none

def index? (step : String) : Option Int :=
  (Text.readWord step.toList).map Int64.toInt

def item? (items : List Document) (index : Int) : Option Document :=
  (position? items.length index).bind fun place => items[place]?

def child? (document : Document) (step : String) : Option Document :=
  match document with
  | .object fields => Keyed.find? fields step
  | .array items => (index? step).bind (item? items)
  | _ => none

def at? (document : Document) (path : List String) : Option Document :=
  path.foldlM child? document

theorem position?_lt {length : Nat} {index : Int} {place : Nat}
    (h : position? length index = some place) : place < length := by
  unfold position? at h
  split at h
  · split at h
    · simp only [Option.some.injEq] at h
      omega
    · contradiction
  · split at h
    · simp only [Option.some.injEq] at h
      omega
    · contradiction

@[simp] theorem at?_nil (document : Document) : document.at? [] = some document :=
  rfl

@[simp] theorem at?_cons (document : Document) (step : String) (path : List String) :
    document.at? (step :: path) = (document.child? step).bind fun d => d.at? path :=
  rfl

theorem at?_append (document : Document) (path rest : List String) :
    document.at? (path ++ rest) = (document.at? path).bind fun d => d.at? rest := by
  induction path generalizing document with
  | nil => simp
  | cons step path ih => simp [ih, Option.bind_assoc]

/-! ## Edits

Setting and deleting at a path walk down the path in the same way and differ
only in what they do at its last step.  The walk follows a step only where
there is something to step to, and otherwise leaves the document alone.
-/

/-- Why a document cannot be edited. -/
inductive EditFault where
  | notInteger (position : Nat) (step : String)
  | setInScalar
  | deletePathInScalar
  | deleteFromScalar
  | indexIntoObject
  deriving DecidableEq, Repr

/-- What an edit does at the last step of a path, to the fields of an object
or to the items of an array. -/
structure LastStep where
  atKey : String → List (String × Document) → List (String × Document)
  atIndex : Int → List Document → List Document

/-- The index a step stands for in an array, at some position of the path. -/
def indexAt (position : Nat) (step : String) : Except EditFault Int :=
  match index? step with
  | some index => .ok index
  | none => .error (.notInteger position step)

/-- The edit of a document along a path whose first step has a position in
the whole path. -/
def editAt (last : LastStep) (position : Nat) :
    List String → Document → Except EditFault Document
  | [step], .object fields => .ok (.object (last.atKey step fields))
  | step :: rest, .object fields =>
    match Keyed.find? fields step with
    | some child =>
      (editAt last (position + 1) rest child).map fun edited =>
        .object (Keyed.insert fields step edited)
    | none => .ok (.object fields)
  | [step], .array items =>
    (indexAt position step).map fun index => .array (last.atIndex index items)
  | step :: rest, .array items =>
    match indexAt position step with
    | .error fault => .error fault
    | .ok index =>
      match position? items.length index with
      | some place =>
        match items[place]? with
        | some child =>
          (editAt last (position + 1) rest child).map fun edited =>
            .array (items.set place edited)
        | none => .ok (.array items)
      | none => .ok (.array items)
  | _, document => .ok document

/-- The last step of setting: a key takes the value, an index in range too,
and an index beyond either end adds the value at that end. -/
def setLast (value : Document) : LastStep where
  atKey key fields := Keyed.insert fields key value
  atIndex index items :=
    match position? items.length index with
    | some place => items.set place value
    | none => if index < 0 then value :: items else items ++ [value]

/-- The last step of deleting: what is there goes. -/
def deleteLast : LastStep where
  atKey key fields := Keyed.erase fields key
  atIndex index items :=
    match position? items.length index with
    | some place => items.eraseIdx place
    | none => items

/-- The document with a value put at a path. -/
def setPath (document : Document) (path : List String) (value : Document) :
    Except EditFault Document :=
  if document.isContainer then editAt (setLast value) 0 path document
  else .error .setInScalar

def deletePath (document : Document) (path : List String) : Except EditFault Document :=
  if document.isContainer then editAt deleteLast 0 path document
  else .error .deletePathInScalar

/-- An object without a key, or an array without the items that are that
text. -/
def deleteKey (document : Document) (key : String) : Except EditFault Document :=
  match document with
  | .object fields => .ok (.object (Keyed.erase fields key))
  | .array items => .ok (.array (items.filter fun item => item.text? != some key))
  | _ => .error .deleteFromScalar

def deleteIndex (document : Document) (index : Int) : Except EditFault Document :=
  match document with
  | .array items => .ok (.array (deleteLast.atIndex index items))
  | .object _ => .error .indexIntoObject
  | _ => .error .deleteFromScalar

/-- Two objects merge, the right one winning; otherwise the two are appended
as arrays, with anything but an array standing for its one item. -/
def concat (left right : Document) : Document :=
  match left, right with
  | .object fields, .object extra => .object (Keyed.merge fields extra)
  | .array items, .array extra => .array (items ++ extra)
  | .array items, item => .array (items ++ [item])
  | item, .array extra => .array (item :: extra)
  | first, second => .array [first, second]

end JsonbAlgebra.Document
