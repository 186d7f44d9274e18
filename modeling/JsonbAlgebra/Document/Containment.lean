import JsonbAlgebra.Document.Basic

/-!
# Equality by value and containment

Equality by value disregards how a number is held.  Containment asks whether
every part of one document is found in another: the fields of an object under
their keys, the items of an array anywhere in the array.  An array also
contains a scalar that equals one of its items.
-/

namespace JsonbAlgebra.Document

mutual

def equal : Document → Document → Bool
  | .null, .null => true
  | .boolean a, .boolean b => a == b
  | .number a, .number b => a.equal b
  | .string a, .string b => a == b
  | .array a, .array b => equalItems a b
  | .object a, .object b => a.length == b.length && equalFields a b
  | _, _ => false

def equalItems : List Document → List Document → Bool
  | [], [] => true
  | a :: as, b :: bs => equal a b && equalItems as bs
  | _, _ => false

/-- Every entry of the first list has an equal under its key in the second. -/
def equalFields : List (String × Document) → List (String × Document) → Bool
  | [], _ => true
  | (key, a) :: as, bs =>
    match Keyed.find? bs key with
    | some b => equal a b && equalFields as bs
    | none => false

end

mutual

/-- Whether the first document is contained in the second. -/
def within : Document → Document → Bool
  | .object inner, .object outer => withinFields inner outer
  | .array inner, .array outer => withinItems inner outer
  | .object _, .array _ => false
  | _, .object _ => false
  | inner, .array outer => outer.any fun item => equal item inner
  | inner, outer => equal outer inner

def withinItems : List Document → List Document → Bool
  | [], _ => true
  | item :: items, outer => outer.any (fun o => within item o) && withinItems items outer

def withinFields : List (String × Document) → List (String × Document) → Bool
  | [], _ => true
  | (key, value) :: fields, outer =>
    match Keyed.find? outer key with
    | some found => within value found && withinFields fields outer
    | none => false

end

def contains (outer inner : Document) : Bool :=
  within inner outer

/-- Whether a document has a key: as a field name of an object, as a text
item of an array, or as the text itself. -/
def hasKey (document : Document) (key : String) : Bool :=
  match document with
  | .object fields => (Keyed.find? fields key).isSome
  | .array items => items.any fun item => item.text? == some key
  | .string value => value == key
  | _ => false

end JsonbAlgebra.Document
