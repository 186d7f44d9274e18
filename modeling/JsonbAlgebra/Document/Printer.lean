import JsonbAlgebra.Document.Basic

/-!
# Document text

The compact JSON text of a document: no blanks, the fields in key order, and
in texts a short escape where there is one, `\u00xx` for the other control
characters, and every other character as it is.
-/

namespace JsonbAlgebra.Document

/-- Numbers with a leading digit between the fifth place after the point and
the sixteenth before it are written positionally and always with a point; a
tie goes to the even digit. -/
def layout : Layout where
  tie := .even
  positional := fun exponent => -5 ≤ exponent && exponent ≤ 15
  pointed := true

def lowerHex (value : Nat) : Char :=
  Nat.digitChar value

def escape (c : Char) : List Char :=
  match c with
  | '"' => ['\\', '"']
  | '\\' => ['\\', '\\']
  | '\x08' => ['\\', 'b']
  | '\x0c' => ['\\', 'f']
  | '\n' => ['\\', 'n']
  | '\r' => ['\\', 'r']
  | '\t' => ['\\', 't']
  | c =>
    if c.toNat < 0x20 then
      ['\\', 'u', '0', '0', lowerHex (c.toNat / 16), lowerHex (c.toNat % 16)]
    else [c]

def quoted (value : String) : List Char :=
  '"' :: (value.toList.flatMap escape ++ ['"'])

def numberText : Number → List Char
  | .whole value _ => (toString value).toList
  | .real value => value.write layout

mutual

def textChars : Document → List Char
  | .null => "null".toList
  | .boolean true => "true".toList
  | .boolean false => "false".toList
  | .number value => numberText value
  | .string value => quoted value
  | .array items => '[' :: (itemChars items ++ [']'])
  | .object fields => '\x7b' :: (fieldChars fields ++ ['\x7d'])

def itemChars : List Document → List Char
  | [] => []
  | [item] => textChars item
  | item :: items => textChars item ++ ',' :: itemChars items

def fieldChars : List (String × Document) → List Char
  | [] => []
  | [(key, value)] => quoted key ++ ':' :: textChars value
  | (key, value) :: fields =>
    quoted key ++ ':' :: (textChars value ++ ',' :: fieldChars fields)

end

def text (document : Document) : String :=
  String.ofList document.textChars

/-- The text itself of a text document, and the JSON text of any other. -/
def plainText : Document → String
  | .string value => value
  | document => document.text

theorem map_plainText_string (texts : List String) :
    (texts.map string).map plainText = texts := by
  have hid : plainText ∘ string = id := rfl
  rw [List.map_map, hid, List.map_id]

end JsonbAlgebra.Document
