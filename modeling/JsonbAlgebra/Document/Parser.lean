import JsonbAlgebra.Document.Printer

/-!
# Reading documents

A reader takes a value off the front of a text and leaves the rest.  Blanks
are the four of JSON.  A number without point or exponent is whole if a
64-bit word holds it, and in every other case the nearest finite number; a
number too large for that is refused, and so is minus zero as a whole number,
which becomes the real one.  Of two fields with one key the later wins.

Containers nest at most 127 deep.
-/

namespace JsonbAlgebra.Document

def skipBlanks (text : List Char) : List Char :=
  text.dropWhile fun c => c == ' ' || c == '\t' || c == '\n' || c == '\r'

def hexValue? (c : Char) : Option Nat :=
  if c.isDigit then some (c.toNat - '0'.toNat)
  else if 'a' ≤ c ∧ c ≤ 'f' then some (c.toNat - 'a'.toNat + 10)
  else if 'A' ≤ c ∧ c ≤ 'F' then some (c.toNat - 'A'.toNat + 10)
  else none

def hexNumber? (digits : List Char) : Option Nat :=
  digits.foldlM (fun value c => (hexValue? c).map (16 * value + ·)) 0

/-- The character of a code point outside the surrogates. -/
def scalar? (code : Nat) : Option Char :=
  if h : code.isValidChar then some (Char.ofNatAux code h) else none

def surrogatePair? (high low : Nat) : Option Char :=
  if 0xDC00 ≤ low ∧ low ≤ 0xDFFF then
    scalar? (0x10000 + (high - 0xD800) * 0x400 + (low - 0xDC00))
  else none

/-- The characters that one letter after a backslash stands for. -/
def shortEscape? : Char → Option Char
  | '"' => some '"'
  | '\\' => some '\\'
  | '/' => some '/'
  | 'b' => some '\x08'
  | 'f' => some '\x0c'
  | 'n' => some '\n'
  | 'r' => some '\r'
  | 't' => some '\t'
  | _ => none

/-- The rest of a quoted text behind its opening quote; what is already read
is held in reverse. -/
def readQuoted (taken : List Char) : List Char → Option (String × List Char)
  | '"' :: rest => some (String.ofList taken.reverse, rest)
  | '\\' :: 'u' :: a :: b :: c :: d :: rest => do
    let code ← hexNumber? [a, b, c, d]
    if 0xD800 ≤ code ∧ code ≤ 0xDBFF then
      match rest with
      | '\\' :: 'u' :: e :: f :: g :: h :: rest => do
        let low ← hexNumber? [e, f, g, h]
        let pair ← surrogatePair? code low
        readQuoted (pair :: taken) rest
      | _ => none
    else
      let single ← scalar? code
      readQuoted (single :: taken) rest
  | '\\' :: letter :: rest => do
    let c ← shortEscape? letter
    readQuoted (c :: taken) rest
  | c :: rest => if c.toNat < 0x20 ∨ c = '\\' then none else readQuoted (c :: taken) rest
  | [] => none

def digitRun (text : List Char) : List Char × List Char :=
  (text.takeWhile Char.isDigit, text.dropWhile Char.isDigit)

/-- A point with digits behind it, if there is a point. -/
def readFraction : List Char → Option (Option (List Char) × List Char)
  | '.' :: rest =>
    match digitRun rest with
    | ([], _) => none
    | (digits, rest) => some (some digits, rest)
  | rest => some (none, rest)

/-- An exponent mark with a signed run of digits, if there is a mark. -/
def readExponent : List Char → Option (Option Int × List Char)
  | c :: rest =>
    if c = 'e' ∨ c = 'E' then
      let (negative, rest) := Text.readSign rest
      match digitRun rest with
      | ([], _) => none
      | (digits, rest) =>
        let value : Int := Text.naturalOfDigits digits
        some (some (if negative then -value else value), rest)
    else some (none, c :: rest)
  | [] => some (none, [])

def realOf (negative : Bool) (digits : Nat) (exponent : Int) : Option Number :=
  match Numeric.ofDecimal negative digits exponent with
  | .finite value => some (.real value)
  | _ => none

/-- The number of a token without point and exponent. -/
def wholeOf (negative : Bool) (magnitude : Nat) : Option Number :=
  let value : Int := if negative then -magnitude else magnitude
  if negative ∧ magnitude = 0 then realOf true 0 0
  else
    match Number.whole? value with
    | some exact => some exact
    | none => realOf negative magnitude 0

def readNumber (text : List Char) : Option (Number × List Char) := do
  let (negative, text) :=
    match text with
    | '-' :: rest => (true, rest)
    | rest => (false, rest)
  let (whole, rest) := digitRun text
  if whole = [] ∨ (whole.head? = some '0' ∧ whole.length ≠ 1) then none
  else
    let (fraction, rest) ← readFraction rest
    let (exponent, rest) ← readExponent rest
    let value ←
      match fraction, exponent with
      | none, none => wholeOf negative (Text.naturalOfDigits whole)
      | _, _ =>
        let places := fraction.getD []
        realOf negative (Text.naturalOfDigits (whole ++ places))
          (exponent.getD 0 - places.length)
    return (value, rest)

/-- Takes a word off the front of a text. -/
def readWord (word : List Char) (text : List Char) : Option (List Char) :=
  if word.isPrefixOf text then some (text.drop word.length) else none

mutual

/-- One value with the blanks in front of it.  The first number bounds the
steps that are left, the second the nesting. -/
def readValue : Nat → Nat → List Char → Option (Document × List Char)
  | 0, _, _ => none
  | steps + 1, depth, text =>
    match skipBlanks text with
    | '"' :: rest => do
      let (value, rest) ← readQuoted [] rest
      return (.string value, rest)
    | '[' :: rest =>
      match depth with
      | 0 => none
      | depth + 1 =>
        match skipBlanks rest with
        | ']' :: rest => some (.array [], rest)
        | rest => do
          let (items, rest) ← readItems steps depth rest
          return (.array items, rest)
    | '\x7b' :: rest =>
      match depth with
      | 0 => none
      | depth + 1 =>
        match skipBlanks rest with
        | '\x7d' :: rest => some (.object [], rest)
        | rest => do
          let (fields, rest) ← readFields steps depth rest
          return (.object (Keyed.ofList fields), rest)
    | 'n' :: rest => (readWord "ull".toList rest).map (.null, ·)
    | 't' :: rest => (readWord "rue".toList rest).map (.boolean true, ·)
    | 'f' :: rest => (readWord "alse".toList rest).map (.boolean false, ·)
    | rest => do
      let (value, rest) ← readNumber rest
      return (.number value, rest)

/-- The items of an array, at least one, and the closing bracket. -/
def readItems : Nat → Nat → List Char → Option (List Document × List Char)
  | 0, _, _ => none
  | steps + 1, depth, text => do
    let (item, rest) ← readValue steps depth text
    match skipBlanks rest with
    | ']' :: rest => return ([item], rest)
    | ',' :: rest =>
      let (items, rest) ← readItems steps depth rest
      return (item :: items, rest)
    | _ => none

/-- The fields of an object, at least one, and the closing brace. -/
def readFields : Nat → Nat → List Char → 
    Option (List (String × Document) × List Char)
  | 0, _, _ => none
  | steps + 1, depth, text =>
    match skipBlanks text with
    | '"' :: rest => do
      let (key, rest) ← readQuoted [] rest
      match skipBlanks rest with
      | ':' :: rest =>
        let (value, rest) ← readValue steps depth rest
        match skipBlanks rest with
        | '\x7d' :: rest => return ([(key, value)], rest)
        | ',' :: rest =>
          let (fields, rest) ← readFields steps depth rest
          return ((key, value) :: fields, rest)
        | _ => none
      | _ => none
    | _ => none

end

/-- The document a text stands for.  Every second step takes a character, so
twice the length of the text is enough steps. -/
def parse? (text : String) : Option Document :=
  let chars := text.toList
  match readValue (2 * chars.length + 2) 127 chars with
  | some (document, rest) => if skipBlanks rest = [] then some document else none
  | none => none

end JsonbAlgebra.Document
