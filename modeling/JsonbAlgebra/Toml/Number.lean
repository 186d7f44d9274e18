import JsonbAlgebra.Document.Parser
import JsonbAlgebra.Toml.Value

/-!
# Numbers and times in TOML

Digits may have single underscores between them.  A decimal integer has no
leading zeros and fits a 64-bit word, and so do hexadecimal, octal and binary
ones, which have no sign.  A date is one of the calendar.
-/

namespace JsonbAlgebra.Toml

/-- Digits with single underscores between them, behind the first one. -/
def readMoreDigits (isDigit : Char → Bool) : List Char → Option (List Char × List Char)
  | '_' :: c :: rest =>
    if isDigit c then
      (readMoreDigits isDigit rest).map fun (digits, rest) => (c :: digits, rest)
    else none
  | c :: rest =>
    if isDigit c then
      (readMoreDigits isDigit rest).map fun (digits, rest) => (c :: digits, rest)
    else if c = '_' then none
    else some ([], c :: rest)
  | [] => some ([], [])

def readDigits (isDigit : Char → Bool) : List Char → Option (List Char × List Char)
  | c :: rest =>
    if isDigit c then
      (readMoreDigits isDigit rest).map fun (digits, rest) => (c :: digits, rest)
    else none
  | [] => none

def readWhole : List Char → Option (List Char × List Char)
  | '0' :: rest => some (['0'], rest)
  | text => readDigits Char.isDigit text

/-- The number that digits stand for to some base. -/
def ofDigits (base : Nat) (digits : List Char) : Nat :=
  digits.foldl (fun value c => base * value + (Document.hexValue? c).getD 0) 0

def wordValue (value : Int) : Option Value :=
  (Text.word? value).map .integer

/-- An integer to a base that is a power of two. -/
def readBased (base : Nat) (isDigit : Char → Bool) (text : List Char) :
    Option (Value × List Char) := do
  let (digits, rest) ← readDigits isDigit text
  return (← wordValue (ofDigits base digits), rest)

/-- The digits behind a point, if there is one. -/
def readFraction : List Char → Option (Option (List Char) × List Char)
  | '.' :: rest => (readDigits Char.isDigit rest).map fun (digits, rest) => (some digits, rest)
  | text => some (none, text)

def readPower : List Char → Option (Option Int × List Char)
  | c :: rest =>
    if c = 'e' ∨ c = 'E' then do
      let (negative, rest) := Text.readSign rest
      let (digits, rest) ← readDigits Char.isDigit rest
      let power : Int := Text.naturalOfDigits digits
      return (some (if negative then -power else power), rest)
    else some (none, c :: rest)
  | [] => some (none, [])

/-- A decimal integer, or a float with a fraction, an exponent or both.  A
float must not be so large that it rounds to positive infinity. -/
def readDecimal (negative : Bool) (text : List Char) : Option (Value × List Char) := do
  let (whole, rest) ← readWhole text
  let (fraction, rest) ← readFraction rest
  let (power, rest) ← readPower rest
  if fraction.isNone && power.isNone then
    let magnitude : Int := Text.naturalOfDigits whole
    return (← wordValue (if negative then -magnitude else magnitude), rest)
  else
    let places := fraction.getD []
    let value :=
      Numeric.ofDecimal negative (Text.naturalOfDigits (whole ++ places))
        (power.getD 0 - places.length)
    if value = .infinite false then none else return (.float value, rest)

/-- A number that starts with a sign or a digit. -/
def readNumber (text : List Char) : Option (Value × List Char) :=
  match text with
  | '0' :: 'x' :: rest => readBased 16 (fun c => (Document.hexValue? c).isSome) rest
  | '0' :: 'o' :: rest => readBased 8 (fun c => '0' ≤ c && c ≤ '7') rest
  | '0' :: 'b' :: rest => readBased 2 (fun c => c == '0' || c == '1') rest
  | _ =>
    match Text.readSign text with
    | (negative, 'i' :: 'n' :: 'f' :: rest) => some (.float (.infinite negative), rest)
    | (_, 'n' :: 'a' :: 'n' :: rest) => some (.float .nan, rest)
    | (negative, rest) => readDecimal negative rest

/-! ## Dates and times -/

/-- Exactly so many digits, and the number they stand for. -/
def readFixed (count : Nat) (text : List Char) : Option (List Char × Nat × List Char) :=
  let digits := text.take count
  if digits.length = count ∧ digits.all Char.isDigit then
    some (digits, Text.naturalOfDigits digits, text.drop count)
  else none

def isLeapYear (year : Nat) : Bool :=
  year % 4 == 0 && (year % 100 != 0 || year % 400 == 0)

def daysIn (year month : Nat) : Nat :=
  if month = 2 then if isLeapYear year then 29 else 28
  else if month ∈ [4, 6, 9, 11] then 30
  else 31

def readMark (mark : Char) : List Char → Option (List Char)
  | c :: rest => if c = mark then some rest else none
  | [] => none

def readDate (text : List Char) : Option (List Char × List Char) := do
  let (yearDigits, year, rest) ← readFixed 4 text
  let rest ← readMark '-' rest
  let (monthDigits, month, rest) ← readFixed 2 rest
  let rest ← readMark '-' rest
  let (dayDigits, day, rest) ← readFixed 2 rest
  if 1 ≤ month ∧ month ≤ 12 ∧ 1 ≤ day ∧ day ≤ daysIn year month then
    return (yearDigits ++ '-' :: monthDigits ++ '-' :: dayDigits, rest)
  else none

/-- The digits behind the seconds: nine of them count, and zeros at their end
are not written. -/
def readSecondFraction (text : List Char) : List Char × List Char :=
  match text with
  | '.' :: rest =>
    match rest.takeWhile Char.isDigit with
    | [] => ([], text)
    | digits =>
      let kept := ((digits.take 9).reverse.dropWhile (· == '0')).reverse
      (if kept = [] then [] else '.' :: kept, rest.dropWhile Char.isDigit)
  | _ => ([], text)

def readTime (text : List Char) : Option (List Char × List Char) := do
  let (hourDigits, hour, rest) ← readFixed 2 text
  let rest ← readMark ':' rest
  let (minuteDigits, minute, rest) ← readFixed 2 rest
  let rest ← readMark ':' rest
  let (secondDigits, second, rest) ← readFixed 2 rest
  let (fraction, rest) := readSecondFraction rest
  if hour ≤ 23 ∧ minute ≤ 59 ∧ second ≤ 60 then
    return (hourDigits ++ ':' :: minuteDigits ++ ':' :: secondDigits ++ fraction, rest)
  else none

/-- The distance from universal time, if there is one.  No distance at all is
written with a plus sign. -/
def readOffset (text : List Char) : Option (List Char × List Char) :=
  match text with
  | [] => some ([], [])
  | sign :: rest =>
    if sign = 'Z' ∨ sign = 'z' then some (['Z'], rest)
    else if sign = '+' ∨ sign = '-' then do
      let (hourDigits, hour, rest) ← readFixed 2 rest
      let rest ← readMark ':' rest
      let (minuteDigits, minute, rest) ← readFixed 2 rest
      if hour ≤ 23 ∧ minute ≤ 59 then
        let sign := if hour = 0 ∧ minute = 0 then '+' else sign
        return (sign :: hourDigits ++ ':' :: minuteDigits, rest)
      else none
    else some ([], text)

def startsTime (text : List Char) : Bool :=
  match readFixed 2 text with
  | some (_, _, ':' :: _) => true
  | _ => false

def startsDate (text : List Char) : Bool :=
  match readFixed 4 text with
  | some (_, _, '-' :: _) => true
  | _ => false

def isTimeMark (c : Char) : Bool :=
  c == 'T' || c == 't' || c == ' '

/-- A date, with a time of day behind it if there is one. -/
def readDateTime (text : List Char) : Option (Value × List Char) := do
  let (date, rest) ← readDate text
  match rest with
  | mark :: clock =>
    if isTimeMark mark && startsTime clock then
      let (time, rest) ← readTime clock
      let (offset, rest) ← readOffset rest
      return (.time (String.ofList (date ++ 'T' :: time ++ offset)), rest)
    else return (.time (String.ofList date), rest)
  | [] => return (.time (String.ofList date), [])

/-- A value that starts with a sign or a digit. -/
def readNumeral (text : List Char) : Option (Value × List Char) :=
  if startsDate text then readDateTime text
  else if startsTime text then
    (readTime text).map fun (time, rest) => (.time (String.ofList time), rest)
  else readNumber text

end JsonbAlgebra.Toml
