import JsonbAlgebra.Binary64
import JsonbAlgebra.Text

/-!
# Numeric values

A numeric value is a finite binary64 number, one of the two infinities, or
not a number.  Values arise from whole numbers, decimals and text by rounding
to the nearest finite number; a magnitude that would round to `2 ^ 1024` is
infinite.
-/

namespace JsonbAlgebra

inductive Numeric where
  | finite (value : Binary64)
  | infinite (negative : Bool)
  | nan
  deriving DecidableEq

namespace Numeric

/-- The value of so many units; off the grid there are only infinities. -/
def ofUnits (negative : Bool) (units : Nat) : Numeric :=
  if h : Binary64.OnGrid units then .finite ⟨negative, units, h⟩
  else .infinite negative

def ofRatio (negative : Bool) (numerator denominator : Nat) : Numeric :=
  ofUnits negative (Binary64.nearest (numerator * Binary64.one) denominator)

def ofInt (value : Int) : Numeric :=
  ofRatio (value < 0) value.natAbs 1

/-- The value nearest to `digits * 10 ^ exponent`.  Exponents so large or so
small that the outcome no longer depends on the digits are settled first. -/
def ofDecimal (negative : Bool) (digits : Nat) (exponent : Int) : Numeric :=
  if digits = 0 then .finite (.zero negative)
  else if 309 < exponent then .infinite negative
  else if exponent < -(digits.log2 + 1080 : Int) then .finite (.zero negative)
  else
    ofRatio negative (digits * Nat.pow 10 exponent.toNat) (Nat.pow 10 (-exponent).toNat)

/-- Equality of values: the two zeros are equal, and what is not a number
equals nothing. -/
def same : Numeric → Numeric → Bool
  | .finite x, .finite y => x.same y
  | .infinite a, .infinite b => a == b
  | _, _ => false

def nearestWord (value : Int) : Int64 :=
  Int64.ofInt (max (-0x8000000000000000) (min 0x7fffffffffffffff value))

/-- The nearest whole number that a signed 64-bit word holds, a half rounded
away from zero; what is not a number counts as zero. -/
def toWord : Numeric → Int64
  | .finite x =>
    let magnitude : Int := ((2 * x.units + Binary64.one) / (2 * Binary64.one) : Nat)
    nearestWord (if x.negative then -magnitude else magnitude)
  | .infinite negative => if negative then Int64.minValue else Int64.maxValue
  | .nan => 0

/-- Numeric values are written positionally, without a point in whole
numbers. -/
def layout : Layout where
  tie := .up
  positional := fun _ => true
  pointed := false

def write : Numeric → List Char
  | .finite x => x.write layout
  | .infinite false => "inf".toList
  | .infinite true => "-inf".toList
  | .nan => "NaN".toList

/-- Digits with an optional point among or beside them: the digits as one
run, and how many of them follow the point. -/
def readMantissa (text : List Char) : Option (List Char × Nat) :=
  let whole := text.takeWhile (· ≠ '.')
  let fraction := (text.dropWhile (· ≠ '.')).drop 1
  let digits := whole ++ fraction
  if digits ≠ [] ∧ digits.all Char.isDigit then some (digits, fraction.length)
  else none

def readDecimal (negative : Bool) (text : List Char) : Option Numeric := do
  let isMark (c : Char) := c = 'e' || c = 'E'
  let (digits, places) ← readMantissa (text.takeWhile fun c => !isMark c)
  let exponent ←
    match text.dropWhile fun c => !isMark c with
    | [] => some 0
    | _ :: power => Text.readInteger power
  return ofDecimal negative (Text.naturalOfDigits digits) (exponent - places)

/-- A numeric value in text: an optional sign before a decimal or, in any
case of its letters, `inf`, `infinity` or `nan`. -/
def read (text : List Char) : Option Numeric :=
  let (negative, magnitude) := Text.readSign text
  match String.ofList (magnitude.map Char.toLower) with
  | "inf" | "infinity" => some (.infinite negative)
  | "nan" => some .nan
  | _ => readDecimal negative magnitude

end Numeric

end JsonbAlgebra
