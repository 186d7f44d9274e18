/-!
# Finite binary64 numbers

Every finite binary64 number is a whole number of units of `2 ^ -1074`, so a
number is stored as its sign and its magnitude in units.  A magnitude that
needs more than 53 binary digits is a multiple of a power of two, the spacing
of the grid at that place; below the 53rd digit the spacing is one unit.

Zero has two signs, which differ in writing but not in value.  A number is
written as its shortest decimal.
-/

namespace JsonbAlgebra

/-- The exponent of the power of two that the grid is spaced by around a
magnitude of so many units. -/
def Binary64.spacing (units : Nat) : Nat :=
  units.log2 - 52

/-- The units that make `2 ^ 1024`, which no finite number reaches. -/
def Binary64.limit : Nat :=
  Nat.pow 2 2098

/-- The magnitudes of finite numbers: multiples of the spacing below the
limit. -/
def Binary64.OnGrid (units : Nat) : Prop :=
  units < Binary64.limit ∧ Nat.pow 2 (Binary64.spacing units) ∣ units

instance (units : Nat) : Decidable (Binary64.OnGrid units) :=
  inferInstanceAs (Decidable (_ ∧ _))

structure Binary64 where
  negative : Bool
  units : Nat
  onGrid : Binary64.OnGrid units
  deriving DecidableEq

namespace Binary64

/-- The units that make one. -/
def one : Nat :=
  Nat.pow 2 1074

theorem limit_pos : 0 < limit := by
  unfold limit
  apply Nat.pow_pos
  decide

theorem onGrid_zero : OnGrid 0 :=
  ⟨limit_pos, Nat.dvd_zero _⟩

def zero (negative : Bool) : Binary64 :=
  ⟨negative, 0, onGrid_zero⟩

/-- The value in units. -/
def value (x : Binary64) : Int :=
  if x.negative then -x.units else x.units

/-- Equality of values, so the two zeros are equal. -/
def same (x y : Binary64) : Bool :=
  x.value == y.value

/-- A quotient rounded to the nearest whole number, a half to the even
neighbour. -/
def roundHalfEven (numerator denominator : Nat) : Nat :=
  let floor := numerator / denominator
  let twice := 2 * (numerator % denominator)
  if twice < denominator then floor
  else if denominator < twice then floor + 1
  else floor + floor % 2

/-- The magnitude on the unbounded grid nearest to a quotient of units, a
half to the neighbour with an even last digit. -/
def nearest (numerator denominator : Nat) : Nat :=
  let step := Nat.pow 2 (spacing (numerator / denominator))
  roundHalfEven numerator (denominator * step) * step

theorem same_iff {x y : Binary64} : x.same y = true ↔ x.value = y.value := by
  simp [same]

end Binary64

/-! ## Shortest decimals

The reals that round to a given finite number form an interval around it.
Its shortest decimal is taken from the coarsest grid of powers of ten that
has a point in that interval; of the two neighbours of the number on that
grid the nearer one in the interval is chosen, and the caller says which one
an exact tie goes to.

Magnitudes are compared in quarters of a unit, so that the ends of the
interval are whole numbers.
-/

/-- The number `digits * 10 ^ exponent`. -/
structure Decimal where
  digits : Nat
  exponent : Int
  deriving DecidableEq, Repr

/-- Where a tie between two neighbouring decimals goes. -/
inductive Tie where
  | even
  | up
  deriving DecidableEq, Repr

namespace Binary64

/-- The reals that round to a magnitude, between two ends in quarter units. -/
structure Interval where
  low : Nat
  high : Nat
  closed : Bool
  deriving DecidableEq, Repr

/-- Half the gap to the next magnitude lies above, and half the gap to the
previous one below, which is half as wide just under a power of two.  The
ends belong to the interval when the last binary digit is even. -/
def interval (units : Nat) : Interval :=
  let step := Nat.pow 2 (spacing units)
  let below := if units = Nat.pow 2 52 * step ∧ 1 < step then step else 2 * step
  ⟨4 * units - below, 4 * units + 2 * step, units / step % 2 == 0⟩

/-- Whether a magnitude, scaled like the ends, lies in the interval. -/
def Interval.holds (range : Interval) (scale magnitude : Nat) : Bool :=
  if range.closed then
    range.low * scale ≤ magnitude && magnitude ≤ range.high * scale
  else
    range.low * scale < magnitude && magnitude < range.high * scale

/-- A point of the grid of `10 ^ exponent` that rounds to the magnitude, if
one of its two neighbours there does. -/
def onDecimalGrid (tie : Tie) (units : Nat) (exponent : Int) : Option Nat :=
  let scale := Nat.pow 10 (-exponent).toNat
  let gap := 4 * one * Nat.pow 10 exponent.toNat
  let magnitude := 4 * units * scale
  let floor := magnitude / gap
  let range := interval units
  let below := range.holds scale (floor * gap)
  let above := range.holds scale ((floor + 1) * gap)
  let twice := 2 * (magnitude % gap)
  if below && above then
    if twice < gap then some floor
    else if gap < twice then some (floor + 1)
    else
      match tie with
      | .even => some (floor + floor % 2)
      | .up => some (floor + 1)
  else if below then some floor
  else if above then some (floor + 1)
  else none

/-- The exponents of the decimal grids to look at, the coarsest first.  The
first is not below the leading digit, because a binary digit is worth a little
less than 0.30103 decimal ones, and the last is below the seventeenth digit. -/
def decimalExponents (units : Nat) : List Int :=
  let top := ((units.log2 : Int) - 1074) * 30103 / 100000 + 1
  (List.range 24).map fun (step : Nat) => top - (step : Int)

def shortest (tie : Tie) (units : Nat) : Decimal :=
  if units = 0 then ⟨0, 0⟩
  else
    ((decimalExponents units).findSome? fun exponent =>
      (onDecimalGrid tie units exponent).map (⟨·, exponent⟩)).getD ⟨0, 0⟩

end Binary64

/-! ## Layout of decimals

How the digits of a decimal are set out as text: positionally, with zeros
filling the places up to the point, or scientifically, with one digit before
the point and a signed exponent.
-/

/-- The choices a text format makes for finite numbers. -/
structure Layout where
  /-- The neighbour that a tie between two shortest decimals goes to. -/
  tie : Tie
  /-- Whether a leading digit of this exponent is written positionally. -/
  positional : Int → Bool
  /-- Whether a whole number in positional form ends in a point and a zero. -/
  pointed : Bool

namespace Decimal

def zeros (count : Nat) : List Char :=
  List.replicate count '0'

def leading (x : Decimal) : Int :=
  (Nat.toDigits 10 x.digits).length - 1 + x.exponent

/-- The digits with zeros filled in and a point at its place. -/
def positional (pointed : Bool) (x : Decimal) : List Char :=
  let digits := Nat.toDigits 10 x.digits
  let places := (-x.exponent).toNat
  if places = 0 then
    digits ++ zeros x.exponent.toNat ++ if pointed then ['.', '0'] else []
  else
    let padded := zeros (places + 1 - digits.length) ++ digits
    let whole := padded.length - places
    padded.take whole ++ '.' :: padded.drop whole

/-- One digit, the others after a point, and the exponent with its sign. -/
def scientific (x : Decimal) : List Char :=
  let exponent := x.leading
  let mantissa :=
    match Nat.toDigits 10 x.digits with
    | first :: second :: rest => first :: '.' :: second :: rest
    | digits => digits
  let sign := if exponent < 0 then '-' else '+'
  mantissa ++ 'e' :: sign :: Nat.toDigits 10 exponent.natAbs

end Decimal

def Binary64.write (layout : Layout) (x : Binary64) : List Char :=
  let decimal := Binary64.shortest layout.tie x.units
  let magnitude :=
    if layout.positional decimal.leading then decimal.positional layout.pointed
    else decimal.scientific
  if x.negative then '-' :: magnitude else magnitude

end JsonbAlgebra
