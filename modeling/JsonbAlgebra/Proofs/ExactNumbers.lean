import JsonbAlgebra.Document.Basic
import Mathlib.Algebra.Order.Field.Rat

/-!
# Exact values of numbers

A number stands for a rational number: a whole number for itself and a binary64 number
for its units.  Rounding takes a whole number to the nearest binary64 number and is the
identity on the others.  A number is representable if rounding keeps its value, and
whole numbers up to `2 ^ 53` are.

Equality by value compares two signed words as they are and any other two numbers after
rounding.  Numbers of the same value are equal, and for representable numbers the
converse holds, but two numbers of different values may be rounded to the same.
-/

namespace JsonbAlgebra

namespace Binary64

/-- One and the limit in units, as powers of two. -/
theorem exists_places : ∃ places, one = 2 ^ places ∧ limit = 2 ^ (places + 1024) := by
  have hlimit : 2098 = 1074 + 1024 := rfl
  unfold one limit
  rw [hlimit]
  generalize 1074 = places
  exact ⟨places, rfl, rfl⟩

theorem one_pos : 0 < one := by
  obtain ⟨places, hone, -⟩ := exists_places
  rw [hone]
  exact Nat.two_pow_pos places

/-- The rational number that a binary64 number stands for. -/
def exact (x : Binary64) : ℚ :=
  x.value / one

theorem exact_eq_intCast {x : Binary64} {n : Int} : x.exact = n ↔ x.value = n * one := by
  have hone : ((one : Int) : ℚ) ≠ 0 := by exact_mod_cast one_pos.ne'
  rw [exact, ← Int.cast_natCast one, div_eq_iff hone]
  exact_mod_cast Iff.rfl

theorem exact_inj {x y : Binary64} : x.exact = y.exact ↔ x.value = y.value := by
  have hone : (one : ℚ) ≠ 0 := by exact_mod_cast one_pos.ne'
  rw [exact, exact, div_left_inj' hone, Rat.intCast_inj]

theorem natAbs_value (x : Binary64) : x.value.natAbs = x.units := by
  unfold value
  split
  · rw [Int.natAbs_neg, Int.natAbs_natCast]
  · exact Int.natAbs_natCast _

theorem roundHalfEven_mul {denominator : Nat} (hpos : 0 < denominator) (quotient : Nat) :
    roundHalfEven (denominator * quotient) denominator = quotient := by
  simp [roundHalfEven, hpos]

/-- A magnitude on the grid is the nearest to itself. -/
theorem nearest_of_onGrid {units : Nat} (h : OnGrid units) : nearest units 1 = units := by
  obtain ⟨quotient, hquotient⟩ := h.2
  have hpos : 0 < Nat.pow 2 (spacing units) := Nat.two_pow_pos _
  have hround : roundHalfEven units (Nat.pow 2 (spacing units)) = quotient := by
    calc roundHalfEven units (Nat.pow 2 (spacing units))
        = roundHalfEven (Nat.pow 2 (spacing units) * quotient) (Nat.pow 2 (spacing units)) := by
          rw [← hquotient]
      _ = quotient := roundHalfEven_mul hpos quotient
  unfold nearest
  simp only [Nat.div_one, Nat.one_mul]
  rw [hround, Nat.mul_comm, ← hquotient]

/-- Whole numbers of up to 53 binary digits are on the grid, and so is the next one. -/
theorem onGrid_mul_one {n : Nat} (h : n ≤ 2 ^ 53) : OnGrid (n * one) := by
  obtain ⟨places, hone, hlimit⟩ := exists_places
  rw [OnGrid, hone, hlimit]
  rcases h.eq_or_lt with rfl | hlt
  · have hspacing : spacing (2 ^ (53 + places)) ≤ 53 + places := by
      rw [spacing, Nat.log2_two_pow]
      omega
    rw [← Nat.pow_add]
    exact ⟨Nat.pow_lt_pow_right (by decide) (by omega), Nat.pow_dvd_pow 2 hspacing⟩
  · have hunits : n * 2 ^ places < 2 ^ (53 + places) := by
      rw [Nat.pow_add]
      exact Nat.mul_lt_mul_of_pos_right hlt (Nat.two_pow_pos places)
    have hspacing : spacing (n * 2 ^ places) ≤ places := by
      unfold spacing
      by_cases hzero : n * 2 ^ places = 0
      · simp [hzero]
      · have hlog := (Nat.log2_lt hzero).2 hunits
        omega
    have hstep : 2 ^ spacing (n * 2 ^ places) ∣ 2 ^ places := Nat.pow_dvd_pow 2 hspacing
    exact ⟨hunits.trans (Nat.pow_lt_pow_right (by decide) (by omega)),
      hstep.trans (Nat.dvd_mul_left _ n)⟩

end Binary64

namespace Numeric

theorem same_comm (x y : Numeric) : x.same y = y.same x := by
  cases x <;> cases y <;> simp [same, Binary64.same, BEq.comm]

theorem same_trans {x y z : Numeric} (hxy : x.same y = true) (hyz : y.same z = true) :
    x.same z = true := by
  cases x <;> cases y <;> cases z <;> simp_all [same, Binary64.same]

theorem same_self {x : Numeric} (h : x ≠ .nan) : x.same x = true := by
  cases x with
  | nan => exact absurd rfl h
  | _ => simp [same, Binary64.same]

theorem ofInt_ne_nan (n : Int) : ofInt n ≠ .nan := by
  unfold ofInt ofRatio ofUnits
  split <;> exact nofun

/-- A whole number on the grid is rounded to itself. -/
theorem ofInt_of_onGrid {n : Int} (h : Binary64.OnGrid (n.natAbs * Binary64.one)) :
    ∃ x, ofInt n = .finite x ∧ x.value = n * Binary64.one := by
  refine ⟨⟨n < 0, n.natAbs * Binary64.one, h⟩, ?_, ?_⟩
  · unfold ofInt ofRatio
    rw [Binary64.nearest_of_onGrid h, ofUnits, dif_pos h]
  · unfold Binary64.value
    by_cases hnegative : n < 0
    · rw [if_pos (decide_eq_true hnegative), Int.natCast_mul,
        Int.ofNat_natAbs_of_nonpos hnegative.le, Int.neg_mul, Int.neg_neg]
    · rw [if_neg (by simpa using hnegative), Int.natCast_mul,
        Int.natAbs_of_nonneg (Int.not_lt.1 hnegative)]

end Numeric

namespace Number

/-- The rational number that a number stands for. -/
def exact : Number → ℚ
  | .whole value _ => value
  | .real value => value.exact

/-- Two numbers of the same value, however they are held. -/
def SameValue (x y : Number) : Prop :=
  x.exact = y.exact

/-- Two numbers that are the same once they are rounded to binary64. -/
def SameRounded (x y : Number) : Prop :=
  x.toNumeric.same y.toNumeric = true

/-- If the numbers are signed words, they are the same word. -/
def WordsAgree (x y : Number) : Prop :=
  ∀ a b, x.word? = some a → y.word? = some b → a = b

/-- Rounding to binary64 keeps the value. -/
def Representable (x : Number) : Prop :=
  ∃ y, x.toNumeric = .finite y ∧ y.exact = x.exact

/-! ## Rounding -/

theorem toNumeric_ne_nan (x : Number) : x.toNumeric ≠ .nan := by
  cases x with
  | whole value _ => exact Numeric.ofInt_ne_nan value
  | real value => exact nofun

theorem SameRounded.refl (x : Number) : x.SameRounded x :=
  Numeric.same_self x.toNumeric_ne_nan

theorem SameRounded.symm {x y : Number} (h : x.SameRounded y) : y.SameRounded x :=
  (Numeric.same_comm _ _).trans h

theorem SameRounded.trans {x y z : Number} (hxy : x.SameRounded y) (hyz : y.SameRounded z) :
    x.SameRounded z :=
  Numeric.same_trans hxy hyz

theorem representable_real (value : Binary64) : (real value).Representable :=
  ⟨value, rfl, rfl⟩

theorem representable_whole_of_onGrid {n : Int} (hwhole : IsWhole n)
    (h : Binary64.OnGrid (n.natAbs * Binary64.one)) : (whole n hwhole).Representable := by
  obtain ⟨x, hx, hvalue⟩ := Numeric.ofInt_of_onGrid h
  exact ⟨x, hx, Binary64.exact_eq_intCast.2 hvalue⟩

/-- Rounding keeps whole numbers up to `2 ^ 53`. -/
theorem representable_whole {n : Int} (hwhole : IsWhole n) (h : n.natAbs ≤ 2 ^ 53) :
    (whole n hwhole).Representable :=
  representable_whole_of_onGrid hwhole (Binary64.onGrid_mul_one h)

/-- Of two numbers of the same value, one may be held as it is only if the other may. -/
theorem SameValue.representable_whole {n : Int} {hwhole : IsWhole n} {x : Binary64}
    (h : (whole n hwhole).SameValue (real x)) : (whole n hwhole).Representable := by
  have hvalue : x.value = n * Binary64.one := Binary64.exact_eq_intCast.1 (Eq.symm h)
  have hunits : n.natAbs * Binary64.one = x.units := by
    rw [← x.natAbs_value, hvalue, Int.natAbs_mul, Int.natAbs_natCast]
  exact representable_whole_of_onGrid hwhole (hunits ▸ x.onGrid)

/-- Representable numbers are rounded to the same only if their values are the same. -/
theorem sameRounded_iff {x y : Number} (hx : x.Representable) (hy : y.Representable) :
    x.SameRounded y ↔ x.SameValue y := by
  obtain ⟨a, ha, haexact⟩ := hx
  obtain ⟨b, hb, hbexact⟩ := hy
  rw [SameRounded, SameValue, ha, hb, ← haexact, ← hbexact, Binary64.exact_inj]
  exact Binary64.same_iff

theorem SameValue.sameRounded {x y : Number} (h : x.SameValue y) : x.SameRounded y := by
  cases x with
  | whole n hn =>
      cases y with
      | whole m hm =>
          obtain rfl : n = m := Rat.intCast_inj.1 h
          exact .refl _
      | real b => exact (sameRounded_iff h.representable_whole (representable_real b)).2 h
  | real a =>
      cases y with
      | whole m hm =>
          exact (sameRounded_iff (representable_real a)
            (SameValue.representable_whole (Eq.symm h))).2 h
      | real b => exact (sameRounded_iff (representable_real a) (representable_real b)).2 h

/-! ## Equality -/

theorem eq_ofWord_of_word? {x : Number} {word : Int64} (h : x.word? = some word) :
    x = ofWord word := by
  cases x with
  | whole value hwhole =>
      have hvalue : word.toInt = value := Text.word?_eq_some_iff.1 h
      subst hvalue
      rfl
  | real value => cases h

theorem equal_iff {x y : Number} : x.equal y = true ↔ x.WordsAgree y ∧ x.SameRounded y := by
  unfold equal
  split
  · rename_i a b ha hb
    have hagree : x.WordsAgree y ↔ a = b := by simp [WordsAgree, ha, hb]
    rw [hagree, beq_iff_eq]
    refine ⟨fun hab => ⟨hab, ?_⟩, And.left⟩
    rw [eq_ofWord_of_word? ha, eq_ofWord_of_word? hb, hab]
    exact .refl _
  · rename_i hwords
    exact ⟨fun h => ⟨fun a b ha hb => absurd hb (hwords a b ha), h⟩, And.right⟩

theorem SameValue.wordsAgree {x y : Number} (h : x.SameValue y) : x.WordsAgree y := by
  intro a b ha hb
  obtain rfl := eq_ofWord_of_word? ha
  obtain rfl := eq_ofWord_of_word? hb
  exact Int64.toInt_inj.1 (Rat.intCast_inj.1 h)

/-- Numbers of the same value are equal. -/
theorem SameValue.equal {x y : Number} (h : x.SameValue y) : x.equal y = true :=
  equal_iff.2 ⟨h.wordsAgree, h.sameRounded⟩

theorem WordsAgree.symm {x y : Number} (h : x.WordsAgree y) : y.WordsAgree x :=
  fun a b ha hb => (h b a hb ha).symm

theorem equal_self (x : Number) : x.equal x = true :=
  SameValue.equal rfl

end Number

end JsonbAlgebra
