import JsonbAlgebra.Text

/-!
# Reading text back

Dotted names and decimal integers are read back as what was written.
-/

namespace JsonbAlgebra.Text

/-! ## Dotted names

A name is the join of its pieces, and names without points that are joined are
the pieces of the result.  Splitting is that of lists at a point, so both follow
from what the library knows of lists.
-/

theorem splitPoints_eq_splitOn (text : List Char) : splitPoints text = text.splitOn '.' := by
  induction text with
  | nil => rfl
  | cons c text ih =>
      have hstep : (c :: text).splitOn '.' =
          if c == '.' then [] :: text.splitOn '.' else (text.splitOn '.').modifyHead (c :: ·) :=
        List.splitOnP_cons_eq_if_modifyHead c text
      rw [hstep, ← ih, splitPoints]
      by_cases hc : c = '.'
      · simp [hc]
      · cases hsplit : splitPoints text with
        | nil => exact absurd hsplit (splitPoints_ne_nil text)
        | cons piece pieces => simp [hc]

theorem pieces_ne_nil (name : String) : pieces name ≠ [] := by
  simp [pieces, splitPoints_ne_nil]

theorem hasPoint_eq_false {name : String} : hasPoint name = false ↔ '.' ∉ name.toList := by
  simp [hasPoint]

theorem toList_dotted (names : List String) :
    (dotted names).toList = ['.'].intercalate (names.map String.toList) :=
  String.toList_intercalate

theorem dotted_pieces (name : String) : dotted (pieces name) = name := by
  rw [← String.toList_inj, toList_dotted, pieces, List.map_map]
  have hchars : String.toList ∘ String.ofList = id := funext fun _ => String.toList_ofList
  rw [hchars, List.map_id, splitPoints_eq_splitOn, List.intercalate_splitOn]

theorem pieces_inj {name other : String} : pieces name = pieces other ↔ name = other := by
  constructor
  · intro h
    rw [← dotted_pieces name, h, dotted_pieces]
  · exact congrArg pieces

theorem pieces_dotted {names : List String} (hne : names ≠ [])
    (hpoint : ∀ name ∈ names, hasPoint name = false) : pieces (dotted names) = names := by
  have hnone : ∀ text ∈ names.map String.toList, '.' ∉ text := by
    simpa using fun name hmem => hasPoint_eq_false.1 (hpoint name hmem)
  have hchars : String.ofList ∘ String.toList = id := funext fun _ => String.ofList_toList
  rw [pieces, toList_dotted, splitPoints_eq_splitOn,
    List.splitOn_intercalate '.' hnone (by simpa using hne), List.map_map, hchars, List.map_id]

theorem hasPoint_of_mem_pieces {name piece : String} (h : piece ∈ pieces name) :
    hasPoint piece = false := by
  obtain ⟨text, htext, rfl⟩ := List.mem_map.1 h
  rw [hasPoint_eq_false, String.toList_ofList]
  exact not_mem_of_mem_splitPoints htext

theorem pieces_of_not_hasPoint {name : String} (h : hasPoint name = false) :
    pieces name = [name] := by
  have hjoined : dotted [name] = name := String.intercalate_singleton
  have hpieces := pieces_dotted (List.cons_ne_nil name []) (by simpa using h)
  rwa [hjoined] at hpieces

/-! ## Decimal integers

An integer in its decimal form is read as itself: a natural number as a run of
digits, and any integer with a minus in front if it is negative.  The form is a
single piece of a dotted name.
-/

theorem isDigit_of_mem_toDigits {n : Nat} {c : Char} (h : c ∈ Nat.toDigits 10 n) :
    c.isDigit = true :=
  Nat.isDigit_of_mem_toDigits (by omega) (by omega) h

theorem readNatural_toDigits (n : Nat) : readNatural (Nat.toDigits 10 n) = some n := by
  have hdigits : (Nat.toDigits 10 n).all Char.isDigit = true := by
    rw [List.all_eq_true]
    exact fun _ hc => isDigit_of_mem_toDigits hc
  have hvalue : naturalOfDigits (Nat.toDigits 10 n) = n := Nat.ofDigitChars_ten_toDigits
  rw [readNatural, if_pos ⟨Nat.toDigits_ne_nil, hdigits⟩, hvalue]

theorem toList_toString (value : Int) :
    (toString value).toList =
      if value < 0 then '-' :: Nat.toDigits 10 value.natAbs else Nat.toDigits 10 value.natAbs := by
  cases value with
  | ofNat n => exact Nat.toList_repr
  | negSucc n =>
      have htext : toString (Int.negSucc n) = "-" ++ Nat.repr (n + 1) := rfl
      rw [htext, String.toList_append, Nat.toList_repr, if_pos (Int.negSucc_lt_zero n)]
      rfl

theorem readSign_of_isDigit {text : List Char} (h : ∀ c ∈ text, c.isDigit = true) :
    readSign text = (false, text) := by
  unfold readSign
  split
  · exact absurd (h '-' List.mem_cons_self) (by decide)
  · exact absurd (h '+' List.mem_cons_self) (by decide)
  · rfl

theorem readInteger_of_readSign {text digits : List Char} {negative : Bool} {n : Nat}
    (hsign : readSign text = (negative, digits)) (hdigits : readNatural digits = some n) :
    readInteger text = some (if negative then -(n : Int) else n) := by
  simp [readInteger, hsign, hdigits]

theorem readInteger_toString (value : Int) : readInteger (toString value).toList = some value := by
  have hdigits := readNatural_toDigits value.natAbs
  rw [toList_toString]
  by_cases hvalue : value < 0
  · have hsame : -(value.natAbs : Int) = value := by omega
    have hsign : readSign ('-' :: Nat.toDigits 10 value.natAbs) =
        (true, Nat.toDigits 10 value.natAbs) := rfl
    rw [if_pos hvalue, readInteger_of_readSign hsign hdigits, if_pos rfl, hsame]
  · have hsame : (value.natAbs : Int) = value := by omega
    have hsign := readSign_of_isDigit fun c (hc : c ∈ Nat.toDigits 10 value.natAbs) =>
      isDigit_of_mem_toDigits hc
    rw [if_neg hvalue, readInteger_of_readSign hsign hdigits, if_neg (by simp), hsame]

theorem readWord_toString (word : Int64) : readWord (toString word.toInt).toList = some word := by
  rw [readWord, readInteger_toString, Option.bind_some, word?_eq_some_iff]

theorem toString_ne_empty (value : Int) : toString value ≠ "" := by
  intro hempty
  have hread := readInteger_toString value
  rw [hempty] at hread
  cases hread

theorem hasPoint_toString (value : Int) : hasPoint (toString value) = false := by
  have hdigits : '.' ∉ Nat.toDigits 10 value.natAbs := fun hmem =>
    absurd (isDigit_of_mem_toDigits hmem) (by decide)
  rw [hasPoint, toList_toString]
  by_cases hvalue : value < 0 <;> simp [hvalue, hdigits]

end JsonbAlgebra.Text
