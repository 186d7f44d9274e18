import Mathlib.Data.String.Basic

/-!
# The order of UTF-8 bytes

The encoding of a code point is longer for greater code points, and the lead byte of a
longer encoding is greater.  Encodings of one length compare like the code points.  So
two texts compare like their bytes.
-/

namespace JsonbAlgebra.Text

/-- The UTF-8 bytes of a text. -/
def bytes (text : String) : List UInt8 :=
  text.toUTF8.data.toList

theorem bytes_eq (text : String) : bytes text = text.toList.flatMap String.utf8EncodeChar := by
  unfold bytes
  conv_lhs => rw [← String.ofList_toList (s := text)]
  rw [String.toUTF8_eq_toByteArray, String.toByteArray_ofList, List.utf8Encode,
    List.data_toByteArray]

/-- One more digit to the base 64 is compared where the digits in front of it agree. -/
theorem digits_lt {x y scale : Nat} (h : x / scale < y / scale) :
    x / (scale * 64) < y / (scale * 64) ∨
      x / (scale * 64) = y / (scale * 64) ∧ x / scale % 64 < y / scale % 64 := by
  rw [← Nat.div_div_eq_div_mul, ← Nat.div_div_eq_div_mul]
  omega

/-- Of two characters the lesser is encoded as lesser bytes, whatever follows them. -/
theorem encoded_append_lt {c d : Char} (h : c < d) (first second : List UInt8) :
    String.utf8EncodeChar c ++ first < String.utf8EncodeChar d ++ second := by
  have hlt : c.val.toNat < d.val.toNat := h
  have hmost : d.val.toNat < 0x110000 := by
    have hvalid := d.valid
    simp only [UInt32.isValidChar, Nat.isValidChar] at hvalid
    omega
  unfold String.utf8EncodeChar
  dsimp only
  generalize c.val.toNat = x at hlt
  generalize d.val.toNat = y at hlt hmost
  have hbyte : ∀ n, (n % 64 + 128) % 2 ^ 8 = n % 64 + 128 := by omega
  have hlead : ∀ n < 0x110000, (n / 262144 % 8 + 240) % 2 ^ 8 = n / 262144 + 240 := by omega
  have hfirst : x / 4096 < y / 4096 → _ := digits_lt
  have hsecond : x / 64 < y / 64 → _ := digits_lt
  have hlast : x / 1 < y / 1 → _ := digits_lt
  simp only [Nat.div_one, hlt, true_implies, Nat.reduceMul] at hfirst hsecond hlast
  split_ifs <;>
    simp only [List.cons_append, List.nil_append, List.cons_lt_cons_iff, UInt8.lt_iff_toNat_lt,
      ← UInt8.toNat_inj, UInt8.toNat_ofNat', hbyte, hlead x (hlt.trans hmost),
      hlead y hmost] <;>
    omega

theorem bytes_lt_of_lt {first second : String} (h : first < second) :
    bytes first < bytes second := by
  rw [String.lt_iff_toList_lt] at h
  rw [bytes_eq, bytes_eq]
  generalize first.toList = cs at h
  generalize second.toList = ds at h
  induction cs generalizing ds with
  | nil =>
      cases ds with
      | nil => exact absurd h (List.lt_irrefl _)
      | cons d ds =>
          rw [List.flatMap_cons, List.flatMap_nil]
          cases hbytes : String.utf8EncodeChar d with
          | nil => exact absurd hbytes String.utf8EncodeChar_ne_nil
          | cons byte bytes => exact List.nil_lt_cons byte _
  | cons c cs ih =>
      cases ds with
      | nil => exact absurd h (List.not_lt_nil _)
      | cons d ds =>
          rw [List.flatMap_cons, List.flatMap_cons]
          rcases List.cons_lt_cons_iff.1 h with hlt | ⟨rfl, hlt⟩
          · exact encoded_append_lt hlt _ _
          · exact List.append_left_lt (ih ds hlt)

theorem bytes_lt_iff {first second : String} : bytes first < bytes second ↔ first < second := by
  refine ⟨fun h => ?_, bytes_lt_of_lt⟩
  rcases lt_trichotomy first second with hlt | rfl | hgt
  · exact hlt
  · exact absurd h (List.lt_irrefl _)
  · exact absurd h (List.lt_asymm (bytes_lt_of_lt hgt))

end JsonbAlgebra.Text
