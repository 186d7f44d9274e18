import JsonbAlgebra.Proofs.ConditionBuilding
import JsonbAlgebra.Proofs.ExactNumbers
import JsonbAlgebra.Proofs.StepwiseNavigation
import JsonbAlgebra.Proofs.TextReading

/-!
# Integer casts

The casts to integer and to bigint are one function, and so are the constants of these
types.  A value that denotes an integer is a word, a whole number of a document, or a
text that holds a numeral among blanks.  As long as a word holds the integer, the cast
is that integer, also where the type integer does not have it.  Behind the words a text
cannot be cast, but a number of a document is rounded to floating point on its way and
becomes the largest word.

Casting what is got from a document gets its text instead, so there a number behind
the words cannot be cast either.
-/

namespace JsonbAlgebra

/-! ## Integers in text -/

namespace Text

/-- A numeral: digits, with or without a sign in front. -/
inductive IsNumeral : List Char → Int → Prop
  | digits {digits : List Char} (hne : digits ≠ []) (hall : ∀ c ∈ digits, c.isDigit = true) :
    IsNumeral digits (naturalOfDigits digits)
  | plus {digits : List Char} (hne : digits ≠ []) (hall : ∀ c ∈ digits, c.isDigit = true) :
    IsNumeral ('+' :: digits) (naturalOfDigits digits)
  | minus {digits : List Char} (hne : digits ≠ []) (hall : ∀ c ∈ digits, c.isDigit = true) :
    IsNumeral ('-' :: digits) (-(naturalOfDigits digits : Int))

/-- A text that holds a numeral and nothing else but blanks around it. -/
def Holds (text : String) (n : Int) : Prop :=
  ∃ left numeral right, text.toList = left ++ numeral ++ right ∧
    (∀ c ∈ left, isBlank c = true) ∧ (∀ c ∈ right, isBlank c = true) ∧ IsNumeral numeral n

theorem isBlank_of_isDigit {c : Char} (h : c.isDigit = true) : isBlank c = false := by
  have hbounds : 48 ≤ c.toNat ∧ c.toNat ≤ 57 := by
    simpa [Char.isDigit, UInt32.le_iff_toNat_le] using h
  simp only [isBlank, blankRanges, List.any_cons, List.any_nil, Bool.or_false,
    Bool.or_eq_false_iff, Bool.and_eq_false_imp, decide_eq_true_eq, decide_eq_false_iff_not]
  omega

theorem readNatural_of_forall {digits : List Char} (hne : digits ≠ [])
    (hall : ∀ c ∈ digits, c.isDigit = true) :
    readNatural digits = some (naturalOfDigits digits) := by
  simp [readNatural, hne, List.all_eq_true.2 hall]

theorem readInteger_of_isNumeral {text : List Char} {n : Int} (h : IsNumeral text n) :
    readInteger text = some n := by
  cases h with
  | digits hne hall =>
      have hsign := readSign_of_isDigit hall
      simpa using readInteger_of_readSign hsign (readNatural_of_forall hne hall)
  | @plus digits hne hall =>
      have hsign : readSign ('+' :: digits) = (false, digits) := rfl
      simpa using readInteger_of_readSign hsign (readNatural_of_forall hne hall)
  | @minus digits hne hall =>
      have hsign : readSign ('-' :: digits) = (true, digits) := rfl
      simpa using readInteger_of_readSign hsign (readNatural_of_forall hne hall)

theorem IsNumeral.ne_nil {text : List Char} {n : Int} (h : IsNumeral text n) : text ≠ [] := by
  cases h with
  | digits hne _ => exact hne
  | plus => simp
  | minus => simp

theorem IsNumeral.isBlank_eq_false {text : List Char} {n : Int} (h : IsNumeral text n) {c : Char}
    (hmem : c ∈ text) : isBlank c = false := by
  cases h with
  | digits _ hall => exact isBlank_of_isDigit (hall c hmem)
  | plus _ hall =>
      rcases List.mem_cons.1 hmem with rfl | hdigit
      · rfl
      · exact isBlank_of_isDigit (hall c hdigit)
  | minus _ hall =>
      rcases List.mem_cons.1 hmem with rfl | hdigit
      · rfl
      · exact isBlank_of_isDigit (hall c hdigit)

theorem dropWhile_isBlank_append {left text : List Char} (hleft : ∀ c ∈ left, isBlank c = true)
    (htext : ∀ c, text.head? = some c → isBlank c = false) :
    (left ++ text).dropWhile isBlank = text := by
  rw [List.dropWhile_append_of_pos hleft]
  cases text with
  | nil => rfl
  | cons c text => simp [htext c rfl]

/-- Trimming removes the blanks around a text without blanks. -/
theorem trim_append {left text right : List Char} (hleft : ∀ c ∈ left, isBlank c = true)
    (hright : ∀ c ∈ right, isBlank c = true) (hne : text ≠ [])
    (htext : ∀ c ∈ text, isBlank c = false) : trim (left ++ text ++ right) = text := by
  have hfirst : (left ++ (text ++ right)).dropWhile isBlank = text ++ right := by
    apply dropWhile_isBlank_append hleft
    intro c hc
    rw [List.head?_append_of_ne_nil _ hne] at hc
    exact htext c (List.mem_of_head? hc)
  have hlast : (right.reverse ++ text.reverse).dropWhile isBlank = text.reverse := by
    apply dropWhile_isBlank_append
    · simpa using hright
    · intro c hc
      exact htext c (by simpa using List.mem_of_head? hc)
  rw [trim, List.append_assoc, hfirst, List.reverse_append, hlast, List.reverse_reverse]

theorem readWord_trim_of_holds {text : String} {n : Int} (h : Holds text n) :
    readWord (trim text.toList) = word? n := by
  obtain ⟨left, numeral, right, htext, hleft, hright, hnumeral⟩ := h
  have htrim : trim text.toList = numeral := by
    rw [htext]
    exact trim_append hleft hright hnumeral.ne_nil fun c hmem => hnumeral.isBlank_eq_false hmem
  rw [htrim, readWord, readInteger_of_isNumeral hnumeral, Option.bind_some]

theorem isNumeral_toString (n : Int) : IsNumeral (toString n).toList n := by
  have hne : Nat.toDigits 10 n.natAbs ≠ [] := Nat.toDigits_ne_nil
  have hall : ∀ c ∈ Nat.toDigits 10 n.natAbs, c.isDigit = true := fun c hc =>
    isDigit_of_mem_toDigits hc
  have hvalue : naturalOfDigits (Nat.toDigits 10 n.natAbs) = n.natAbs :=
    Nat.ofDigitChars_ten_toDigits
  rw [toList_toString]
  by_cases hnegative : n < 0
  · have hn : -(naturalOfDigits (Nat.toDigits 10 n.natAbs) : Int) = n := by omega
    have hnumeral := IsNumeral.minus hne hall
    rw [hn] at hnumeral
    simpa [hnegative] using hnumeral
  · have hn : (naturalOfDigits (Nat.toDigits 10 n.natAbs) : Int) = n := by omega
    have hnumeral := IsNumeral.digits hne hall
    rw [hn] at hnumeral
    simpa [hnegative] using hnumeral

theorem holds_toString (n : Int) : Holds (toString n) n :=
  ⟨[], (toString n).toList, [], by simp, by simp, by simp, isNumeral_toString n⟩

end Text

/-! ## Numbers beyond the words -/

namespace Binary64

/-- Rounding to the grid does not go below the power of two in front. -/
theorem two_pow_log2_le_nearest {units : Nat} (hne : units ≠ 0) :
    2 ^ units.log2 ≤ nearest units 1 := by
  have hstep : nearest units 1 = roundHalfEven units (2 ^ spacing units) * 2 ^ spacing units := by
    simp [nearest]
  have hfloor : units / 2 ^ spacing units ≤ roundHalfEven units (2 ^ spacing units) := by
    unfold roundHalfEven
    dsimp only
    split
    · omega
    · split <;> omega
  have hsplit : 2 ^ units.log2 = 2 ^ (units.log2 - spacing units) * 2 ^ spacing units := by
    rw [← Nat.pow_add]
    congr 1
    unfold spacing
    omega
  have hquotient : 2 ^ (units.log2 - spacing units) ≤ units / 2 ^ spacing units := by
    rw [Nat.le_div_iff_mul_le (Nat.two_pow_pos _), ← hsplit]
    exact Nat.log2_self_le hne
  rw [hstep, hsplit]
  exact Nat.mul_le_mul_right _ (hquotient.trans hfloor)

end Binary64

namespace Numeric

/-- Rounding a quotient to a whole number does not go below a whole number that the
quotient is not below. -/
theorem le_rounded {units one bound : Nat} (hpos : 0 < one) (h : bound * one ≤ units) :
    bound ≤ (2 * units + one) / (2 * one) := by
  rw [Nat.le_div_iff_mul_le (by omega), Nat.mul_left_comm]
  omega

theorem toWord_of_le {x : Binary64} (hnegative : x.negative = false)
    (h : 0x7fffffffffffffff * Binary64.one ≤ x.units) :
    (finite x).toWord = Int64.maxValue := by
  have hrounded := le_rounded Binary64.one_pos h
  simp only [toWord, hnegative, Bool.false_eq_true, if_false, nearestWord]
  generalize (2 * x.units + Binary64.one) / (2 * Binary64.one) = magnitude at hrounded ⊢
  have hcut : max (-0x8000000000000000) (min 0x7fffffffffffffff (magnitude : Int)) =
      0x7fffffffffffffff := by omega
  rw [hcut]
  rfl

/-- Numbers behind the largest word all become the largest word. -/
theorem toWord_ofInt_of_lt {n : Int} (h : 0x7fffffffffffffff < n) :
    (ofInt n).toWord = Int64.maxValue := by
  obtain ⟨places, hone, -⟩ := Binary64.exists_places
  have hpositive : ¬ n < 0 := by omega
  have hmagnitude : 2 ^ 63 ≤ n.natAbs := by omega
  have hunits : 2 ^ (63 + places) ≤ n.natAbs * Binary64.one := by
    rw [hone, Nat.pow_add]
    exact Nat.mul_le_mul_right _ hmagnitude
  have hne : n.natAbs * Binary64.one ≠ 0 := by
    have hpos := Nat.two_pow_pos (63 + places)
    omega
  have hlog : 63 + places ≤ (n.natAbs * Binary64.one).log2 := (Nat.le_log2 hne).2 hunits
  have hnearest : 2 ^ 63 * Binary64.one ≤ Binary64.nearest (n.natAbs * Binary64.one) 1 := by
    rw [hone, ← Nat.pow_add, ← hone]
    exact (Nat.pow_le_pow_right Nat.zero_lt_two hlog).trans (Binary64.two_pow_log2_le_nearest hne)
  unfold ofInt ofRatio ofUnits
  simp only [hpositive, decide_false]
  split
  · apply toWord_of_le rfl
    exact (Nat.mul_le_mul_right _ (by omega)).trans hnearest
  · rfl

end Numeric

/-! ## Casting what denotes an integer -/

/-- Documents that are an integer exactly: whole numbers, and texts that hold one. -/
inductive Document.Denotes : Document → Int → Prop
  | number (n : Int) (hwhole : Number.IsWhole n) : Denotes (.number (.whole n hwhole)) n
  | string {text : String} {n : Int} (h : Text.Holds text n) : Denotes (.string text) n

theorem Document.Denotes.ne_null {document : Document} {n : Int} (h : document.Denotes n) :
    document ≠ .null := by
  cases h <;> simp

namespace Datum

inductive Denotes : Datum → Int → Prop
  | integer (word : Int64) : Denotes (.integer word) word.toInt
  | text {text : String} {n : Int} (h : Text.Holds text n) : Denotes (.text text) n
  | json {document : Document} {n : Int} (h : document.Denotes n) : Denotes (.json document) n

theorem Denotes.isNull {value : Datum} {n : Int} (h : value.Denotes n) :
    value.isNull = false := by
  cases h <;> rfl

/-- A number of a document that is too large for a word. -/
def CutOff (value : Datum) (n : Int) : Prop :=
  (∃ number, value = .json (.number number)) ∧ 0x7fffffffffffffff < n

theorem readAs_readWord {value : Datum} {text : String} {n : Int} (h : Text.Holds text n) :
    readAs .integer value Text.readWord text =
      if Text.FitsWord n then .ok (Int64.ofInt n)
      else .error (.invalidInput .integer value.plainText) := by
  unfold readAs
  rw [Text.readWord_trim_of_holds h, Text.word?]
  by_cases hfits : Text.FitsWord n
  · simp [hfits]
  · simp [hfits, invalidInput]

section Denoting

variable {value : Datum} {n : Int} (h : value.Denotes n)
include h

theorem toWord_of_fitsWord (hfits : Text.FitsWord n) :
    value.toWord = .ok (Int64.ofInt n) := by
  cases h with
  | integer word => simp [toWord]
  | text htext => simp [toWord, readAs_readWord htext, hfits]
  | json hdocument =>
      cases hdocument with
      | number n hwhole => simp [toWord, Number.word?, Text.word?, hfits]
      | string htext => simp [toWord, readAs_readWord htext, hfits]

theorem toWord_of_cutOff (hcut : value.CutOff n) : value.toWord = .ok Int64.maxValue := by
  obtain ⟨⟨number, rfl⟩, hlarge⟩ := hcut
  cases h with
  | json hdocument =>
      cases hdocument with
      | number n hwhole =>
          have hfits : ¬ Text.FitsWord n := by
            unfold Text.FitsWord
            omega
          simp [toWord, Number.word?, Text.word?, hfits, Number.toNumeric,
            Numeric.toWord_ofInt_of_lt hlarge]

theorem toWord_of_beyond (hfits : ¬ Text.FitsWord n) (hcut : ¬ value.CutOff n) :
    value.toWord = .error (.invalidInput .integer value.plainText) := by
  cases h with
  | integer word => exact absurd (Text.fitsWord_toInt word) hfits
  | text htext => simp [toWord, readAs_readWord htext, hfits]
  | json hdocument =>
      cases hdocument with
      | number n hwhole =>
          have hlarge : 0x7fffffffffffffff < n := by
            unfold Text.FitsWord at hfits
            unfold Number.IsWhole at hwhole
            omega
          exact absurd ⟨⟨_, rfl⟩, hlarge⟩ hcut
      | string htext => simp [toWord, readAs_readWord htext, hfits]

end Denoting

/-- What casting a value that denotes an integer comes to: the integer if a word
holds it, the largest word for a number of a document that is too large for a word,
and a failure for a text that is. -/
inductive CastsAs (value : Datum) (n : Int) : Outcome → Prop
  | word (hfits : Text.FitsWord n) : CastsAs value n (.ok (.integer (Int64.ofInt n)))
  | largest (hcut : value.CutOff n) : CastsAs value n (.ok (.integer Int64.maxValue))
  | invalid (hfits : ¬ Text.FitsWord n) (hcut : ¬ value.CutOff n) :
    CastsAs value n (.error (.invalidInput .integer value.plainText))

theorem castsAs_toWord {value : Datum} {n : Int} (h : value.Denotes n) :
    value.CastsAs n (value.toWord.map .integer) := by
  by_cases hfits : Text.FitsWord n
  · rw [toWord_of_fitsWord h hfits]
    exact .word hfits
  · by_cases hcut : value.CutOff n
    · rw [toWord_of_cutOff h hcut]
      exact .largest hcut
    · rw [toWord_of_beyond h hfits hcut]
      exact .invalid hfits hcut

end Datum

/-- An outcome that is an integer, in a range, or else a failure. -/
def Outcome.Keeps (outcome : Outcome) (range : Int → Prop) (n : Int) : Prop :=
  (∃ word : Int64, outcome = .ok (.integer word) ∧ word.toInt = n ∧ range n) ∨
    ∃ fault, outcome = .error fault

namespace Datum

/-- Casting keeps an integer if it is in range, and if it is a text that no word holds. -/
theorem CastsAs.keeps_iff {value : Datum} {n : Int} {outcome : Outcome}
    (h : value.CastsAs n outcome) {range : Int → Prop} (hrange : range n → Text.FitsWord n) :
    outcome.Keeps range n ↔ range n ∨ ¬ Text.FitsWord n ∧ ¬ value.CutOff n := by
  unfold Outcome.Keeps
  cases h with
  | word hfits =>
      have hword : (Int64.ofInt n).toInt = n := Int64.toInt_ofInt_of_le hfits.1 hfits.2
      simp [hfits, hword]
  | largest hcut =>
      have hnot : ¬ range n := by
        intro hn
        have hupper := (hrange hn).2
        have hlarge := hcut.2
        omega
      simp [hnot, hcut]
  | invalid hfits hcut => simp [hfits, hcut]

end Datum

/-! ## The two casts -/

namespace Operator

/-- The casts to the integer types, with the range that each of the types has. -/
inductive CastsTo : Operator → SqlType → (Int → Prop) → Prop
  | integer : CastsTo .castInteger .integer Text.FitsHalfWord
  | bigint : CastsTo .castBigint .bigint Text.FitsWord

section Casting

variable {operator : Operator} {type : SqlType} {range : Int → Prop}
  (h : CastsTo operator type range)
include h

theorem CastsTo.fitsWord {n : Int} (hrange : range n) : Text.FitsWord n := by
  cases h with
  | integer =>
      unfold Text.FitsHalfWord at hrange
      unfold Text.FitsWord
      omega
  | bigint => exact hrange

theorem CastsTo.evaluate {value : Datum} (hnull : value.isNull = false) (operands : List Expr) :
    operator.evaluate operands [.ok value] = value.toWord.map .integer := by
  cases h with
  | integer => simp [Operator.evaluate, Outcome.collect, strict, hnull, bind, Except.bind, pure,
      Except.pure]
  | bigint => simp [Operator.evaluate, Outcome.collect, strict, hnull, bind, Except.bind, pure,
      Except.pure]

theorem CastsTo.ofTyped {document : Document} (hnull : document ≠ .null) :
    Datum.ofTyped type document = (Datum.json document).toWord.map .integer := by
  cases h with
  | integer => cases document <;> first | rfl | exact absurd rfl hnull
  | bigint => cases document <;> first | rfl | exact absurd rfl hnull

theorem CastsTo.apply {operand : Expr} (hempty : operand.isEmptyList = false) :
    Expr.apply operator [operand] = .ok (.operation operator [operand]) := by
  have hfits : operator.contract.admits 1 = true ∧
      operator.contract.slotAt 0 = some (.any "value") := by
    cases h <;> exact ⟨rfl, rfl⟩
  simp [Expr.apply_one_any hfits.1 hfits.2, hempty]

end Casting

end Operator

/-! ## Texts of what is got from a document -/

namespace Operator

/-- What is found does not depend on the operator that asks for it. -/
theorem lookup_alike {operator other : Operator} {subject key : Datum} {found : Option Document}
    (h : lookup operator subject key = .ok found) : lookup other subject key = .ok found := by
  unfold lookup at h ⊢
  cases subject with
  | json document =>
      simp only [Datum.json?, bind, Except.bind] at h ⊢
      cases key <;> cases document <;> simp_all [throw, throwThe, MonadExceptOf.throw]
  | _ => simp [Datum.json?, bind, Except.bind] at h

end Operator

namespace Expr

/-- Operators with the same slots accept the same operands. -/
theorem operandsFault?_of_slotAt {operator other : Operator}
    (hslots : ∀ index, other.contract.slotAt index = operator.contract.slotAt index)
    {operands : List Expr} {start : Nat} (h : operandsFault? operator start operands = none) :
    operandsFault? other start operands = none := by
  induction operands generalizing start with
  | nil => rfl
  | cons operand operands ih =>
      simp only [operandsFault?, operandFault?, hslots] at h ⊢
      cases hslot : (operator.contract.slotAt start).filter fun slot =>
          !slot.accepts operand.tag with
      | some slot => simp [hslot] at h
      | none =>
          cases hempty : operand.isEmptyList with
          | true => simp [hslot, hempty] at h
          | false =>
              simp only [hslot, hempty, Bool.false_eq_true, if_false] at h ⊢
              exact ih h

theorem apply_getText {operands : List Expr} (hwell : (operation .get operands).WellFormed) :
    apply .getText operands = .ok (.operation .getText operands) := by
  have hfault := (wellFormed_operation_iff.1 hwell).1
  have hadmits := (applicationFault?_eq_none hfault).1
  rw [applicationFault?, if_pos hadmits] at hfault
  have htext : Operator.getText.contract.admits operands.length = true := hadmits
  have hslots : ∀ index, Operator.getText.contract.slotAt index =
      Operator.get.contract.slotAt index := fun _ => rfl
  have hnone := operandsFault?_of_slotAt hslots hfault
  simp [apply, applicationFault?, htext, hnone]

theorem evaluate_getText_of_get {row : Row} {operands : List Expr} {document : Document}
    (hwell : (operation .get operands).WellFormed)
    (h : (operation .get operands).evaluate row = .ok (.json document)) :
    (operation .getText operands).evaluate row = .ok (Operator.foundText (some document)) := by
  have hlength := (applicationFault?_eq_none (wellFormed_operation_iff.1 hwell).1).1
  match operands, Operator.admits_iff_of_most rfl |>.1 hlength with
  | [subject, key], _ =>
    rw [evaluate, evaluateAll_eq_map, List.map_cons, List.map_cons, List.map_nil,
      Operator.evaluate_of_isStrict_pair rfl] at h ⊢
    obtain ⟨left, hleft, h⟩ := bind_eq_ok.1 h
    obtain ⟨right, hright, h⟩ := bind_eq_ok.1 h
    rw [hleft, hright]
    cases hnull : (left.isNull || right.isNull) with
    | true => simp [hnull] at h
    | false =>
        simp only [hnull, Bool.false_eq_true, if_false, Operator.strict, map_eq_ok] at h
        obtain ⟨found, hfound, hjson⟩ := h
        cases found with
        | none => simp [Operator.foundJson] at hjson
        | some other =>
            simp only [Operator.foundJson, Datum.json.injEq] at hjson
            subst hjson
            simp [bind, Except.bind, hnull, Operator.strict, Operator.lookup_alike hfound,
              Except.map]

/-- The text of a document that denotes an integer denotes it too. -/
theorem foundText_of_denotes {document : Document} {n : Int} (h : document.Denotes n) :
    ∃ text, Operator.foundText (some document) = .text text ∧ Text.Holds text n := by
  cases h with
  | number n hwhole =>
      have htext : (Document.number (.whole n hwhole)).plainText = toString n :=
        String.ofList_toList
      exact ⟨toString n, by simp [Operator.foundText, htext], Text.holds_toString n⟩
  | @string text n hholds => exact ⟨text, rfl, hholds⟩

/-- The casts to the integer types are the same function.  What it makes of a value
that denotes an integer, and of a constant of the type, is an integer of the type or a
failure if the integer is in the type's range, or else if it is no word and is not a
number of a document.  Casting what is got from a document goes by its text, and
there the last condition holds. -/
theorem integer_cast_keeps_iff {operator : Operator} {type : SqlType} {range : Int → Prop}
    (hcast : operator.CastsTo type range) (row : Row) :
    (∀ (operand : Expr) (value : Datum) (n : Int),
      operand.evaluate row = .ok value → value.Denotes n →
        value.CastsAs n ((operation operator [operand]).evaluate row) ∧
        (((operation operator [operand]).evaluate row).Keeps range n ↔
          range n ∨ ¬ Text.FitsWord n ∧ ¬ value.CutOff n)) ∧
      (∀ (document : Document) (n : Int), document.Denotes n →
        (Datum.json document).CastsAs n ((constant (.typed document type)).evaluate row) ∧
        (((constant (.typed document type)).evaluate row).Keeps range n ↔
          range n ∨ ¬ Text.FitsWord n ∧ ¬ (Datum.json document).CutOff n)) ∧
      ∀ (operands : List Expr) (document : Document) (n : Int),
        (operation .get operands).WellFormed →
        (operation .get operands).evaluate row = .ok (.json document) →
        document.Denotes n →
        ∃ e, castTo operator (operation .get operands) = .ok e ∧
          ((e.evaluate row).Keeps range n ↔ range n ∨ ¬ Text.FitsWord n) := by
  have hoperation : ∀ (operand : Expr) (value : Datum) (n : Int),
      operand.evaluate row = .ok value → value.Denotes n →
        value.CastsAs n ((operation operator [operand]).evaluate row) := by
    intro operand value n hvalue hdenotes
    rw [evaluate, evaluateAll_eq_map, List.map_cons, List.map_nil, hvalue,
      hcast.evaluate hdenotes.isNull]
    exact Datum.castsAs_toWord hdenotes
  refine ⟨?_, ?_, ?_⟩
  · intro operand value n hvalue hdenotes
    have hcasts := hoperation operand value n hvalue hdenotes
    exact ⟨hcasts, hcasts.keeps_iff hcast.fitsWord⟩
  · intro document n hdenotes
    have hconstant : (constant (.typed document type)).evaluate row =
        (Datum.json document).toWord.map .integer := hcast.ofTyped hdenotes.ne_null
    have hcasts := Datum.castsAs_toWord (.json hdenotes)
    rw [← hconstant] at hcasts
    exact ⟨hcasts, hcasts.keeps_iff hcast.fitsWord⟩
  · intro operands document n hwell hvalue hdenotes
    obtain ⟨text, htext, hholds⟩ := foundText_of_denotes hdenotes
    have hsource : (operation .getText operands).evaluate row = .ok (.text text) := by
      rw [evaluate_getText_of_get hwell hvalue, htext]
    have hcasts := hoperation _ _ n hsource (.text hholds)
    have hnotCut : ¬ (Datum.text text).CutOff n := by
      unfold Datum.CutOff
      simp
    have hbuilt : castTo operator (operation .get operands) =
        .ok (operation operator [operation .getText operands]) := by
      simp only [castTo, castSource, asText, apply_getText hwell, bind, Except.bind]
      exact hcast.apply rfl
    exact ⟨_, hbuilt, by simpa [hnotCut] using hcasts.keeps_iff hcast.fitsWord⟩

/-- The number behind the largest word cannot be cast once it is got from a document. -/
theorem integer_cast_keeps_iff_got :
    let large : Document := .number (.whole 9223372036854775808 (by decide))
    let operands : List Expr := [.column ⟨none, ["data"], .jsonb⟩, .constant (.text "n")]
    let row := Row.ofList [("data", .json (.object [("n", large)]))]
    Operator.CastsTo .castBigint .bigint Text.FitsWord ∧
      (operation .get operands).WellFormed ∧
      (operation .get operands).evaluate row = .ok (.json large) ∧
      large.Denotes 9223372036854775808 ∧ ¬ Text.FitsWord 9223372036854775808 ∧
      ∃ e, castTo .castBigint (operation .get operands) = .ok e ∧
        (e.evaluate row).Keeps Text.FitsWord 9223372036854775808 := by
  intro large operands row
  have hwell : (operation .get operands).WellFormed := ⟨rfl, trivial, trivial, trivial⟩
  have hvalue : (operation .get operands).evaluate row = .ok (.json large) := rfl
  have hdenotes : large.Denotes 9223372036854775808 := .number _ _
  have hbeyond : ¬ Text.FitsWord 9223372036854775808 := by decide
  obtain ⟨e, hbuilt, hkeeps⟩ :=
    (integer_cast_keeps_iff .bigint row).2.2 operands large _ hwell hvalue hdenotes
  exact ⟨.bigint, hwell, hvalue, hdenotes, hbeyond, e, hbuilt, hkeeps.2 (.inr hbeyond)⟩

/-- Casting to integer lets an integer of the wider type pass, and casting to bigint
turns the number behind the largest word into the largest word. -/
theorem integer_cast_not_keeps :
    let wide : Document := .ofWord 2147483648
    let large : Document := .number (.whole 9223372036854775808 (by decide))
    let row := Row.ofList []
    (operation .castInteger [constant (.integer 2147483648)]).evaluate row =
        .ok (.integer 2147483648) ∧
      (constant (.typed wide .integer)).evaluate row = .ok (.integer 2147483648) ∧
      ¬ Text.FitsHalfWord 2147483648 ∧
      (operation .castBigint [constant (.jsonb large)]).evaluate row =
        .ok (.integer 9223372036854775807) ∧
      (constant (.typed large .bigint)).evaluate row = .ok (.integer 9223372036854775807) := by
  intro wide large row
  have hlarge : (Datum.json large).toWord = .ok 9223372036854775807 :=
    Datum.toWord_of_cutOff (.json (.number _ _)) ⟨⟨_, rfl⟩, by decide⟩
  have hcast : (constant (.typed large .bigint)).evaluate row =
      (Datum.json large).toWord.map .integer := rfl
  have hoperation : (operation .castBigint [constant (.jsonb large)]).evaluate row =
      (Datum.json large).toWord.map .integer := rfl
  refine ⟨rfl, rfl, by decide, ?_, ?_⟩
  · rw [hoperation, hlarge]
    rfl
  · rw [hcast, hlarge]
    rfl

end Expr

end JsonbAlgebra
