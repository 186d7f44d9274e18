/-!
# Text

What the library reads in texts: blank characters, the pieces of dotted names,
and decimal integers.
-/

namespace JsonbAlgebra.Text

/-! ## Blank characters

The characters with the Unicode property `White_Space`, and the removal of
blank margins.  Everything in the library that forgives surrounding blanks
forgives exactly these.
-/

/-- The code points with the property `White_Space`, as closed intervals. -/
def blankRanges : List (Nat × Nat) :=
  [(0x09, 0x0D), (0x20, 0x20), (0x85, 0x85), (0xA0, 0xA0), (0x1680, 0x1680),
    (0x2000, 0x200A), (0x2028, 0x2029), (0x202F, 0x202F), (0x205F, 0x205F),
    (0x3000, 0x3000)]

def isBlank (c : Char) : Bool :=
  blankRanges.any fun (low, high) => low ≤ c.toNat && c.toNat ≤ high

def trim (text : List Char) : List Char :=
  ((text.dropWhile isBlank).reverse.dropWhile isBlank).reverse

/-! ## Dotted names

A dotted name is a list of pieces written with a point between neighbours.
Splitting and joining are inverse to each other: splitting always yields at
least one piece, and no piece it yields holds a point.
-/

/-- The pieces between the points; an empty text is one empty piece. -/
def splitPoints : List Char → List (List Char)
  | [] => [[]]
  | c :: rest =>
    if c = '.' then [] :: splitPoints rest
    else
      match splitPoints rest with
      | [] => [[c]]
      | piece :: pieces => (c :: piece) :: pieces

def pieces (name : String) : List String :=
  (splitPoints name.toList).map String.ofList

def dotted (names : List String) : String :=
  ".".intercalate names

def hasPoint (name : String) : Bool :=
  name.toList.contains '.'

theorem splitPoints_ne_nil (text : List Char) : splitPoints text ≠ [] := by
  cases text with
  | nil => simp [splitPoints]
  | cons c rest =>
    rw [splitPoints]
    split
    · simp
    · split <;> simp

theorem not_mem_of_mem_splitPoints {text piece : List Char}
    (h : piece ∈ splitPoints text) : '.' ∉ piece := by
  induction text generalizing piece with
  | nil => simp_all [splitPoints]
  | cons c rest ih =>
    rw [splitPoints] at h
    split at h
    · rcases List.mem_cons.1 h with h | h
      · simp [h]
      · exact ih h
    · rename_i hc
      have hc' : ¬ ('.' = c) := fun e => hc e.symm
      split at h
      · simp_all
      · rename_i first others heq
        rcases List.mem_cons.1 h with h | h
        · have := ih (heq ▸ List.mem_cons_self)
          simp [h, hc', this]
        · exact ih (heq ▸ List.mem_cons_of_mem _ h)

/-! ## Decimal integers

Digits are ASCII digits, the most significant first.  The readers refuse an
empty run of digits and anything that is not a digit; what range of values
is acceptable is for the caller to say.
-/

def digitValue (c : Char) : Nat :=
  c.toNat - '0'.toNat

/-- The number a run of decimal digits stands for. -/
def naturalOfDigits (digits : List Char) : Nat :=
  digits.foldl (fun value c => 10 * value + digitValue c) 0

/-- A nonempty run of decimal digits and nothing else. -/
def readNatural (text : List Char) : Option Nat :=
  if text ≠ [] ∧ text.all Char.isDigit then some (naturalOfDigits text) else none

/-- A sign in front of a text, if there is one: whether it is a minus, and
what follows it. -/
def readSign : List Char → Bool × List Char
  | '-' :: rest => (true, rest)
  | '+' :: rest => (false, rest)
  | text => (false, text)

/-- An optional sign and a nonempty run of decimal digits. -/
def readInteger (text : List Char) : Option Int :=
  let (negative, digits) := readSign text
  (readNatural digits).map fun value => if negative then -value else value

def FitsWord (value : Int) : Prop :=
  -0x8000000000000000 ≤ value ∧ value < 0x8000000000000000

instance (value : Int) : Decidable (FitsWord value) :=
  inferInstanceAs (Decidable (_ ∧ _))

def word? (value : Int) : Option Int64 :=
  if FitsWord value then some (Int64.ofInt value) else none

/-- A decimal integer that a signed 64-bit word holds. -/
def readWord (text : List Char) : Option Int64 :=
  (readInteger text).bind word?

theorem fitsWord_toInt (value : Int64) : FitsWord value.toInt :=
  ⟨value.le_toInt, value.toInt_lt⟩

theorem word?_eq_some_iff {value : Int} {word : Int64} :
    word? value = some word ↔ word.toInt = value := by
  unfold word?
  constructor
  · intro h
    split at h
    · rename_i hfits
      simp only [Option.some.injEq] at h
      rw [← h]
      exact Int64.toInt_ofInt_of_le hfits.1 hfits.2
    · contradiction
  · rintro rfl
    simp [fitsWord_toInt]

def FitsHalfWord (value : Int) : Prop :=
  -0x80000000 ≤ value ∧ value < 0x80000000

instance (value : Int) : Decidable (FitsHalfWord value) :=
  inferInstanceAs (Decidable (_ ∧ _))

end JsonbAlgebra.Text
