import JsonbAlgebra.Dialect

/-!
# The phrases of the PostgreSQL dialect

The PostgreSQL templates write an operation as one of six phrases: a call, a
chain of operands with a word between neighbours, a cast, a test for null, a
negation or a choice.  The pieces of every template are those of a phrase, and
this is all that is to be known of the patterns; what holds of phrases is
shown without looking at them again.
-/

namespace JsonbAlgebra

/-- How an operation is written around its operands. -/
inductive Phrase where
  /-- As in `name(a, b)`. -/
  | call (name : String)
  /-- As in `(a word b word c)`. -/
  | chain (word : String)
  /-- As in `(a)::type`. -/
  | cast (type : String)
  /-- As in `(a IS state)`. -/
  | test (state : String)
  | negation
  | choice
  deriving DecidableEq

namespace Phrase

def opening : Phrase → String
  | .call name => name ++ "("
  | .negation => "(NOT "
  | .choice => "(CASE WHEN "
  | .chain _ | .cast _ | .test _ => "("

/-- What stands between the operand at an index and the next one. -/
def link : Phrase → Nat → String
  | .chain word, _ => " " ++ word ++ " "
  | .choice, 0 => " THEN "
  | .choice, _ => " ELSE "
  | _, _ => ", "

def closing : Phrase → String
  | .cast type => ")::" ++ type
  | .test state => " IS " ++ state ++ ")"
  | .choice => " END)"
  | .call _ | .chain _ | .negation => ")"

/-- The numbers of operands that a phrase has room for. -/
def Takes : Phrase → Nat → Prop
  | .call _, count => 1 ≤ count
  | .chain _, count => 2 ≤ count
  | .cast _, count | .test _, count | .negation, count => count = 1
  | .choice, count => count = 3

theorem Takes.pos {phrase : Phrase} {count : Nat} (h : phrase.Takes count) : 0 < count := by
  cases phrase <;> simp only [Takes] at h <;> omega

/-- The pieces of a template from behind the operand at an index on. -/
def laterPieces (phrase : Phrase) : Nat → Nat → List Template.Piece
  | _, 0 => [.text phrase.closing]
  | index, count + 1 =>
    .text (phrase.link index) :: .operand (index + 1) :: phrase.laterPieces (index + 1) count

/-- The pieces of a template for a given number of operands, or for any. -/
def pieces (phrase : Phrase) : Option Nat → List Template.Piece
  | some count => .text phrase.opening :: .operand 0 :: phrase.laterPieces 0 (count - 1)
  | none => [.text phrase.opening, .allOperands, .text phrase.closing]

end Phrase

namespace Dialect

/-- The phrase of each operator, with a word of its own for paths where there
is one. -/
def postgresPhrase : Operator → Bool → Phrase
  | .get, false => .chain "->"
  | .get, true => .chain "#>"
  | .getText, false => .chain "->>"
  | .getText, true => .chain "#>>"
  | .contains, _ => .chain "@>"
  | .containsKey, _ => .chain "?"
  | .concat, _ => .chain "||"
  | .size, _ => .call "jsonb_array_length"
  | .keys, _ => .call "jsonb_object_keys"
  | .elements, _ => .call "jsonb_array_elements"
  | .typeOf, _ => .call "jsonb_typeof"
  | .buildObject, _ => .call "jsonb_build_object"
  | .set, _ => .call "jsonb_set"
  | .deleteKey, _ | .deleteIndex, _ => .chain "-"
  | .deletePath, _ => .chain "#-"
  | .castText, _ => .cast "text"
  | .castInteger, _ => .cast "integer"
  | .castBigint, _ => .cast "bigint"
  | .castNumeric, _ => .cast "numeric"
  | .castBoolean, _ => .cast "boolean"
  | .eq, _ => .chain "="
  | .ne, _ => .chain "<>"
  | .and, _ => .chain "AND"
  | .or, _ => .chain "OR"
  | .not, _ => .negation
  | .isNull, _ => .test "NULL"
  | .isNotNull, _ => .test "NOT NULL"
  | .inList, _ => .chain "IN"
  | .coalesce, _ => .call "coalesce"
  | .caseWhen, _ => .choice

/-- Concrete patterns are read through their characters, which is much faster
than to decode the text of each. -/
theorem parse_ofList (pattern : List Char) :
    Template.parse (String.ofList pattern) =
      (Template.outside [] pattern).mapError
        (Template.PatternFault.inPattern (String.ofList pattern)) := by
  rw [Template.parse, String.toList_ofList]

theorem postgresTemplate_pieces (operator : Operator) (path : Bool) :
    (postgresTemplate operator).pieces path =
      .ok ((postgresPhrase operator path).pieces operator.contract.most) := by
  cases operator <;> cases path <;>
    simp only [postgresPhrase, Phrase.pieces, Phrase.opening, Phrase.closing, Phrase.laterPieces,
      Phrase.link, Operator.contract, Contract.exact, List.length_cons, List.length_nil,
      String.reduceAppend] <;>
    exact (parse_ofList _).trans rfl

theorem postgresPhrase_takes {operator : Operator} {count : Nat} (path : Bool)
    (hadmits : operator.contract.admits count = true) :
    (postgresPhrase operator path).Takes count := by
  rw [Contract.admits, Bool.and_eq_true, decide_eq_true_iff] at hadmits
  have hmost : ∀ most, operator.contract.most = some most → count ≤ most := by
    intro most hmost
    rw [hmost, Option.all_some, decide_eq_true_iff] at hadmits
    exact hadmits.2
  have hleast := hadmits.1
  cases operator <;> cases path <;>
    simp only [postgresPhrase, Phrase.Takes, Operator.contract, Contract.exact, List.length_cons,
      List.length_nil, Option.some.injEq, forall_eq', reduceCtorEq] at hleast hmost ⊢ <;>
    omega

theorem postgresPhrase_link_of_variadic {operator : Operator} (hmost : operator.contract.most = none)
    (path : Bool) (index : Nat) :
    (postgresPhrase operator path).link index = (postgresTemplate operator).separator := by
  cases operator <;> cases hmost <;> rfl

end Dialect

end JsonbAlgebra
