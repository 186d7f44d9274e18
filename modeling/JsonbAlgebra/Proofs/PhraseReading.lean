import JsonbAlgebra.Proofs.IdentifierReading
import JsonbAlgebra.Proofs.PostgresText

/-!
# Reading phrases back

Which phrase a text is can be seen in two places: before its first operand, by
the name or the keyword at the bracket, and behind it, by the word, the type or
the test that follows.  Neither place can be mistaken for a part of an operand,
because operands start with none of the keywords and are followed by a blank, a
comma or a bracket.
-/

namespace JsonbAlgebra

namespace Phrase

/-- What can follow an operand in a statement. -/
def Stops (rest : List Char) : Prop :=
  ∀ c ∈ rest.head?, c = ' ' ∨ c = ')' ∨ c = ','

/-- How an operand can start. -/
def Starts (text : List Char) : Prop :=
  ∃ c rest, text = c :: rest ∧ (Identifier.isPlain c = true ∨ c = '"' ∨ c = '?' ∨ c = '(')

/-- The words in a phrase end where they seem to end, and no chain is written
like a test. -/
def Proper : Phrase → Prop
  | .call name => name ≠ "" ∧ ∀ c ∈ name.toList, Identifier.isPlain c = true
  | .chain word => word ≠ "IS" ∧ ∀ c ∈ word.toList, (c != ' ') = true
  | .cast type => ∀ c ∈ type.toList, Identifier.isPlain c = true
  | .test state => ∀ c ∈ state.toList, (c != ')') = true
  | .negation | .choice => True

/-- What an opening has before its bracket. -/
def callee : Phrase → List Char
  | .call name => name.toList
  | _ => []

/-- What an opening has after its bracket. -/
def keyword : Phrase → List Char
  | .negation => ['N', 'O', 'T', ' ']
  | .choice => ['C', 'A', 'S', 'E', ' ', 'W', 'H', 'E', 'N', ' ']
  | _ => []

theorem Stops.followsPath {rest : List Char} (h : Stops rest) :
    Identifier.FollowsPath rest := by
  intro c hc
  rcases h c hc with rfl | rfl | rfl <;> decide

theorem Stops.isPlain_eq_false {rest : List Char} (h : Stops rest) :
    ∀ c ∈ rest.head?, Identifier.isPlain c = false :=
  fun c hc => (h.followsPath c hc).1

theorem stops_laterText (phrase : Phrase) (index : Nat) (operands : List (List Char))
    (rest : List Char) : Stops (phrase.laterText index operands ++ rest) := by
  cases operands with
  | nil => cases phrase <;> simp [laterText, closing, Stops]
  | cons operand operands =>
      cases phrase <;> cases index <;> simp [laterText, link, Stops]

theorem toList_opening (phrase : Phrase) :
    phrase.opening.toList = phrase.callee ++ '(' :: phrase.keyword := by
  cases phrase with
  | call name => exact String.toList_append
  | negation | choice | chain | cast | test => exact String.toList_ofList

theorem Proper.isPlain_of_mem_callee {phrase : Phrase} (h : phrase.Proper) :
    ∀ c ∈ phrase.callee, Identifier.isPlain c = true := by
  cases phrase with
  | call name => exact h.2
  | _ => exact fun c hc => absurd hc List.not_mem_nil

/-- No operand starts like a keyword or with a closing bracket. -/
theorem Starts.ne_cons {text rest : List Char} {c : Char} (h : Starts text)
    (hc : c = 'N' ∨ c = 'C' ∨ c = ')') : text ≠ c :: rest := by
  obtain ⟨d, tail, rfl, hd⟩ := h
  intro heq
  obtain rfl := (List.cons.inj heq).1
  rcases hc with rfl | rfl | rfl <;> revert hd <;> decide

theorem keyword_eq (phrase : Phrase) :
    phrase.keyword = [] ∨ phrase.keyword = negation.keyword ∨
      phrase.keyword = choice.keyword := by
  cases phrase with
  | negation => exact .inr (.inl rfl)
  | choice => exact .inr (.inr rfl)
  | call | chain | cast | test => exact .inl rfl

theorem keyword_append_unique {p q : Phrase} {s t : List Char} (hs : Starts s)
    (ht : Starts t) (h : p.keyword ++ s = q.keyword ++ t) :
    p.keyword = q.keyword ∧ s = t := by
  rcases keyword_eq p with hp | hp | hp <;> rcases keyword_eq q with hq | hq | hq <;>
    rw [hp, hq] at h ⊢
  · exact ⟨rfl, h⟩
  · exact absurd h (hs.ne_cons (.inl rfl))
  · exact absurd h (hs.ne_cons (.inr (.inl rfl)))
  · exact absurd h.symm (ht.ne_cons (.inl rfl))
  · exact ⟨rfl, List.append_cancel_left h⟩
  · exact absurd (List.cons.inj h).1 (by decide)
  · exact absurd h.symm (ht.ne_cons (.inr (.inl rfl)))
  · exact absurd (List.cons.inj h).1 (by decide)
  · exact ⟨rfl, List.append_cancel_left h⟩

theorem keyword_eq_nil_of_append {phrase : Phrase} {c : Char} {s t : List Char}
    (hc : c = '?' ∨ c = ')') (h : c :: s = phrase.keyword ++ t) : phrase.keyword = [] := by
  rcases keyword_eq phrase with hkeyword | hkeyword | hkeyword
  · exact hkeyword
  all_goals
    rw [hkeyword] at h
    obtain rfl := (List.cons.inj h).1
    exact absurd hc (by decide)

/-- A plain word before a bracket. -/
theorem word_bracket_unique {word other s t : List Char}
    (hword : ∀ c ∈ word, Identifier.isPlain c = true)
    (hother : ∀ c ∈ other, Identifier.isPlain c = true)
    (h : word ++ '(' :: s = other ++ '(' :: t) : word = other ∧ s = t := by
  obtain ⟨heq, hbracket⟩ := word_append_unique hword hother
    (by rintro c ⟨⟩; decide) (by rintro c ⟨⟩; decide) h
  exact ⟨heq, (List.cons.inj hbracket).2⟩

theorem opening_append_unique {p q : Phrase} (hp : p.Proper) (hq : q.Proper)
    {s t : List Char} (hs : Starts s) (ht : Starts t)
    (h : p.opening.toList ++ s = q.opening.toList ++ t) :
    p.callee = q.callee ∧ p.keyword = q.keyword ∧ s = t := by
  rw [toList_opening, toList_opening, List.append_assoc, List.append_assoc] at h
  obtain ⟨hcallee, hinside⟩ :=
    word_bracket_unique hp.isPlain_of_mem_callee hq.isPlain_of_mem_callee h
  exact ⟨hcallee, keyword_append_unique hs ht hinside⟩

theorem Proper.callee_ne_nil {name : String} (h : (call name).Proper) :
    (call name).callee ≠ [] := by
  intro hnil
  exact h.1 (String.toList_eq_nil_iff.1 hnil)

section Behind

variable {operands : List (List Char)} (rest : List Char)

theorem laterText_chain {word : String} (h : (chain word).Takes (operands.length + 1)) :
    ∃ tail, (chain word).laterText 0 operands ++ rest = ' ' :: (word.toList ++ ' ' :: tail) := by
  cases operands with
  | nil => exact absurd (show 2 ≤ 1 from h) (by decide)
  | cons operand operands =>
      exact ⟨operand ++ ((chain word).laterText 1 operands ++ rest), by simp [laterText, link]⟩

theorem laterText_cast {type : String} (h : (cast type).Takes (operands.length + 1)) :
    (cast type).laterText 0 operands ++ rest = ')' :: ':' :: ':' :: (type.toList ++ rest) := by
  obtain rfl : operands = [] := List.length_eq_zero_iff.1 (Nat.succ.inj h)
  simp [laterText, closing]

theorem laterText_test {state : String} (h : (test state).Takes (operands.length + 1)) :
    (test state).laterText 0 operands ++ rest =
      ' ' :: ("IS".toList ++ ' ' :: (state.toList ++ ')' :: rest)) := by
  obtain rfl : operands = [] := List.length_eq_zero_iff.1 (Nat.succ.inj h)
  simp [laterText, closing]

end Behind

/-- A word between two blanks. -/
theorem between_blanks {word other s t : List Char}
    (hword : ∀ c ∈ word, (c != ' ') = true) (hother : ∀ c ∈ other, (c != ' ') = true)
    (h : ' ' :: (word ++ ' ' :: s) = ' ' :: (other ++ ' ' :: t)) : word = other ∧ s = t := by
  obtain ⟨heq, htail⟩ := word_append_unique hword hother (by rintro c ⟨⟩; rfl)
    (by rintro c ⟨⟩; rfl) (List.cons.inj h).2
  exact ⟨heq, (List.cons.inj htail).2⟩

/-- The text behind the first operand tells the phrases with a bare bracket
apart: by the word up to the second blank, by the type after the colons, or by
what stands up to the closing bracket. -/
theorem eq_of_laterText {p q : Phrase} (hp : p.Proper) (hq : q.Proper)
    (hcallee : p.callee = q.callee) (hkeyword : p.keyword = q.keyword)
    {as bs : List (List Char)} (hpas : p.Takes (as.length + 1)) (hqbs : q.Takes (bs.length + 1))
    {s t : List Char} (hs : Stops s) (ht : Stops t)
    (h : p.laterText 0 as ++ s = q.laterText 0 bs ++ t) : p = q := by
  have his : ∀ c ∈ "IS".toList, (c != ' ') = true := by simp
  cases p <;> cases q
  case negation.negation | choice.choice => rfl
  case call.call name other => rw [String.toList_inj.1 hcallee]
  case chain.chain word other =>
    obtain ⟨tail, htail⟩ := laterText_chain s hpas
    obtain ⟨tail', htail'⟩ := laterText_chain t hqbs
    rw [htail, htail'] at h
    rw [String.toList_inj.1 (between_blanks hp.2 hq.2 h).1]
  case cast.cast type other =>
    rw [laterText_cast s hpas, laterText_cast t hqbs] at h
    simp only [List.cons.injEq, true_and] at h
    rw [String.toList_inj.1
      (word_append_unique hp hq hs.isPlain_eq_false ht.isPlain_eq_false h).1]
  case test.test state other =>
    rw [laterText_test s hpas, laterText_test t hqbs] at h
    have hstate := (between_blanks his his h).2
    rw [String.toList_inj.1 (word_append_unique hp hq (by rintro c ⟨⟩; rfl)
      (by rintro c ⟨⟩; rfl) hstate).1]
  case chain.test word state =>
    obtain ⟨tail, htail⟩ := laterText_chain s hpas
    rw [htail, laterText_test t hqbs] at h
    exact absurd (String.toList_inj.1 (between_blanks hp.2 his h).1) hp.1
  case test.chain state word =>
    obtain ⟨tail, htail⟩ := laterText_chain t hqbs
    rw [laterText_test s hpas, htail] at h
    exact absurd (String.toList_inj.1 (between_blanks his hq.2 h).1).symm hq.1
  case chain.cast word type =>
    obtain ⟨tail, htail⟩ := laterText_chain s hpas
    rw [htail, laterText_cast t hqbs] at h
    exact absurd (List.cons.inj h).1 (by decide)
  case cast.chain type word =>
    obtain ⟨tail, htail⟩ := laterText_chain t hqbs
    rw [laterText_cast s hpas, htail] at h
    exact absurd (List.cons.inj h).1 (by decide)
  case test.cast state type =>
    rw [laterText_test s hpas, laterText_cast t hqbs] at h
    exact absurd (List.cons.inj h).1 (by decide)
  case cast.test type state =>
    rw [laterText_cast s hpas, laterText_test t hqbs] at h
    exact absurd (List.cons.inj h).1 (by decide)
  case call.chain | call.cast | call.test | call.negation | call.choice =>
    exact absurd hcallee hp.callee_ne_nil
  case chain.call | cast.call | test.call | negation.call | choice.call =>
    exact absurd hcallee.symm hq.callee_ne_nil
  all_goals cases hkeyword

/-- No phrase with a bare bracket goes on behind its first operand like a
list of values: neither with a comma nor, unless a cast follows, with the
closing bracket. -/
theorem laterText_ne_list {p : Phrase} (hp : p.Proper) (hcallee : p.callee = [])
    (hkeyword : p.keyword = []) {operands : List (List Char)}
    (htakes : p.Takes (operands.length + 1)) {s : List Char} (hs : Stops s) (t : List Char) :
    p.laterText 0 operands ++ t ≠ ')' :: s ∧ ∀ tail, p.laterText 0 operands ++ t ≠ ',' :: tail := by
  cases p with
  | call name => exact absurd hcallee hp.callee_ne_nil
  | negation | choice => cases hkeyword
  | chain word =>
      obtain ⟨tail, htail⟩ := laterText_chain t htakes
      simp [htail]
  | test state => simp [laterText_test t htakes]
  | cast type =>
      rw [laterText_cast t htakes]
      constructor
      · intro h
        have hcolon := hs ':' (by rw [← (List.cons.inj h).2]; rfl)
        revert hcolon
        decide
      · simp

/-- Phrases for any number of operands have a closing that no link starts
like; the others have a fixed number. -/
theorem Takes.unique {phrase : Phrase} {count other : Nat} (h : phrase.Takes count)
    (hother : phrase.Takes other) :
    count = other ∨ ∀ index s t,
      phrase.closing.toList ++ s ≠ (phrase.link index).toList ++ t := by
  cases phrase with
  | call | chain => exact .inr (by simp [closing, link])
  | cast | test | negation | choice => exact .inl (h.trans hother.symm)

end Phrase

/-! ## The phrases of operators -/

namespace Dialect

theorem postgresPhrase_proper (operator : Operator) (path : Bool) :
    (postgresPhrase operator path).Proper := by
  cases operator <;> cases path <;> simp [postgresPhrase, Phrase.Proper] <;> decide

end Dialect

end JsonbAlgebra
