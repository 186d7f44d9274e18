import JsonbAlgebra.Proofs.PhraseReading
import JsonbAlgebra.Proofs.TextReading

/-!
# Reading placeholders back

A reader that knows nothing of expressions can find the numbered placeholders
of a PostgreSQL statement in its text.  It skips what stands between double
quotes, takes words as a whole, and counts a dollar sign with digits as a
placeholder wherever else it meets one.  Names of tables and columns are
arbitrary texts, and a dollar sign in one of them is always inside quotes or
inside a word.

The reader is run over a text together with what follows it.  A text that may
end in a word or in a number needs a follower that breaks both off, which the
phrases of the dialect put between any two operands.
-/

namespace JsonbAlgebra

namespace Placeholder

/-! ## The reader -/

inductive Reading where
  | outside
  | quoted
  | word
  /-- Behind a dollar sign, with the digits read so far. -/
  | mark (digits : List Char)
  deriving DecidableEq, Repr

/-- What a character outside quotes, words and marks begins. -/
def start (letter : Char → Bool) (c : Char) : Reading :=
  if c = '"' then .quoted
  else if letter c || c == '_' then .word
  else if c = '$' then .mark []
  else .outside

def continuesWord (letter : Char → Bool) (c : Char) : Bool :=
  letter c || c.isDigit || c == '_' || c == '$'

def scan (letter : Char → Bool) : Reading → List Char → List Nat
  | .mark digits, [] => (Text.readNatural digits).toList
  | _, [] => []
  | .outside, c :: rest => scan letter (start letter c) rest
  | .quoted, c :: rest => scan letter (if c = '"' then .outside else .quoted) rest
  | .word, c :: rest =>
    scan letter (if continuesWord letter c then .word else start letter c) rest
  | .mark digits, c :: rest =>
    if c.isDigit then scan letter (.mark (digits ++ [c])) rest
    else (Text.readNatural digits).toList ++ scan letter (start letter c) rest

/-- The numbers of the placeholders in a text, from left to right. -/
def numbersIn (letter : Char → Bool) (text : String) : List Nat :=
  scan letter .outside text.toList

/-- A notion of letters that is the usual one among the ASCII characters. -/
def KnowsAscii (letter : Char → Bool) : Prop :=
  ∀ c : Char, c.toNat < 128 → letter c = c.isAlpha

/-- Nothing that could belong to a word or a number comes next. -/
def Breaks (letter : Char → Bool) (rest : List Char) : Prop :=
  ∀ c ∈ rest.head?, continuesWord letter c = false

def IsDelimiter (c : Char) : Prop :=
  c = ' ' ∨ c = '(' ∨ c = ')' ∨ c = ',' ∨ c = '.'

/-- A text without quotes and dollar signs. -/
def Quiet (text : List Char) : Prop :=
  ∀ c ∈ text, c ≠ '"' ∧ c ≠ '$'

section Reader

variable {letter : Char → Bool} {rest : List Char}

theorem Breaks.isDigit_eq_false (h : Breaks letter rest) :
    ∀ c ∈ rest.head?, c.isDigit = false := by
  intro c hc
  have hnone := h c hc
  simp only [continuesWord, Bool.or_eq_false_iff] at hnone
  exact hnone.1.1.2

theorem scan_word_of_breaks (h : Breaks letter rest) :
    scan letter .word rest = scan letter .outside rest := by
  cases rest with
  | nil => rfl
  | cons c rest =>
      have hc : continuesWord letter c = false := h c rfl
      simp [scan, hc]

theorem scan_word_append {word : List Char}
    (hword : ∀ c ∈ word, continuesWord letter c = true) (h : Breaks letter rest) :
    scan letter .word (word ++ rest) = scan letter .outside rest := by
  induction word with
  | nil => exact scan_word_of_breaks h
  | cons c word ih =>
      have hc : continuesWord letter c = true := hword c List.mem_cons_self
      have hrest := ih fun d hd => hword d (List.mem_cons_of_mem c hd)
      simp [scan, hc, hrest]

theorem scan_mark_append (taken : List Char) {digits : List Char}
    (hdigits : ∀ c ∈ digits, c.isDigit = true) (h : Breaks letter rest) :
    scan letter (.mark taken) (digits ++ rest) =
      (Text.readNatural (taken ++ digits)).toList ++ scan letter .outside rest := by
  induction digits generalizing taken with
  | nil =>
      cases rest with
      | nil => simp [scan]
      | cons c rest =>
          have hc : c.isDigit = false := h.isDigit_eq_false c rfl
          simp [scan, hc]
  | cons c digits ih =>
      have hc : c.isDigit = true := hdigits c List.mem_cons_self
      have hrest := ih (taken ++ [c]) fun d hd => hdigits d (List.mem_cons_of_mem c hd)
      simp [scan, hc, hrest]

/-- Between the quotes of a name its doubled quotes leave the quotation and
enter it again at once. -/
theorem scan_quoted_append (name rest : List Char) :
    scan letter .quoted (name.flatMap Identifier.doubled ++ '"' :: rest) =
      scan letter .outside rest := by
  induction name with
  | nil => simp [scan]
  | cons c name ih =>
      by_cases hc : c = '"'
      · simp [Identifier.doubled, hc, scan, start, ih]
      · simp [Identifier.doubled, hc, scan, ih]

/-- Quiet text may begin words but no quotation and no mark. -/
theorem scan_quiet_append {text : List Char} (hquiet : Quiet text)
    (h : Breaks letter rest) {reading : Reading} (hreading : reading = .outside ∨ reading = .word) :
    scan letter reading (text ++ rest) = scan letter .outside rest := by
  induction text generalizing reading with
  | nil =>
      rcases hreading with rfl | rfl
      · rfl
      · exact scan_word_of_breaks h
  | cons c text ih =>
      obtain ⟨hquote, hdollar⟩ := hquiet c List.mem_cons_self
      have hrest : ∀ reading, reading = .outside ∨ reading = .word →
          scan letter reading (text ++ rest) = scan letter .outside rest :=
        fun reading => ih fun d hd => hquiet d (List.mem_cons_of_mem c hd)
      have hstart : start letter c = .outside ∨ start letter c = .word := by
        by_cases hword : (letter c || c == '_') = true <;> simp [start, hquote, hdollar, hword]
      rcases hreading with rfl | rfl
      · exact hrest _ hstart
      · by_cases hword : continuesWord letter c = true
        · simpa [scan, hword] using hrest .word (.inr rfl)
        · simpa [scan, hword] using hrest _ hstart

section Ascii

variable (hletter : KnowsAscii letter)
include hletter

theorem KnowsAscii.delimiter {c : Char} (hc : IsDelimiter c) :
    continuesWord letter c = false ∧ start letter c = .outside := by
  have hascii : letter c = c.isAlpha := by
    apply hletter
    rcases hc with rfl | rfl | rfl | rfl | rfl <;> decide
  rw [continuesWord, start, hascii]
  rcases hc with rfl | rfl | rfl | rfl | rfl <;> decide

theorem KnowsAscii.breaks {c : Char} (hc : IsDelimiter c) (rest : List Char) :
    Breaks letter (c :: rest) := by
  rintro d ⟨⟩
  exact (hletter.delimiter hc).1

theorem KnowsAscii.scan_delimiter {c : Char} (hc : IsDelimiter c) (rest : List Char) :
    scan letter .outside (c :: rest) = scan letter .outside rest := by
  rw [scan, (hletter.delimiter hc).2]

theorem KnowsAscii.isPlainStart {c : Char} (hc : Identifier.isPlainStart c = true) :
    letter c = true ∨ c = '_' := by
  simp only [Identifier.isPlainStart, Bool.or_eq_true, beq_iff_eq] at hc
  refine hc.imp_left fun hlower => ?_
  have hwords : (decide (97 ≤ c.val) && decide (c.val ≤ 122)) = true := hlower
  have hbounds : 97 ≤ c.toNat ∧ c.toNat ≤ 122 := by
    simpa [UInt32.le_iff_toNat_le] using hwords
  have halpha : c.isAlpha = (c.isUpper || c.isLower) := rfl
  rw [hletter c (by omega), halpha, hlower, Bool.or_true]

theorem KnowsAscii.isPlain {c : Char} (hc : Identifier.isPlain c = true) :
    continuesWord letter c = true := by
  simp only [Identifier.isPlain, Bool.or_eq_true, beq_iff_eq] at hc
  rcases hc with (hstart | hdigit) | hdollar
  · rcases hletter.isPlainStart hstart with hc | hc <;> simp [continuesWord, hc]
  · simp [continuesWord, hdigit]
  · simp [continuesWord, hdollar]

theorem KnowsAscii.scan_mark (position : Nat) (h : Breaks letter rest) :
    scan letter .outside ((Placeholder.mark .numbered position).toList ++ rest) =
      position :: scan letter .outside rest := by
  have hdollar : letter '$' = false := hletter '$' (by decide)
  have hstart : start letter '$' = .mark [] := by simp [start, hdollar]
  have hdigits : ∀ c ∈ Nat.toDigits 10 position, c.isDigit = true := fun c hc =>
    Nat.isDigit_of_mem_toDigits (by omega) (by omega) hc
  have hmark := scan_mark_append [] hdigits h
  rw [List.nil_append, Text.readNatural_toDigits] at hmark
  have htext : (Placeholder.mark .numbered position).toList =
      '$' :: Nat.toDigits 10 position := by
    simp [Placeholder.mark]
  rw [htext, List.cons_append, scan, hstart, hmark]
  rfl

theorem KnowsAscii.scan_quoteChars (name : List Char) (h : Breaks letter rest) :
    scan letter .outside (Identifier.quoteChars name ++ rest) = scan letter .outside rest := by
  cases hname : Identifier.isPlainName name with
  | true =>
      rw [Identifier.quoteChars_of_plain hname]
      have hplain := Identifier.isPlain_of_isPlainName hname
      cases name with
      | nil => cases hname
      | cons c name =>
          have hfirst : Identifier.isPlainStart c = true := by
            simp only [Identifier.isPlainName, Bool.and_eq_true] at hname
            exact hname.1
          have hquote := Identifier.ne_quote_of_isPlain (hplain c List.mem_cons_self)
          have hstart : start letter c = .word := by
            rcases hletter.isPlainStart hfirst with hc | hc <;> simp [start, hquote, hc]
          rw [List.cons_append, scan, hstart]
          exact scan_word_append
            (fun d hd => hletter.isPlain (hplain d (List.mem_cons_of_mem c hd))) h
  | false =>
      rw [Identifier.quoteChars_of_not_plain hname, List.cons_append, List.append_assoc]
      have hstart : start letter '"' = .quoted := by simp [start]
      rw [scan, hstart]
      exact scan_quoted_append name rest

theorem KnowsAscii.scan_qualified (names : List String) (h : Breaks letter rest) :
    scan letter .outside ((Identifier.qualified names).toList ++ rest) =
      scan letter .outside rest := by
  induction names with
  | nil => rfl
  | cons name names ih =>
      cases names with
      | nil =>
          rw [Identifier.qualified_singleton]
          exact hletter.scan_quoteChars name.toList h
      | cons next names =>
          have hpoint : IsDelimiter '.' := by simp [IsDelimiter]
          rw [Identifier.qualified_cons_cons, List.append_assoc, List.cons_append,
            hletter.scan_quoteChars name.toList (hletter.breaks hpoint _),
            hletter.scan_delimiter hpoint, ih]

theorem KnowsAscii.scan_delimited {text : List Char} (hquiet : Quiet text) {c : Char}
    (hc : IsDelimiter c) (rest : List Char) :
    scan letter .outside (text ++ c :: rest) = scan letter .outside rest := by
  have hbreaks := hletter.breaks hc rest
  rw [scan_quiet_append hquiet hbreaks (.inl rfl), hletter.scan_delimiter hc]

end Ascii

end Reader

end Placeholder

/-! ## Drafts -/

theorem Template.mem_of_fillPiece_operand {template : Template} {operator : Operator}
    {operands : List Draft} {index : Nat} {draft : Draft}
    (h : template.fillPiece operator operands (.operand index) = .ok draft) :
    draft ∈ operands := by
  rw [fillPiece] at h
  split at h
  · rename_i operand hoperand
    cases h
    exact List.mem_of_getElem? hoperand
  · cases h

namespace Draft

open Placeholder

/-- A reader finds the positions of a draft's marks and nothing else, and goes
on behind the draft as if it began there. -/
def Counted (letter : Char → Bool) (draft : Draft) : Prop :=
  ∀ position rest, Breaks letter rest →
    scan letter .outside ((textFrom .numbered position draft).toList ++ rest) =
      List.range' position (slots draft) ++ scan letter .outside rest

/-- Text that a reader passes over, whatever follows it. -/
def Silent (letter : Char → Bool) (text : String) : Prop :=
  ∀ rest, scan letter .outside (text.toList ++ rest) = scan letter .outside rest

/-- Text that breaks off the draft in front of it. -/
def Separates (text : String) : Prop :=
  ∃ c ∈ text.toList.head?, IsDelimiter c

section Counted

variable {letter : Char → Bool}

theorem Silent.append {first second : String} (hfirst : Silent letter first)
    (hsecond : Silent letter second) : Silent letter (first ++ second) := by
  intro rest
  rw [String.toList_append, List.append_assoc, hfirst, hsecond]

theorem counted_nil : Counted letter [] := by
  intro position rest _
  simp [textFrom]

theorem Counted.cons_silent {text : String} {draft : Draft} (htext : Silent letter text)
    (h : Counted letter draft) : Counted letter (.sql text :: draft) := by
  intro position rest hrest
  rw [textFrom, String.toList_append, List.append_assoc, htext, h position rest hrest,
    slots_sql]

variable (hletter : KnowsAscii letter)
include hletter

theorem silent_of_quiet {text : String} (hquiet : Quiet text.toList)
    (hlast : ∃ c ∈ text.toList.getLast?, IsDelimiter c) : Silent letter text := by
  obtain ⟨c, hlast, hc⟩ := hlast
  obtain ⟨body, htext⟩ := List.getLast?_eq_some_iff.1 hlast
  intro rest
  have hbody : Quiet body := fun d hd => hquiet d (by simp [htext, hd])
  rw [htext, List.append_assoc]
  exact hletter.scan_delimited hbody hc rest

/-- A draft and another that starts with a separating text. -/
theorem Counted.append_separated {first rest : Draft} {text : String}
    (hfirst : Counted letter first) (htext : Separates text)
    (hrest : Counted letter (.sql text :: rest)) :
    Counted letter (first ++ .sql text :: rest) := by
  intro position tail htail
  obtain ⟨c, hhead, hc⟩ := htext
  obtain ⟨body, hchars⟩ := List.head?_eq_some_iff.1 hhead
  have hbreaks : ∀ next, Breaks letter
      ((textFrom .numbered next (.sql text :: rest)).toList ++ tail) := by
    intro next
    rw [textFrom, String.toList_append, hchars]
    exact hletter.breaks hc _
  rw [textFrom_append, String.toList_append, List.append_assoc,
    hfirst position _ (hbreaks _), hrest _ tail htail, slots_append, ← List.append_assoc,
    List.range'_append_1]

/-- The marks of a value list stand between delimiters. -/
theorem scan_marks (position count : Nat) (rest : List Char) :
    scan letter .outside
        ((", ".intercalate ((List.range' position count).map (mark .numbered))).toList ++
          ')' :: rest) =
      List.range' position count ++ scan letter .outside rest := by
  have hbracket : IsDelimiter ')' := by simp [IsDelimiter]
  have hcomma : IsDelimiter ',' := by simp [IsDelimiter]
  have hblank : IsDelimiter ' ' := by simp [IsDelimiter]
  induction count generalizing position with
  | zero => exact hletter.scan_delimiter hbracket rest
  | succ count ih =>
      cases count with
      | zero =>
          have hmark := hletter.scan_mark position (hletter.breaks hbracket rest)
          have hclose := hletter.scan_delimiter hbracket rest
          simpa [hclose] using hmark
      | succ count =>
          rw [List.range'_succ, List.map_cons, List.range'_succ, List.map_cons,
            String.intercalate_cons_cons, ← List.map_cons, ← List.range'_succ]
          have hseparator : (", ").toList = [',', ' '] := by decide
          rw [String.toList_append, String.toList_append, hseparator, List.append_assoc,
            List.append_assoc, List.cons_append, List.cons_append, List.nil_append,
            hletter.scan_mark position (hletter.breaks hcomma _),
            hletter.scan_delimiter hcomma, hletter.scan_delimiter hblank, ih (position + 1),
            List.cons_append]

theorem counted_parameter (constant : Constant) :
    Counted letter [.parameter constant] := by
  intro position rest hrest
  have htext : textFrom .numbered position [.parameter constant] =
      marks .numbered position constant := by
    simp [textFrom]
  rw [htext, slots_parameter, slots_nil, Nat.add_zero, marks, Constant.slots]
  cases constant.literal with
  | list values =>
      have hbracket : IsDelimiter '(' := by simp [IsDelimiter]
      have hopen : ("(").toList = ['('] := by decide
      have hclose : (")").toList = [')'] := by decide
      rw [String.toList_append, String.toList_append, hopen, hclose, List.append_assoc,
        List.append_assoc, List.cons_append, List.nil_append, List.cons_append, List.nil_append,
        hletter.scan_delimiter hbracket, scan_marks hletter]
  | null | scalar | array => exact hletter.scan_mark position hrest

/-- The draft of a name of a table or of a column. -/
theorem counted_name (names : List String) :
    Counted letter [.sql (Identifier.qualified names)] := by
  intro position rest hrest
  simpa [textFrom] using hletter.scan_qualified names hrest

/-- A name in front of a separating text. -/
theorem silent_name_append (names : List String) {text : String} (hseparates : Separates text)
    (hsilent : Silent letter text) : Silent letter (Identifier.qualified names ++ text) := by
  intro rest
  obtain ⟨c, hhead, hc⟩ := hseparates
  obtain ⟨body, hchars⟩ := List.head?_eq_some_iff.1 hhead
  have hbreaks : Breaks letter (text.toList ++ rest) := by
    rw [hchars]
    exact hletter.breaks hc _
  rw [String.toList_append, List.append_assoc, hletter.scan_qualified names hbreaks, hsilent]

theorem counted_separate {separator : String} (hsilent : Silent letter separator)
    (hseparates : Separates separator) {drafts : List Draft}
    (h : ∀ draft ∈ drafts, Counted letter draft) :
    Counted letter (separate separator drafts) := by
  induction drafts with
  | nil => exact counted_nil
  | cons first others ih =>
      have hfirst := h first List.mem_cons_self
      have hothers := ih fun draft hmem => h draft (List.mem_cons_of_mem first hmem)
      cases others with
      | nil => exact hfirst
      | cons next others =>
          rw [separate_cons_cons]
          exact hfirst.append_separated hletter hseparates (hothers.cons_silent hsilent)

end Counted

end Draft

/-! ## Phrases -/

namespace Phrase

open Placeholder Draft

/-- The words of a phrase hold no quote and no dollar sign. -/
def Unmarked : Phrase → Prop
  | .call text | .chain text | .cast text | .test text => Quiet text.toList
  | .negation | .choice => True

theorem separates_link (phrase : Phrase) (index : Nat) : Separates (phrase.link index) := by
  cases phrase <;> cases index <;> simp [link, Separates, IsDelimiter]

theorem separates_closing (phrase : Phrase) : Separates phrase.closing := by
  cases phrase <;> simp [closing, Separates, IsDelimiter]

section Unmarked

variable {letter : Char → Bool} {phrase : Phrase} (hphrase : phrase.Unmarked)
include hphrase

theorem Unmarked.quiet_callee : Quiet phrase.callee := by
  cases phrase <;> simp_all [callee, Quiet, Unmarked]

theorem Unmarked.quiet_link (index : Nat) : Quiet (phrase.link index).toList := by
  cases phrase <;> cases index <;> simp_all [link, Quiet, Unmarked, or_imp, forall_and]

theorem Unmarked.quiet_closing : Quiet phrase.closing.toList := by
  cases phrase <;> simp_all [closing, Quiet, Unmarked, or_imp, forall_and]

theorem Unmarked.counted_closing : Counted letter [.sql phrase.closing] := by
  intro position rest hrest
  have htext : textFrom .numbered position [.sql phrase.closing] = phrase.closing := by
    simp [textFrom]
  rw [htext, scan_quiet_append hphrase.quiet_closing hrest (.inl rfl)]
  rfl

variable (hletter : KnowsAscii letter)
include hletter

theorem Unmarked.silent_opening : Silent letter phrase.opening := by
  have hbracket : IsDelimiter '(' := by simp [IsDelimiter]
  have hblank : IsDelimiter ' ' := by simp [IsDelimiter]
  intro rest
  rw [toList_opening, List.append_assoc, List.cons_append,
    hletter.scan_delimited hphrase.quiet_callee hbracket]
  rcases keyword_eq phrase with hkeyword | hkeyword | hkeyword <;> rw [hkeyword]
  · rfl
  · have hquiet : Quiet ['N', 'O', 'T'] := by simp [Quiet]
    exact hletter.scan_delimited hquiet hblank rest
  · have hquiet : Quiet ['C', 'A', 'S', 'E', ' ', 'W', 'H', 'E', 'N'] := by simp [Quiet]
    exact hletter.scan_delimited hquiet hblank rest

theorem Unmarked.silent_link (index : Nat) : Silent letter (phrase.link index) := by
  apply silent_of_quiet hletter (hphrase.quiet_link index)
  cases phrase <;> cases index <;> simp [link, IsDelimiter, List.getLast?_cons]

/-- The pieces behind an operand, spliced to a draft that ends with it.  Every
operand is broken off by the link or the closing that follows. -/
theorem Unmarked.counted_laterPieces {template : Template} {operator : Operator}
    {operands : List Draft} (hoperands : ∀ operand ∈ operands, Counted letter operand)
    {index count : Nat} {first : Draft} (hfirst : Counted letter first) {drafts : List Draft}
    (h : List.Forall₂ (fun piece d => template.fillPiece operator operands piece = .ok d)
      (phrase.laterPieces index count) drafts) :
    Counted letter (first ++ drafts.flatten) := by
  induction count generalizing index first drafts with
  | zero =>
      obtain _ | ⟨hclosing, hnil⟩ := h
      cases hnil
      cases hclosing
      exact hfirst.append_separated hletter phrase.separates_closing hphrase.counted_closing
  | succ count ih =>
      obtain _ | ⟨hlink, _ | ⟨hoperand, hrest⟩⟩ := h
      rename_i operand drafts
      cases hlink
      have hcounted : Counted letter operand :=
        hoperands operand (Template.mem_of_fillPiece_operand hoperand)
      have hlinked : Counted letter (first ++ .sql (phrase.link index) :: operand) :=
        hfirst.append_separated hletter (phrase.separates_link index)
          (hcounted.cons_silent (hphrase.silent_link hletter index))
      simpa using ih hlinked hrest

end Unmarked

end Phrase

/-! ## Statements -/

namespace Dialect

open Placeholder Draft

theorem postgresPhrase_unmarked (operator : Operator) (path : Bool) :
    (postgresPhrase operator path).Unmarked := by
  cases operator <;> cases path <;> simp [postgresPhrase, Phrase.Unmarked, Quiet]

section Counted

variable {letter : Char → Bool} (hletter : KnowsAscii letter)
include hletter

theorem counted_fill {operator : Operator} {path : Bool} {operands : List Draft} {draft : Draft}
    (hoperands : ∀ operand ∈ operands, Counted letter operand)
    (h : (postgresTemplate operator).fill operator path operands = .ok draft) :
    Counted letter draft := by
  obtain ⟨pieces, drafts, hpieces, hdrafts, rfl⟩ := Template.fill_eq_ok.1 h
  rw [postgresTemplate_pieces] at hpieces
  cases hpieces
  have hphrase := postgresPhrase_unmarked operator path
  have hopening := hphrase.silent_opening hletter
  cases hmost : operator.contract.most with
  | some most =>
      rw [hmost] at hdrafts
      obtain _ | ⟨hopen, _ | ⟨hfirst, hlater⟩⟩ := hdrafts
      rename_i first drafts
      cases hopen
      have hcounted : Counted letter first :=
        hoperands first (Template.mem_of_fillPiece_operand hfirst)
      have hspliced := hphrase.counted_laterPieces hletter hoperands hcounted hlater
      exact hspliced.cons_silent hopening
  | none =>
      rw [hmost] at hdrafts
      obtain _ | ⟨hopen, _ | ⟨hall, _ | ⟨hclose, hnil⟩⟩⟩ := hdrafts
      cases hopen
      cases hall
      cases hclose
      cases hnil
      have hlink := postgresPhrase_link_of_variadic hmost path 0
      have hsilent := hphrase.silent_link hletter 0
      have hseparates := (postgresPhrase operator path).separates_link 0
      rw [hlink] at hsilent hseparates
      have hjoined := counted_separate hletter hsilent hseparates hoperands
      have hclosed := hjoined.append_separated hletter
        (postgresPhrase operator path).separates_closing hphrase.counted_closing
      exact hclosed.cons_silent hopening

theorem counted_draft {e : Expr} {draft : Draft} (h : postgres.draft e = .ok draft) :
    Counted letter draft := by
  induction e generalizing draft with
  | column ref =>
      rw [Dialect.draft] at h
      cases h
      exact counted_name hletter ref.identifiers
  | constant value =>
      rw [Dialect.draft] at h
      cases h
      exact counted_parameter hletter value
  | operation operator operands ih =>
      obtain ⟨drafts, hdrafts, hfill⟩ := draft_operation_eq_ok.1 h
      refine counted_fill hletter ?_ hfill
      have hcounted :=
        forall₂_imp_of_mem hdrafts fun operand hmem _ hdraft => ih operand hmem hdraft
      exact forall_mem_of_forall₂ hcounted

theorem silent_blank {text : String} (hquiet : Quiet text.toList)
    (hlast : text.toList.getLast? = some ' ') : Silent letter text :=
  silent_of_quiet hletter hquiet ⟨' ', hlast, by simp [IsDelimiter]⟩

theorem counted_assignment {assignment : Assignment} {draft : Draft}
    (h : postgres.draftAssignment assignment = .ok draft) : Counted letter draft := by
  obtain ⟨value, hvalue, rfl⟩ := draftAssignment_eq_ok.1 h
  have hequals : Silent letter " = " := silent_blank hletter (by simp [Quiet]) (by simp)
  have hseparates : Separates " = " := by simp [Separates, IsDelimiter]
  have hname := silent_name_append hletter assignment.target.segments hseparates hequals
  exact (counted_draft hletter hvalue).cons_silent hname

theorem counted_filter {filter : Option Expr} {draft condition : Draft}
    (hdraft : Counted letter draft) (h : postgres.draftFilter filter = .ok condition) :
    Counted letter (draft ++ condition) := by
  cases filter with
  | none =>
      obtain rfl := draftFilter_none.1 h
      simpa using hdraft
  | some filter =>
      obtain ⟨-, condition, hcondition, rfl⟩ := draftFilter_some.1 h
      have hwhere : Silent letter " WHERE " := silent_blank hletter (by simp [Quiet]) (by simp)
      have hseparates : Separates " WHERE " := by simp [Separates, IsDelimiter]
      exact hdraft.append_separated hletter hseparates
        ((counted_draft hletter hcondition).cons_silent hwhere)

theorem counted_update {update : Update} {filter : Option Expr} {draft : Draft}
    (h : postgres.draftUpdate update filter = .ok draft) : Counted letter draft := by
  obtain ⟨assignments, drafts, condition, -, hdrafts, hcondition, rfl⟩ := draftUpdate_eq_ok.1 h
  have hupdate : Silent letter "UPDATE " := silent_blank hletter (by simp [Quiet]) (by simp)
  have hset : Silent letter " SET " := silent_blank hletter (by simp [Quiet]) (by simp)
  have hseparates : Separates " SET " := by simp [Separates, IsDelimiter]
  have htable := silent_name_append hletter (Text.pieces update.table) hseparates hset
  have hcomma : Silent letter ", " := silent_blank hletter (by simp [Quiet]) (by simp)
  have hcommas : Separates ", " := by simp [Separates, IsDelimiter]
  have hassignments : ∀ d ∈ drafts, Counted letter d :=
    forall_mem_of_forall₂
      (hdrafts.imp fun _ _ hassignment => counted_assignment hletter hassignment)
  have hjoined := counted_separate hletter hcomma hcommas hassignments
  have hopening := hupdate.append htable
  rw [← String.append_assoc] at hopening
  exact (counted_filter hletter hjoined hcondition).cons_silent hopening

end Counted

theorem numbersIn_finish {letter : Char → Bool} {draft : Draft} (h : Counted letter draft) :
    numbersIn letter (draft.finish .numbered).sql =
      List.range' 1 (draft.finish .numbered).slots := by
  have hend : Breaks letter [] := by simp [Breaks]
  have hall := h 1 [] hend
  simpa [numbersIn, finish, scan, Statement.slots, slots] using hall

/-- Whatever the names of tables and columns are, the placeholders that a
reader finds in a statement are those of its parameters, each once and in
order.  Which characters beyond ASCII count as letters does not matter. -/
theorem postgres_numbersIn {letter : Char → Bool} (hletter : KnowsAscii letter) :
    (∀ e statement, postgres.compile .numbered e = .ok statement →
      numbersIn letter statement.sql = List.range' 1 statement.slots) ∧
    (∀ update filter statement, postgres.compileUpdate .numbered update filter = .ok statement →
      numbersIn letter statement.sql = List.range' 1 statement.slots) := by
  constructor
  · intro e statement h
    obtain ⟨draft, hdraft, rfl⟩ := compile_eq_ok.1 h
    exact numbersIn_finish (counted_draft hletter hdraft)
  · intro update filter statement h
    obtain ⟨draft, hdraft, rfl⟩ := compileUpdate_eq_ok.1 h
    exact numbersIn_finish (counted_update hletter hdraft)

/-- Names that hold a mark, a quote, a point, a blank or nothing at all. -/
theorem postgres_numbersIn_forged_names :
    let subject : Column := ⟨some "a$1", "x\"$2", .jsonb⟩
    let list : Constant := .valueList [.string "$7", .string "\""]
    let e : Expr := .operation .inList [.ofColumn subject, .constant list]
    let update : Update := ⟨"s..$3 \"", [⟨⟨none, ["c$1"], .text⟩, .constant .null⟩], []⟩
    KnowsAscii Char.isAlpha ∧
      (∃ statement, postgres.compile .numbered e = .ok statement ∧
        statement.sql = "(a$1.\"x\"\"$2\" IN ($1, $2))" ∧
        numbersIn Char.isAlpha statement.sql = [1, 2]) ∧
      ∃ statement, postgres.compileUpdate .numbered update (some e) = .ok statement ∧
        statement.sql =
          "UPDATE s.\"\".\"$3 \"\"\" SET c$1 = $1 WHERE (a$1.\"x\"\"$2\" IN ($2, $3))" ∧
        numbersIn Char.isAlpha statement.sql = [1, 2, 3] := by
  intro subject list e update
  have hletter : KnowsAscii Char.isAlpha := fun _ _ => rfl
  have hcondition : postgres.compile .numbered e =
      .ok ⟨"(a$1.\"x\"\"$2\" IN ($1, $2))", [list]⟩ := by
    unfold e list subject
    rfl
  have hwhole : postgres.compileUpdate .numbered update (some e) =
      .ok ⟨"UPDATE s.\"\".\"$3 \"\"\" SET c$1 = $1 WHERE (a$1.\"x\"\"$2\" IN ($2, $3))",
        [.null, list]⟩ := by
    unfold update e list subject
    rfl
  refine ⟨hletter, ⟨_, hcondition, rfl, ?_⟩, _, hwhole, rfl, ?_⟩
  · exact (postgres_numbersIn hletter).1 e _ hcondition
  · exact (postgres_numbersIn hletter).2 update (some e) _ hwhole

end Dialect

end JsonbAlgebra
