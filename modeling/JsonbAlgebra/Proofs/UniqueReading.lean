import JsonbAlgebra.Proofs.PhraseReading

/-!
# PostgreSQL statements can be read in one way only

The text of an expression determines its tree: the operators, the order and
number of their operands, the names of the columns and the number of values
in each list.  Together with the parameters it determines the constants too.
Only what the text does not show is left open: the types that references are
declared with, where an owner ends and the segments begin, and which of the
two operators that share a template was meant.

The argument goes through both trees at once.  Of two equal texts, each an
expression followed by something that may stand after an operand, the
expressions are alike and the rests are equal.
-/

namespace JsonbAlgebra

/-- Operators that are the same, or the two that share a template. -/
def Operator.WrittenAlike (f g : Operator) : Prop :=
  f = g ∨ (f = .deleteKey ∧ g = .deleteIndex) ∨ (f = .deleteIndex ∧ g = .deleteKey)

namespace Expr

/-- What the checks of references and operations let through. -/
structure Constructible (e : Expr) : Prop where
  wellFormed : e.WellFormed
  named : ∀ ref ∈ e.columns, ref.segments ≠ []

/-- The same tree, up to the types of references, the place where an owner
ends, and operators that are written alike.  The constants at each leaf agree
in a sense that is left open. -/
inductive Alike (agree : Constant → Constant → Prop) : Expr → Expr → Prop where
  | column {a b : ColumnRef} (h : a.identifiers = b.identifiers) :
      Alike agree (.column a) (.column b)
  | constant {a b : Constant} (h : agree a b) : Alike agree (.constant a) (.constant b)
  | operation {f g : Operator} {as bs : List Expr} (h : f.WrittenAlike g)
      (hoperands : List.Forall₂ (Alike agree) as bs) :
      Alike agree (.operation f as) (.operation g bs)

namespace Constructible

variable {operator : Operator} {operands : List Expr}

theorem identifiers_ne_nil {ref : ColumnRef} (h : (Expr.column ref).Constructible) :
    ref.identifiers ≠ [] := by
  have hsegments := h.named ref (by rw [columns]; exact List.mem_singleton_self ref)
  intro hnil
  exact hsegments (List.append_eq_nil_iff.1 hnil).2

theorem operand (h : (Expr.operation operator operands).Constructible) :
    ∀ operand ∈ operands, operand.Constructible := by
  intro operand hmem
  constructor
  · exact (wellFormed_operation_iff.1 h.wellFormed).2 operand hmem
  · intro ref href
    exact h.named ref (mem_columns_operation hmem href)

theorem takes (h : (Expr.operation operator operands).Constructible) (path : Bool) :
    (Dialect.postgresPhrase operator path).Takes operands.length :=
  Dialect.postgresPhrase_takes path
    (applicationFault?_eq_none (wellFormed_operation_iff.1 h.wellFormed).1).1

end Constructible

end Expr

/-! ## Operators of one phrase -/

namespace Dialect

instance (f g : Operator) : Decidable (f.WrittenAlike g) :=
  inferInstanceAs (Decidable (f = g ∨ _ ∨ _))

theorem writtenAlike_of_postgresPhrase_eq {f g : Operator} {p q : Bool}
    (h : postgresPhrase f p = postgresPhrase g q) : f.WrittenAlike g := by
  have htable : ∀ f ∈ Operator.all, ∀ g ∈ Operator.all, ∀ p q : Bool,
      postgresPhrase f p = postgresPhrase g q → f.WrittenAlike g := by
    decide +kernel
  exact htable f f.mem_all g g.mem_all p q h

end Dialect

/-! ## Reading constants -/

theorem questionMarks_append_unique {m n : Nat} {s t : List Char}
    (h : questionMarks m ++ ')' :: s = questionMarks n ++ ')' :: t) : m = n ∧ s = t := by
  induction m using questionMarks.induct generalizing n with
  | case1 =>
      rcases n with _ | _ | n
      · exact ⟨rfl, (List.cons.inj h).2⟩
      · exact absurd (List.cons.inj h).1 (by decide)
      · exact absurd (List.cons.inj h).1 (by decide)
  | case2 =>
      rcases n with _ | _ | n
      · exact absurd (List.cons.inj h).1 (by decide)
      · exact ⟨rfl, (List.cons.inj (List.cons.inj h).2).2⟩
      · exact absurd (List.cons.inj (List.cons.inj h).2).1 (by decide)
  | case3 m ih =>
      rcases n with _ | _ | n
      · exact absurd (List.cons.inj h).1 (by decide)
      · exact absurd (List.cons.inj (List.cons.inj h).2).1 (by decide)
      · simp only [questionMarks, List.cons_append, List.cons.injEq, true_and] at h
        obtain ⟨hcount, hrest⟩ := ih h
        exact ⟨congrArg (· + 1) hcount, hrest⟩

theorem questionMarks_append_eq (count : Nat) (s : List Char) :
    questionMarks count ++ ')' :: s = ')' :: s ∨
      ∃ tail, questionMarks count ++ ')' :: s = '?' :: tail ∧
        (tail = ')' :: s ∨ ∃ more, tail = ',' :: more) := by
  match count with
  | 0 => exact .inl rfl
  | 1 => exact .inr ⟨_, rfl, .inl rfl⟩
  | _ + 2 => exact .inr ⟨_, rfl, .inr ⟨_, rfl⟩⟩

namespace Constant

/-- Constants that leave the same marks in a text. -/
def SameMarks (a b : Constant) : Prop :=
  a.isValueList = b.isValueList ∧ a.slots = b.slots

theorem markText_cases (constant : Constant) :
    (constant.isValueList = false ∧ constant.slots = 1 ∧ constant.markText = ['?']) ∨
      (constant.isValueList = true ∧
        constant.markText = '(' :: (questionMarks constant.slots ++ [')'])) := by
  unfold isValueList slots markText
  cases constant.literal with
  | list values => exact .inr ⟨rfl, rfl⟩
  | null | scalar | array => exact .inl ⟨rfl, rfl, rfl⟩

theorem markText_append_unique {a b : Constant} {s t : List Char}
    (h : a.markText ++ s = b.markText ++ t) : SameMarks a b ∧ s = t := by
  rcases markText_cases a with ⟨ha, haslots, hatext⟩ | ⟨ha, hatext⟩ <;>
    rcases markText_cases b with ⟨hb, hbslots, hbtext⟩ | ⟨hb, hbtext⟩ <;>
    rw [hatext, hbtext] at h
  · exact ⟨⟨ha.trans hb.symm, haslots.trans hbslots.symm⟩, (List.cons.inj h).2⟩
  · exact absurd (List.cons.inj h).1 (by decide)
  · exact absurd (List.cons.inj h).1 (by decide)
  · simp only [List.cons_append, List.append_assoc, List.nil_append, List.cons.injEq,
      true_and] at h
    obtain ⟨hslots, hrest⟩ := questionMarks_append_unique h
    exact ⟨⟨ha.trans hb.symm, hslots⟩, hrest⟩

end Constant

/-! ## Reading expressions -/

namespace Expr

open Phrase

/-- An operation with operands, taken apart behind the first of them. -/
theorem postgresText_operation (operator : Operator) (first : Expr) (others : List Expr)
    (s : List Char) :
    let phrase := Dialect.postgresPhrase operator (Dialect.takesPath (first :: others))
    (Expr.operation operator (first :: others)).postgresText ++ s =
      phrase.opening.toList ++
        (first.postgresText ++ (phrase.laterText 0 (others.map postgresText) ++ s)) := by
  intro phrase
  rw [postgresText, postgresTexts_eq_map, List.map_cons, Phrase.text, List.append_assoc,
    List.append_assoc]

theorem exists_bracket (operator : Operator) (operands : List Expr) (s : List Char) :
    ∃ word tail, (∀ c ∈ word, Identifier.isPlain c = true) ∧
      (Expr.operation operator operands).postgresText ++ s = word ++ '(' :: tail := by
  have hproper := Dialect.postgresPhrase_proper operator (Dialect.takesPath operands)
  rw [postgresText]
  cases postgresTexts operands with
  | nil =>
      rw [Phrase.text, toList_opening, List.append_assoc, List.append_assoc]
      exact ⟨_, _, hproper.isPlain_of_mem_callee, rfl⟩
  | cons first others =>
      rw [Phrase.text, toList_opening, List.append_assoc, List.append_assoc]
      exact ⟨_, _, hproper.isPlain_of_mem_callee, rfl⟩

theorem bracket_ne_mark {word tail t : List Char}
    (hword : ∀ c ∈ word, Identifier.isPlain c = true) : word ++ '(' :: tail ≠ '?' :: t := by
  intro h
  cases word with
  | nil => exact absurd (List.cons.inj h).1 (by decide)
  | cons c word =>
      obtain rfl := (List.cons.inj h).1
      exact absurd (hword '?' List.mem_cons_self) (by decide)

/-- A name goes on with neither a question mark nor a bracket. -/
theorem column_append_ne {ref : ColumnRef} (h : (Expr.column ref).Constructible)
    {word s t : List Char} (hs : Stops s) (hword : ∀ c ∈ word, Identifier.isPlain c = true)
    {c : Char} (hc : c = '?' ∨ c = '(') :
    (Expr.column ref).postgresText ++ s ≠ word ++ c :: t := by
  refine Identifier.qualified_append_ne h.identifiers_ne_nil hword ?_ hs.followsPath ?_
  · rcases hc with rfl | rfl <;> decide
  · intro hhead
    rcases hs c hhead with rfl | rfl | rfl <;> rcases hc with h | h <;> cases h

theorem starts_postgresText {e : Expr} (h : e.Constructible) (rest : List Char) :
    Starts (e.postgresText ++ rest) := by
  cases e with
  | column ref =>
      obtain ⟨name, names, hnames⟩ := List.exists_cons_of_ne_nil h.identifiers_ne_nil
      obtain ⟨tail, htail, -⟩ := Identifier.qualified_append name names rest
      obtain ⟨c, others, hquote, hc⟩ := Identifier.quoteChars_eq_cons name.toList
      rw [postgresText, hnames, htail, hquote]
      exact ⟨c, others ++ tail, rfl, hc.imp_right .inl⟩
  | constant value =>
      rcases value.markText_cases with ⟨-, -, htext⟩ | ⟨-, htext⟩ <;>
        rw [postgresText, htext]
      · exact ⟨'?', rest, rfl, .inr (.inr (.inl rfl))⟩
      · exact ⟨'(', _, rfl, .inr (.inr (.inr rfl))⟩
  | operation operator operands =>
      obtain ⟨word, tail, hword, htext⟩ := exists_bracket operator operands rest
      rw [htext]
      cases word with
      | nil => exact ⟨'(', tail, rfl, .inr (.inr (.inr rfl))⟩
      | cons c word => exact ⟨c, _, rfl, .inl (hword c List.mem_cons_self)⟩

/-- Only a single mark starts with a question mark. -/
theorem eq_of_postgresText_eq_mark {e : Expr} (h : e.Constructible) {s t : List Char}
    (hs : Stops s) (heq : e.postgresText ++ s = '?' :: t) : s = t := by
  cases e with
  | column ref =>
      have hword : ∀ c ∈ ([] : List Char), Identifier.isPlain c = true := by simp
      exact absurd heq (column_append_ne h hs hword (.inl rfl))
  | constant value =>
      rcases value.markText_cases with ⟨-, -, htext⟩ | ⟨-, htext⟩ <;>
        rw [postgresText, htext] at heq
      · exact (List.cons.inj heq).2
      · exact absurd (List.cons.inj heq).1 (by decide)
  | operation operator operands =>
      obtain ⟨word, tail, hword, htext⟩ := exists_bracket operator operands s
      rw [htext] at heq
      exact absurd heq (bracket_ne_mark hword)

/-- A list of values is never the text of an operation, not even a list of
one, which stands in brackets like the operand of a cast. -/
theorem list_append_ne_operation {operator : Operator} {operands : List Expr}
    (h : (Expr.operation operator operands).Constructible) (count : Nat) {s t : List Char}
    (hs : Stops s) :
    '(' :: (questionMarks count ++ ')' :: s) ≠
      (Expr.operation operator operands).postgresText ++ t := by
  intro heq
  obtain _ | ⟨first, others⟩ := operands
  · exact absurd (h.takes false).pos (by simp)
  have hproper := Dialect.postgresPhrase_proper operator (Dialect.takesPath (first :: others))
  have htakes := h.takes (Dialect.takesPath (first :: others))
  have hfirst := h.operand first List.mem_cons_self
  rw [postgresText_operation] at heq
  generalize Dialect.postgresPhrase operator (Dialect.takesPath (first :: others)) = phrase
    at heq hproper htakes
  rw [toList_opening, List.append_assoc] at heq
  have hnil : ∀ c ∈ ([] : List Char), Identifier.isPlain c = true := by simp
  obtain ⟨hcallee, hinside⟩ := word_bracket_unique hnil hproper.isPlain_of_mem_callee heq
  rcases questionMarks_append_eq count s with hmarks | ⟨tail, hmarks, htail⟩ <;>
    rw [hmarks] at hinside
  · rw [keyword_eq_nil_of_append (.inr rfl) hinside] at hinside
    exact absurd hinside.symm ((starts_postgresText hfirst _).ne_cons (.inr (.inr rfl)))
  · have hkeyword := keyword_eq_nil_of_append (.inl rfl) hinside
    rw [hkeyword] at hinside
    have hlater := eq_of_postgresText_eq_mark hfirst (stops_laterText _ _ _ _) hinside.symm
    have hcount : phrase.Takes ((others.map postgresText).length + 1) := by
      rw [List.length_map]
      exact htakes
    have hbehind := laterText_ne_list hproper hcallee.symm hkeyword hcount hs t
    rcases htail with rfl | ⟨more, rfl⟩
    · exact hbehind.1 hlater
    · exact hbehind.2 more hlater

theorem column_append_ne_constant {ref : ColumnRef} (h : (Expr.column ref).Constructible)
    (value : Constant) {s t : List Char} (hs : Stops s) :
    (Expr.column ref).postgresText ++ s ≠ (Expr.constant value).postgresText ++ t := by
  have hnil : ∀ c ∈ ([] : List Char), Identifier.isPlain c = true := by simp
  rw [postgresText.eq_2]
  rcases value.markText_cases with ⟨-, -, htext⟩ | ⟨-, htext⟩ <;> rw [htext]
  · exact column_append_ne h hs hnil (.inl rfl)
  · exact column_append_ne h hs hnil (.inr rfl)

theorem constant_append_ne_operation (value : Constant) {operator : Operator}
    {operands : List Expr} (h : (Expr.operation operator operands).Constructible)
    {s t : List Char} (hs : Stops s) :
    (Expr.constant value).postgresText ++ s ≠
      (Expr.operation operator operands).postgresText ++ t := by
  rw [postgresText.eq_2]
  rcases value.markText_cases with ⟨-, -, htext⟩ | ⟨-, htext⟩ <;> rw [htext]
  · obtain ⟨word, tail, hword, hbracket⟩ := exists_bracket operator operands t
    rw [hbracket]
    exact (bracket_ne_mark hword).symm
  · rw [List.cons_append, List.append_assoc]
    exact list_append_ne_operation h value.slots hs

/-- The operands behind the first one, and what follows the operation. -/
theorem laterText_append_unique {phrase : Phrase} {as bs : List Expr} {index : Nat}
    {s t : List Char}
    (hcount : as.length = bs.length ∨ ∀ index s t,
      phrase.closing.toList ++ s ≠ (phrase.link index).toList ++ t)
    (hread : ∀ a ∈ as, ∀ b ∈ bs, ∀ s t, Stops s → Stops t →
      a.postgresText ++ s = b.postgresText ++ t → Alike Constant.SameMarks a b ∧ s = t)
    (h : phrase.laterText index (as.map postgresText) ++ s =
      phrase.laterText index (bs.map postgresText) ++ t) :
    List.Forall₂ (Alike Constant.SameMarks) as bs ∧ s = t := by
  induction as generalizing bs index with
  | nil =>
      cases bs with
      | nil => exact ⟨.nil, List.append_cancel_left h⟩
      | cons b bs =>
          rcases hcount with hcount | hclosing
          · cases hcount
          · rw [List.map_nil, List.map_cons, laterText_nil, laterText_cons,
              List.append_assoc] at h
            exact absurd h (hclosing index _ _)
  | cons a as ih =>
      cases bs with
      | nil =>
          rcases hcount with hcount | hclosing
          · cases hcount
          · rw [List.map_nil, List.map_cons, laterText_nil, laterText_cons,
              List.append_assoc] at h
            exact absurd h.symm (hclosing index _ _)
      | cons b bs =>
          rw [List.map_cons, List.map_cons, laterText_cons, laterText_cons,
            List.append_assoc, List.append_assoc, List.append_assoc, List.append_assoc] at h
          obtain ⟨hfirst, hrest⟩ := hread a List.mem_cons_self b List.mem_cons_self _ _
            (stops_laterText _ _ _ _) (stops_laterText _ _ _ _) (List.append_cancel_left h)
          obtain ⟨hothers, hst⟩ := ih (hcount.imp_left Nat.succ.inj)
            (fun a ha b hb => hread a (List.mem_cons_of_mem _ ha) b (List.mem_cons_of_mem _ hb))
            hrest
          exact ⟨.cons hfirst hothers, hst⟩

/-- Of two equal texts, each an expression and something that may follow it,
the expressions are alike and the rests are equal. -/
theorem postgresText_append_unique {e₁ e₂ : Expr} (h₁ : e₁.Constructible)
    (h₂ : e₂.Constructible) {s t : List Char} (hs : Stops s) (ht : Stops t)
    (h : e₁.postgresText ++ s = e₂.postgresText ++ t) :
    Alike Constant.SameMarks e₁ e₂ ∧ s = t := by
  induction e₁ generalizing e₂ s t with
  | column a =>
      cases e₂ with
      | column b =>
          obtain ⟨hnames, hst⟩ := Identifier.qualified_append_unique
            h₁.identifiers_ne_nil h₂.identifiers_ne_nil hs.followsPath ht.followsPath h
          exact ⟨.column hnames, hst⟩
      | constant b => exact absurd h (column_append_ne_constant h₁ b hs)
      | operation operator operands =>
          obtain ⟨word, tail, hword, htext⟩ := exists_bracket operator operands t
          rw [htext] at h
          exact absurd h (column_append_ne h₁ hs hword (.inr rfl))
  | constant a =>
      cases e₂ with
      | column b => exact absurd h.symm (column_append_ne_constant h₂ a ht)
      | constant b =>
          obtain ⟨hmarks, hst⟩ := Constant.markText_append_unique h
          exact ⟨.constant hmarks, hst⟩
      | operation g bs => exact absurd h (constant_append_ne_operation a h₂ hs)
  | operation f as ih =>
      cases e₂ with
      | column b =>
          obtain ⟨word, tail, hword, htext⟩ := exists_bracket f as s
          rw [htext] at h
          exact absurd h.symm (column_append_ne h₂ ht hword (.inr rfl))
      | constant b => exact absurd h.symm (constant_append_ne_operation b h₁ ht)
      | operation g bs =>
          obtain _ | ⟨a, as⟩ := as
          · exact absurd (h₁.takes false).pos (by simp)
          obtain _ | ⟨b, bs⟩ := bs
          · exact absurd (h₂.takes false).pos (by simp)
          have hoperands₁ := h₁.operand
          have hoperands₂ := h₂.operand
          have hp := Dialect.postgresPhrase_proper f (Dialect.takesPath (a :: as))
          have hq := Dialect.postgresPhrase_proper g (Dialect.takesPath (b :: bs))
          have hpas := h₁.takes (Dialect.takesPath (a :: as))
          have hqbs := h₂.takes (Dialect.takesPath (b :: bs))
          rw [postgresText_operation, postgresText_operation] at h
          -- Name and keyword at the bracket agree, so both first operands start
          -- at one place; what is behind them settles the phrase.
          obtain ⟨hcallee, hkeyword, hinner⟩ := opening_append_unique hp hq
            (starts_postgresText (hoperands₁ a List.mem_cons_self) _)
            (starts_postgresText (hoperands₂ b List.mem_cons_self) _) h
          obtain ⟨hfirst, hlater⟩ := ih a List.mem_cons_self
            (hoperands₁ a List.mem_cons_self) (hoperands₂ b List.mem_cons_self)
            (stops_laterText _ _ _ _) (stops_laterText _ _ _ _) hinner
          have hphrase := eq_of_laterText hp hq hcallee hkeyword
            (by rw [List.length_map]; exact hpas) (by rw [List.length_map]; exact hqbs)
            hs ht hlater
          rw [← hphrase] at hlater hqbs
          obtain ⟨hothers, hst⟩ := laterText_append_unique
            ((hpas.unique hqbs).imp_left Nat.succ.inj)
            (fun a ha b hb s t hs ht h => ih a (List.mem_cons_of_mem _ ha)
              (hoperands₁ a (List.mem_cons_of_mem _ ha))
              (hoperands₂ b (List.mem_cons_of_mem _ hb)) hs ht h)
            hlater
          exact ⟨.operation (Dialect.writtenAlike_of_postgresPhrase_eq hphrase)
            (.cons hfirst hothers), hst⟩

/-! ## Constants at the leaves -/

theorem constants_operation (operator : Operator) (operands : List Expr) :
    (Expr.operation operator operands).constants = operands.flatMap constants := by
  rw [constants, constantsAll_eq_flatMap]

/-- Trees of one shape take equally many constants each off the front of two
lists, so constants that agree in order agree leaf by leaf. -/
theorem Alike.of_constants {shape agree : Constant → Constant → Prop} {e₁ e₂ : Expr}
    (h : Alike shape e₁ e₂) {more others : List Constant}
    (hconstants : List.Forall₂ agree (e₁.constants ++ more) (e₂.constants ++ others)) :
    Alike agree e₁ e₂ ∧ List.Forall₂ agree more others := by
  induction e₁ generalizing e₂ more others with
  | column a =>
      cases h with
      | column hnames => exact ⟨.column hnames, hconstants⟩
  | constant a =>
      cases h with
      | constant _ =>
          obtain _ | ⟨hvalue, hmore⟩ := hconstants
          exact ⟨.constant hvalue, hmore⟩
  | operation f as ih =>
      cases h with
      | operation hwritten hoperands =>
          rename_i g bs
          rw [constants_operation, constants_operation] at hconstants
          have hall : List.Forall₂ (Alike agree) as bs ∧ List.Forall₂ agree more others := by
            clear hwritten
            induction hoperands generalizing more others with
            | nil => exact ⟨.nil, hconstants⟩
            | cons hfirst _ ihothers =>
                rw [List.flatMap_cons, List.flatMap_cons, List.append_assoc,
                  List.append_assoc] at hconstants
                obtain ⟨hfirst, hrest⟩ := ih _ List.mem_cons_self hfirst hconstants
                obtain ⟨hothers, hmore⟩ := ihothers
                  (fun operand hmem => ih operand (List.mem_cons_of_mem _ hmem)) hrest
                exact ⟨.cons hfirst hothers, hmore⟩
          exact ⟨.operation hwritten hall.1, hall.2⟩

end Expr

namespace Dialect

/-- Expressions with the same PostgreSQL text, and with parameters that agree
in order, are the same tree with agreeing constants at its leaves. -/
theorem postgres_compile_unambiguous (agree : Constant → Constant → Prop) {e₁ e₂ : Expr}
    (h₁ : e₁.Constructible) (h₂ : e₂.Constructible) {first second : Statement}
    (hfirst : postgres.compile .anonymous e₁ = .ok first)
    (hsecond : postgres.compile .anonymous e₂ = .ok second)
    (hsql : first.sql = second.sql)
    (hparameters : List.Forall₂ agree first.parameters second.parameters) :
    Expr.Alike agree e₁ e₂ := by
  have htext : e₁.postgresText ++ [] = e₂.postgresText ++ [] := by
    rw [← postgres_compile_text h₁.wellFormed hfirst,
      ← postgres_compile_text h₂.wellFormed hsecond, hsql]
  have hstops : Phrase.Stops [] := by
    rintro c ⟨⟩
  have hshape := (Expr.postgresText_append_unique h₁ h₂ hstops hstops htext).1
  have hconstants : List.Forall₂ agree (e₁.constants ++ []) (e₂.constants ++ []) := by
    rw [List.append_nil, List.append_nil, ← postgres_compile_constants h₁.wellFormed hfirst,
      ← postgres_compile_constants h₂.wellFormed hsecond]
    exact hparameters
  exact (hshape.of_constants hconstants).1

/-- One text for two trees: a key or an index may be meant, and a table or a
first segment.  The brackets around a list of one are not those of a cast. -/
theorem postgres_compile_unambiguous_shared_template :
    let list : Constant := .valueList [.string "a"]
    let left : Expr := .operation .inList
      [.operation .castText [.operation .deleteKey
        [.column ⟨some "t", ["doc"], .jsonb⟩, .constant .null]], .constant list]
    let right : Expr := .operation .inList
      [.operation .castText [.operation .deleteIndex
        [.column ⟨none, ["t", "doc"], .jsonb⟩, .constant .null]], .constant list]
    let statement : Statement := ⟨"(((t.doc - ?))::text IN (?))", [.null, list]⟩
    postgres.compile .anonymous left = .ok statement ∧
      postgres.compile .anonymous right = .ok statement ∧
      Expr.Alike (· = ·) left right := by
  refine ⟨rfl, rfl, ?_⟩
  refine postgres_compile_unambiguous (· = ·) ⟨?_, ?_⟩ ⟨?_, ?_⟩ rfl rfl rfl ?_
  · exact ⟨rfl, ⟨rfl, ⟨rfl, trivial, trivial, trivial⟩, trivial⟩, trivial, trivial⟩
  · exact List.forall_mem_singleton.2 (List.cons_ne_nil _ _)
  · exact ⟨rfl, ⟨rfl, ⟨rfl, trivial, trivial, trivial⟩, trivial⟩, trivial, trivial⟩
  · exact List.forall_mem_singleton.2 (List.cons_ne_nil _ _)
  · exact .cons rfl (.cons rfl .nil)

end Dialect

end JsonbAlgebra
