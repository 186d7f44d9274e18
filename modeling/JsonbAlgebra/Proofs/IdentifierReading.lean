import JsonbAlgebra.Dialect
import Mathlib.Data.List.TakeWhile

/-!
# Reading identifiers back

Where an identifier ends can be seen in the text: a plain name goes on as long
as its characters are those of plain names, and a quoted one up to the first
quote that is not doubled.  If the text after it starts with neither, the
identifier and that text are both determined by the whole.  The same holds of
identifiers joined by points, as many of them as there are.
-/

namespace JsonbAlgebra

/-- A word that goes on as long as its characters satisfy a test is cut off
at one place only. -/
theorem word_append_unique {p : Char → Bool} {word other s t : List Char}
    (hword : ∀ c ∈ word, p c = true) (hother : ∀ c ∈ other, p c = true)
    (hs : ∀ c ∈ s.head?, p c = false) (ht : ∀ c ∈ t.head?, p c = false)
    (h : word ++ s = other ++ t) : word = other ∧ s = t := by
  have hstop : ∀ rest : List Char, (∀ c ∈ rest.head?, p c = false) →
      rest.takeWhile p = [] := by
    intro rest hrest
    cases rest with
    | nil => rfl
    | cons c rest => simp [hrest c rfl]
  have htake := congrArg (List.takeWhile p) h
  rw [List.takeWhile_append_of_pos hword, List.takeWhile_append_of_pos hother,
    hstop s hs, hstop t ht, List.append_nil, List.append_nil] at htake
  subst htake
  exact ⟨rfl, List.append_cancel_left h⟩

namespace Identifier

theorem isPlain_of_isPlainName {name : List Char} (h : isPlainName name = true) :
    ∀ c ∈ name, isPlain c = true := by
  cases name with
  | nil => cases h
  | cons first rest =>
      rw [isPlainName, Bool.and_eq_true, List.all_eq_true] at h
      intro c hmem
      rcases List.mem_cons.1 hmem with rfl | hmem
      · rw [isPlain, h.1, Bool.true_or, Bool.true_or]
      · exact h.2 c hmem

theorem ne_quote_of_isPlain {c : Char} (h : isPlain c = true) : c ≠ '"' := by
  rintro rfl
  cases h

/-- What can follow an identifier: nothing, or a character that does not
belong to a plain name and cannot double a quote. -/
def Follows (rest : List Char) : Prop :=
  ∀ c ∈ rest.head?, isPlain c = false ∧ c ≠ '"'

theorem follows_point (rest : List Char) : Follows ('.' :: rest) := by
  rintro c ⟨⟩
  decide

theorem head?_doubled_append (c : Char) (rest : List Char) :
    (doubled c ++ rest).head? = some c := by
  unfold doubled
  split
  · rename_i hc
    rw [hc]
    rfl
  · rfl

/-- A quote that is not doubled does not start a doubled character. -/
theorem quote_cons_ne_doubled {tail : List Char} (htail : Follows tail) (c : Char)
    (rest : List Char) : '"' :: tail ≠ doubled c ++ rest := by
  intro h
  have hc : some '"' = some c := by
    rw [← head?_doubled_append c rest, ← h]
    rfl
  obtain rfl := Option.some.inj hc
  have hquote : tail = '"' :: rest := (List.cons.inj h).2
  exact (htail '"' (by rw [hquote]; rfl)).2 rfl

/-- In the text between two quotes every quote is doubled, so the closing one
is the first that is not. -/
theorem doubled_append_unique {name other s t : List Char}
    (hs : Follows s) (ht : Follows t)
    (h : name.flatMap doubled ++ '"' :: s = other.flatMap doubled ++ '"' :: t) :
    name = other ∧ s = t := by
  induction name generalizing other with
  | nil =>
      cases other with
      | nil => exact ⟨rfl, (List.cons.inj h).2⟩
      | cons c other =>
          rw [List.flatMap_cons, List.append_assoc] at h
          exact absurd h (quote_cons_ne_doubled hs c _)
  | cons c name ih =>
      rw [List.flatMap_cons, List.append_assoc] at h
      cases other with
      | nil => exact absurd h.symm (quote_cons_ne_doubled ht c _)
      | cons d other =>
          rw [List.flatMap_cons, List.append_assoc] at h
          have hhead := congrArg List.head? h
          rw [head?_doubled_append, head?_doubled_append] at hhead
          obtain rfl := Option.some.inj hhead
          obtain ⟨hname, hrest⟩ := ih (List.append_cancel_left h)
          exact ⟨by rw [hname], hrest⟩

theorem quoteChars_of_plain {name : List Char} (h : isPlainName name = true) :
    quoteChars name = name :=
  if_pos h

theorem quoteChars_of_not_plain {name : List Char} (h : isPlainName name = false) :
    quoteChars name = '"' :: (name.flatMap doubled ++ ['"']) := by
  rw [quoteChars, h]
  rfl

theorem quoteChars_eq_cons (name : List Char) :
    ∃ c rest, quoteChars name = c :: rest ∧ (isPlain c = true ∨ c = '"') := by
  cases hname : isPlainName name with
  | true =>
      rw [quoteChars_of_plain hname]
      cases name with
      | nil => cases hname
      | cons c rest =>
          exact ⟨c, rest, rfl, .inl (isPlain_of_isPlainName hname c List.mem_cons_self)⟩
  | false =>
      rw [quoteChars_of_not_plain hname]
      exact ⟨'"', _, rfl, .inr rfl⟩

/-- A plain name is not empty and has no quote in it. -/
theorem plain_append_ne_quote {name s t : List Char} (h : isPlainName name = true) :
    name ++ s ≠ '"' :: t := by
  intro heq
  cases name with
  | nil => cases h
  | cons c name =>
      exact ne_quote_of_isPlain (isPlain_of_isPlainName h c List.mem_cons_self)
        (List.cons.inj heq).1

theorem quoteChars_append_unique {name other s t : List Char}
    (hs : Follows s) (ht : Follows t) (h : quoteChars name ++ s = quoteChars other ++ t) :
    name = other ∧ s = t := by
  cases hname : isPlainName name with
  | true =>
      rw [quoteChars_of_plain hname] at h
      cases hother : isPlainName other with
      | true =>
          rw [quoteChars_of_plain hother] at h
          exact word_append_unique (isPlain_of_isPlainName hname)
            (isPlain_of_isPlainName hother) (fun c hc => (hs c hc).1)
            (fun c hc => (ht c hc).1) h
      | false =>
          rw [quoteChars_of_not_plain hother] at h
          exact absurd h (plain_append_ne_quote hname)
  | false =>
      rw [quoteChars_of_not_plain hname] at h
      cases hother : isPlainName other with
      | true =>
          rw [quoteChars_of_plain hother] at h
          exact absurd h.symm (plain_append_ne_quote hother)
      | false =>
          rw [quoteChars_of_not_plain hother] at h
          simp only [List.cons_append, List.append_assoc, List.nil_append,
            List.cons.injEq, true_and] at h
          exact doubled_append_unique hs ht h

/-! ## Identifiers joined by points -/

theorem toList_quote (name : String) : (quote name).toList = quoteChars name.toList :=
  String.toList_ofList

theorem qualified_singleton (name : String) :
    (qualified [name]).toList = quoteChars name.toList := by
  rw [qualified, List.map_singleton, String.intercalate_singleton, toList_quote]

theorem qualified_cons_cons (name next : String) (names : List String) :
    (qualified (name :: next :: names)).toList =
      quoteChars name.toList ++ '.' :: (qualified (next :: names)).toList := by
  rw [qualified, List.map_cons, List.map_cons, String.intercalate_cons_cons,
    String.toList_append, String.toList_append, toList_quote, List.append_assoc]
  rfl

/-- A dotted name and what follows it, taken apart at the first identifier:
what follows that starts with a point if there are more of them. -/
theorem qualified_append (name : String) (names : List String) (s : List Char) :
    ∃ rest, (qualified (name :: names)).toList ++ s = quoteChars name.toList ++ rest ∧
      (rest = s ∨ ∃ tail, rest = '.' :: tail) := by
  cases names with
  | nil => exact ⟨s, by rw [qualified_singleton], .inl rfl⟩
  | cons next names =>
      refine ⟨_, ?_, .inr ⟨(qualified (next :: names)).toList ++ s, rfl⟩⟩
      rw [qualified_cons_cons, List.append_assoc]
      rfl

/-- What can follow a dotted name, which a point would carry on. -/
def FollowsPath (rest : List Char) : Prop :=
  ∀ c ∈ rest.head?, isPlain c = false ∧ c ≠ '"' ∧ c ≠ '.'

theorem FollowsPath.follows {rest : List Char} (h : FollowsPath rest) : Follows rest :=
  fun c hc => ⟨(h c hc).1, (h c hc).2.1⟩

theorem FollowsPath.ne_point {rest tail : List Char} (h : FollowsPath rest) :
    rest ≠ '.' :: tail := by
  rintro rfl
  exact (h '.' rfl).2.2 rfl

theorem qualified_append_unique {names others : List String} {s t : List Char}
    (hnames : names ≠ []) (hothers : others ≠ []) (hs : FollowsPath s) (ht : FollowsPath t)
    (h : (qualified names).toList ++ s = (qualified others).toList ++ t) :
    names = others ∧ s = t := by
  induction names generalizing others with
  | nil => exact absurd rfl hnames
  | cons name names ih =>
      cases others with
      | nil => exact absurd rfl hothers
      | cons other others =>
          cases names with
          | nil =>
              rw [qualified_singleton] at h
              cases others with
              | nil =>
                  rw [qualified_singleton] at h
                  obtain ⟨hname, hrest⟩ :=
                    quoteChars_append_unique hs.follows ht.follows h
                  exact ⟨by rw [String.toList_inj.1 hname], hrest⟩
              | cons next others =>
                  rw [qualified_cons_cons, List.append_assoc] at h
                  have hpoint :=
                    (quoteChars_append_unique hs.follows (follows_point _) h).2
                  exact absurd hpoint hs.ne_point
          | cons next names =>
              rw [qualified_cons_cons, List.append_assoc] at h
              cases others with
              | nil =>
                  rw [qualified_singleton] at h
                  have hpoint :=
                    (quoteChars_append_unique (follows_point _) ht.follows h).2
                  exact absurd hpoint.symm ht.ne_point
              | cons next' others =>
                  rw [qualified_cons_cons, List.append_assoc] at h
                  obtain ⟨hname, hrest⟩ :=
                    quoteChars_append_unique (follows_point _) (follows_point _) h
                  obtain ⟨hnames, hst⟩ := ih (List.cons_ne_nil _ _)
                    (List.cons_ne_nil _ _) (List.cons.inj hrest).2
                  exact ⟨by rw [String.toList_inj.1 hname, hnames], hst⟩

/-- After the characters of a plain name, a dotted name goes on with none but
a quote, a point or what follows it. -/
theorem qualified_append_ne {names : List String} {word s t : List Char} {c : Char}
    (hnames : names ≠ []) (hword : ∀ d ∈ word, isPlain d = true)
    (hc : isPlain c = false ∧ c ≠ '"' ∧ c ≠ '.') (hs : FollowsPath s)
    (hsc : s.head? ≠ some c) :
    (qualified names).toList ++ s ≠ word ++ c :: t := by
  intro h
  cases names with
  | nil => exact hnames rfl
  | cons name names =>
      obtain ⟨rest, hsplit, hrest⟩ := qualified_append name names s
      rw [hsplit] at h
      cases hname : isPlainName name.toList with
      | true =>
          rw [quoteChars_of_plain hname] at h
          have hfollows : Follows rest := by
            rcases hrest with rfl | ⟨tail, rfl⟩
            · exact hs.follows
            · exact follows_point tail
          have hafter : rest = c :: t :=
            (word_append_unique (isPlain_of_isPlainName hname) hword
              (fun d hd => (hfollows d hd).1) (by rintro d ⟨⟩; exact hc.1) h).2
          rcases hrest with rfl | ⟨tail, rfl⟩
          · exact hsc (by rw [hafter]; rfl)
          · exact hc.2.2 (List.cons.inj hafter).1.symm
      | false =>
          rw [quoteChars_of_not_plain hname] at h
          cases word with
          | nil => exact hc.2.1 (List.cons.inj h).1.symm
          | cons d word =>
              exact ne_quote_of_isPlain (hword d List.mem_cons_self)
                (List.cons.inj h).1.symm

end Identifier

end JsonbAlgebra
