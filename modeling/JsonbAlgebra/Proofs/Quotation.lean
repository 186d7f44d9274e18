import JsonbAlgebra.Proofs.IdentifierReading

/-!
# Characters outside quotes

A reader that looks for one character in a text has to skip what stands between
double quotes.  It may count every quote as the begin or the end of a quotation,
since a doubled quote ends one and begins another at once.

Identifiers are skipped as a whole whatever their names are, so the points between
joined identifiers are the ones that the reader finds, and the names can be read
back from the pieces.
-/

namespace JsonbAlgebra

namespace Text

/-- A text that starts inside quotes or outside, split at a mark outside of them:
what stands before the first mark, and what stands behind each. -/
def splitBare (mark : Char) : Bool → List Char → List Char × List (List Char)
  | _, [] => ([], [])
  | quoted, c :: rest =>
    let later := splitBare mark (if c = '"' then !quoted else quoted) rest
    if c = mark ∧ quoted = false then ([], later.1 :: later.2) else (c :: later.1, later.2)

/-- The number of marks outside quotes. -/
def bareMarks (mark : Char) (text : List Char) : Nat :=
  (splitBare mark false text).2.length

/-- A text that the search for a mark passes over, whatever follows it. -/
def Closed (mark : Char) (text : List Char) : Prop :=
  ∀ rest, splitBare mark false (text ++ rest) =
    (text ++ (splitBare mark false rest).1, (splitBare mark false rest).2)

/-- A text that adds a number of bare marks to those that follow it. -/
def Bears (mark : Char) (count : Nat) (text : List Char) : Prop :=
  ∀ rest, bareMarks mark (text ++ rest) = count + bareMarks mark rest

section

variable {mark : Char} {first second : List Char}

theorem Closed.append (hfirst : Closed mark first) (hsecond : Closed mark second) :
    Closed mark (first ++ second) := by
  intro rest
  rw [List.append_assoc, hfirst, hsecond, List.append_assoc]

theorem Closed.append_string {start next : String} (hstart : Closed mark start.toList)
    (hnext : Closed mark next.toList) : Closed mark (start ++ next).toList := by
  rw [String.toList_append]
  exact hstart.append hnext

theorem Closed.bears (h : Closed mark first) : Bears mark 0 first := by
  intro rest
  rw [bareMarks, h, Nat.zero_add, bareMarks]

theorem Bears.append {count more : Nat} (hfirst : Bears mark count first)
    (hsecond : Bears mark more second) : Bears mark (count + more) (first ++ second) := by
  intro rest
  rw [List.append_assoc, hfirst, hsecond, Nat.add_assoc]

theorem Bears.bareMarks_eq {count : Nat} (h : Bears mark count first) :
    bareMarks mark first = count := by
  have hall := h []
  rw [List.append_nil] at hall
  exact hall

theorem closed_nil : Closed mark [] :=
  fun _ => rfl

theorem splitBare_cons_of_ne {c : Char} {quoted : Bool} (hquote : c ≠ '"')
    (hmark : c ≠ mark ∨ quoted = true) (rest : List Char) :
    splitBare mark quoted (c :: rest) =
      (c :: (splitBare mark quoted rest).1, (splitBare mark quoted rest).2) := by
  have hnot : ¬ (c = mark ∧ quoted = false) := by
    rintro ⟨rfl, rfl⟩
    simp at hmark
  rw [splitBare, if_neg hquote, if_neg hnot]

theorem splitBare_quote (hmark : mark ≠ '"') (quoted : Bool) (rest : List Char) :
    splitBare mark quoted ('"' :: rest) =
      ('"' :: (splitBare mark (!quoted) rest).1, (splitBare mark (!quoted) rest).2) := by
  have hnot : ¬ ('"' = mark ∧ quoted = false) := fun h => hmark h.1.symm
  rw [splitBare, if_pos rfl, if_neg hnot]

theorem splitBare_mark (hmark : mark ≠ '"') (rest : List Char) :
    splitBare mark false (mark :: rest) =
      ([], (splitBare mark false rest).1 :: (splitBare mark false rest).2) := by
  rw [splitBare, if_neg hmark, if_pos ⟨rfl, rfl⟩]

theorem bears_mark (hmark : mark ≠ '"') : Bears mark 1 [mark] := by
  intro rest
  rw [List.singleton_append, bareMarks, splitBare_mark hmark, List.length_cons, bareMarks,
    Nat.add_comm]

theorem closed_of_forall_ne {text : List Char} (h : ∀ c ∈ text, c ≠ '"' ∧ c ≠ mark) :
    Closed mark text := by
  intro rest
  induction text with
  | nil => rfl
  | cons c text ih =>
      obtain ⟨⟨hquote, hmark⟩, htext⟩ := List.forall_mem_cons.1 h
      rw [List.cons_append, splitBare_cons_of_ne hquote (.inl hmark), ih htext]
      rfl

theorem closed_of_all {text : List Char} (h : text.all (fun c => c != '"' && c != mark) = true) :
    Closed mark text := by
  apply closed_of_forall_ne
  intro c hc
  have hother := List.all_eq_true.1 h c hc
  rw [Bool.and_eq_true, bne_iff_ne, bne_iff_ne] at hother
  exact hother

end

end Text

namespace Identifier

open Text

section

variable {mark : Char} (hmark : mark ≠ '"')
include hmark

/-- Between the quotes of a name nothing is bare: a doubled quote leaves the
quotation with nothing before the next begins. -/
theorem splitBare_doubled (name rest : List Char) :
    splitBare mark true (name.flatMap doubled ++ '"' :: rest) =
      (name.flatMap doubled ++ '"' :: (splitBare mark false rest).1,
        (splitBare mark false rest).2) := by
  induction name with
  | nil => exact splitBare_quote hmark true rest
  | cons c name ih =>
      rw [List.flatMap_cons, List.append_assoc]
      by_cases hc : c = '"'
      · have hdoubled : doubled c = ['"', '"'] := if_pos hc
        rw [hdoubled, List.cons_append, List.cons_append, splitBare_quote hmark,
          splitBare_quote hmark, List.nil_append, Bool.not_true, Bool.not_false, ih]
        rfl
      · have hdoubled : doubled c = [c] := if_neg hc
        rw [hdoubled, List.singleton_append, splitBare_cons_of_ne hc (.inr rfl), ih]
        rfl

theorem closed_quoteChars (hplain : isPlain mark = false) (name : List Char) :
    Closed mark (quoteChars name) := by
  cases hname : isPlainName name with
  | true =>
      rw [quoteChars_of_plain hname]
      refine closed_of_forall_ne fun c hc => ?_
      have hc := isPlain_of_isPlainName hname c hc
      refine ⟨ne_quote_of_isPlain hc, ?_⟩
      rintro rfl
      rw [hplain] at hc
      cases hc
  | false =>
      intro rest
      rw [quoteChars_of_not_plain hname, List.cons_append, List.append_assoc,
        List.singleton_append, splitBare_quote hmark, Bool.not_false, splitBare_doubled hmark,
        List.cons_append, List.append_assoc, List.singleton_append]

theorem closed_qualified (hplain : isPlain mark = false) (hpoint : mark ≠ '.')
    (names : List String) : Closed mark (qualified names).toList := by
  have hlink : Closed mark ['.'] :=
    closed_of_forall_ne (List.forall_mem_singleton.2 ⟨by decide, hpoint.symm⟩)
  induction names with
  | nil => exact closed_nil
  | cons name names ih =>
      have hname := closed_quoteChars hmark hplain name.toList
      cases names with
      | nil =>
          rw [qualified_singleton]
          exact hname
      | cons next names =>
          rw [qualified_cons_cons]
          exact hname.append (hlink.append ih)

end

/-! ## Names read back -/

/-- A name from what stands behind its opening quote. -/
def readQuoted : List Char → Option (List Char)
  | [] => none
  | ['"'] => some []
  | '"' :: '"' :: rest => (readQuoted rest).map ('"' :: ·)
  | c :: rest => if c = '"' then none else (readQuoted rest).map (c :: ·)

def readName : List Char → Option String
  | '"' :: rest => (readQuoted rest).map String.ofList
  | word => if isPlainName word then some (String.ofList word) else none

/-- The names of identifiers that are joined by points. -/
def readNames (text : List Char) : Option (List String) :=
  let pieces := splitBare '.' false text
  (pieces.1 :: pieces.2).mapM readName

theorem readQuoted_doubled (name : List Char) :
    readQuoted (name.flatMap doubled ++ ['"']) = some name := by
  induction name with
  | nil => rfl
  | cons c name ih =>
      rw [List.flatMap_cons, List.append_assoc]
      by_cases hc : c = '"'
      · have hdoubled : doubled c = ['"', '"'] := if_pos hc
        rw [hdoubled, hc, List.cons_append, List.cons_append, List.nil_append, readQuoted, ih]
        rfl
      · have hdoubled : doubled c = [c] := if_neg hc
        rw [hdoubled, List.singleton_append, readQuoted]
        · rw [if_neg hc, ih]
          rfl
        · exact fun h => absurd h hc
        · exact fun _ h => absurd h hc

theorem readName_quoteChars (name : String) : readName (quoteChars name.toList) = some name := by
  cases hname : isPlainName name.toList with
  | true =>
      rw [quoteChars_of_plain hname, readName, if_pos hname, String.ofList_toList]
      intro rest hquote
      rw [hquote] at hname
      cases hname
  | false =>
      rw [quoteChars_of_not_plain hname, readName, readQuoted_doubled, Option.map_some,
        String.ofList_toList]

theorem splitBare_qualified (name : String) (names : List String) :
    splitBare '.' false (qualified (name :: names)).toList =
      (quoteChars name.toList, names.map fun name => quoteChars name.toList) := by
  have hclosed (name : String) : Closed '.' (quoteChars name.toList) :=
    closed_quoteChars (by decide) (by decide) name.toList
  induction names generalizing name with
  | nil =>
      have hend := hclosed name []
      rw [List.append_nil] at hend
      rw [qualified_singleton, hend]
      exact congrArg (·, []) (List.append_nil _)
  | cons next names ih =>
      rw [qualified_cons_cons, hclosed name, splitBare_mark (by decide), ih, List.append_nil]
      rfl

theorem mapM_readName (names : List String) :
    (names.map fun name => quoteChars name.toList).mapM readName = some names := by
  induction names with
  | nil => rfl
  | cons name names ih =>
      rw [List.map_cons, List.mapM_cons, readName_quoteChars, ih]
      rfl

/-- Identifiers joined by points are read back as the names they are made of. -/
theorem readNames_qualified {names : List String} (h : names ≠ []) :
    readNames (qualified names).toList = some names := by
  cases names with
  | nil => exact absurd rfl h
  | cons name names =>
      rw [readNames, splitBare_qualified]
      exact mapM_readName (name :: names)

end Identifier

end JsonbAlgebra
