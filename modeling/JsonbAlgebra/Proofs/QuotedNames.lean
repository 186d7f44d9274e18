import JsonbAlgebra.Proofs.NameScanning
import JsonbAlgebra.Proofs.PhraseDrafts
import JsonbAlgebra.Proofs.PlaceholderReading

/-!
# The names in quotes in a statement

A reader that skips all text outside double quotes finds the names that are written in
quotes.  In a PostgreSQL statement these are the names of tables and columns that are not
plain, in the order in which they are written and each as often as it is written: marks,
operators and words have no quotes in them, and what is written behind a name never
doubles its closing quote.
-/

namespace JsonbAlgebra

namespace Identifier

/-- The names in double quotes in a text, from left to right. -/
def quotedNames : List Char → List String
  | [] => []
  | c :: text =>
    if c = '"' then
      match h : takeQuoted text with
      | some (name, rest) =>
        have : rest.length < text.length := length_lt_of_takeQuoted h
        String.ofList name :: quotedNames rest
      | none => []
    else quotedNames text
termination_by text => text.length

/-- The names that are written in quotes. -/
def notPlain (names : List String) : List String :=
  names.filter fun name => !isPlainName name.toList

theorem notPlain_append (names others : List String) :
    notPlain (names ++ others) = notPlain names ++ notPlain others :=
  List.filter_append ..

/-- The empty name is never plain. -/
theorem empty_mem_notPlain {names : List String} : "" ∈ notPlain names ↔ "" ∈ names := by
  rw [notPlain, List.mem_filter]
  exact and_iff_left rfl

theorem quotedNames_quote {text name rest : List Char} (h : takeQuoted text = some (name, rest)) :
    quotedNames ('"' :: text) = String.ofList name :: quotedNames rest := by
  rw [quotedNames, if_pos rfl]
  split
  · rename_i hother
    cases h.symm.trans hother
    rfl
  · rename_i hnone
    cases h.symm.trans hnone

/-! ## Texts around names -/

/-- A text in which the reader finds names, whatever can follow it. -/
def Shows (names : List String) (text : List Char) : Prop :=
  ∀ rest, Follows rest → quotedNames (text ++ rest) = names ++ quotedNames rest

def NoQuote (text : List Char) : Prop :=
  ∀ c ∈ text, c ≠ '"'

theorem NoQuote.quotedNames_append {text : List Char} (h : NoQuote text) (rest : List Char) :
    quotedNames (text ++ rest) = quotedNames rest := by
  induction text with
  | nil => rfl
  | cons c text ih =>
      obtain ⟨hc, htext⟩ := List.forall_mem_cons.1 h
      rw [List.cons_append, quotedNames, if_neg hc, ih htext]

theorem NoQuote.append {first second : List Char} (hfirst : NoQuote first)
    (hsecond : NoQuote second) : NoQuote (first ++ second) :=
  List.forall_mem_append.2 ⟨hfirst, hsecond⟩

theorem NoQuote.shows {text : List Char} (h : NoQuote text) : Shows [] text :=
  fun rest _ => h.quotedNames_append rest

theorem NoQuote.append_shows {names : List String} {first second : List Char}
    (hfirst : NoQuote first) (hsecond : Shows names second) : Shows names (first ++ second) := by
  intro rest hrest
  rw [List.append_assoc, hfirst.quotedNames_append, hsecond rest hrest]

theorem follows_of_delimiter {c : Char} (hc : Placeholder.IsDelimiter c) (rest : List Char) :
    Follows (c :: rest) := by
  rintro d ⟨⟩
  rcases hc with rfl | rfl | rfl | rfl | rfl <;> decide

theorem Shows.append {names others : List String} {first second : List Char}
    (hfirst : Shows names first) (hsecond : Shows others second)
    (hdelimiter : ∃ c ∈ second.head?, Placeholder.IsDelimiter c) :
    Shows (names ++ others) (first ++ second) := by
  obtain ⟨c, hhead, hc⟩ := hdelimiter
  obtain ⟨tail, rfl⟩ := List.head?_eq_some_iff.1 hhead
  intro rest hrest
  have hfollows : Follows (c :: tail ++ rest) := follows_of_delimiter hc _
  rw [List.append_assoc, hfirst _ hfollows, hsecond rest hrest, List.append_assoc]

theorem shows_quoteChars (name : String) : Shows (notPlain [name]) (quoteChars name.toList) := by
  intro rest hrest
  cases hname : isPlainName name.toList with
  | true =>
      have hplain : NoQuote name.toList := fun c hc =>
        ne_quote_of_isPlain (isPlain_of_isPlainName hname c hc)
      have hnone : notPlain [name] = [] := by simp [notPlain, hname]
      rw [quoteChars_of_plain hname, hnone, hplain.quotedNames_append, List.nil_append]
  | false =>
      have hone : notPlain [name] = [name] := by simp [notPlain, hname]
      rw [quoteChars_of_not_plain hname, List.cons_append, List.append_assoc,
        List.singleton_append, quotedNames_quote (takeQuoted_doubled _ hrest), hone,
        String.ofList_toList, List.singleton_append]

theorem shows_qualified (names : List String) : Shows (notPlain names) (qualified names).toList := by
  have hpoint : NoQuote ['.'] := List.forall_mem_singleton.2 (by decide)
  induction names with
  | nil => exact NoQuote.shows nofun
  | cons name names ih =>
      cases names with
      | nil =>
          rw [qualified_singleton]
          exact shows_quoteChars name
      | cons next names =>
          have hall := (shows_quoteChars name).append (hpoint.append_shows ih)
            ⟨'.', rfl, by simp [Placeholder.IsDelimiter]⟩
          rw [← notPlain_append] at hall
          rw [qualified_cons_cons]
          exact hall

end Identifier

/-! ## Drafts -/

namespace Draft

open Identifier

/-- A draft whose text shows names, whatever its marks are. -/
def Shows (names : List String) (draft : Draft) : Prop :=
  ∀ style position, Identifier.Shows names (textFrom style position draft).toList

theorem shows_nil : Shows [] [] :=
  fun _ _ _ _ => rfl

theorem Shows.cons_noQuote {names : List String} {text : String} {draft : Draft}
    (htext : NoQuote text.toList) (h : Shows names draft) : Shows names (.sql text :: draft) := by
  intro style position
  rw [textFrom, String.toList_append]
  exact htext.append_shows (h style position)

/-- A draft and another that starts with a separating text. -/
theorem Shows.append_separated {names others : List String} {first rest : Draft} {text : String}
    (hfirst : Shows names first) (htext : Separates text)
    (hrest : Shows others (.sql text :: rest)) :
    Shows (names ++ others) (first ++ .sql text :: rest) := by
  obtain ⟨c, hhead, hc⟩ := htext
  obtain ⟨tail, hchars⟩ := List.head?_eq_some_iff.1 hhead
  intro style position
  rw [textFrom_append, String.toList_append]
  refine (hfirst style position).append (hrest style _) ⟨c, ?_, hc⟩
  rw [textFrom, String.toList_append, hchars]
  rfl

theorem shows_name (names : List String) :
    Shows (notPlain names) [.sql (qualified names)] := by
  intro style position
  rw [textFrom, textFrom, String.append_empty]
  exact shows_qualified names

theorem noQuote_mark (style : Placeholder) (position : Nat) :
    NoQuote (style.mark position).toList := by
  cases style with
  | anonymous => simp [Placeholder.mark, NoQuote]
  | numbered =>
      have htext : (Placeholder.mark .numbered position).toList =
          '$' :: Nat.toDigits 10 position := by simp [Placeholder.mark]
      rw [htext]
      refine List.forall_mem_cons.2 ⟨by decide, fun c hc => ?_⟩
      have hdigit : c.isDigit = true := Nat.isDigit_of_mem_toDigits (by omega) (by omega) hc
      rintro rfl
      cases hdigit

theorem noQuote_marks (style : Placeholder) (position : Nat) (constant : Constant) :
    NoQuote (marks style position constant).toList := by
  have hjoined (texts : List String) (h : ∀ text ∈ texts, NoQuote text.toList) :
      NoQuote (", ".intercalate texts).toList := by
    have hcomma : NoQuote ", ".toList := by simp [NoQuote]
    induction texts with
    | nil => exact nofun
    | cons text texts ih =>
        obtain ⟨htext, htexts⟩ := List.forall_mem_cons.1 h
        cases texts with
        | nil =>
            rw [String.intercalate_singleton]
            exact htext
        | cons next texts =>
            rw [String.intercalate_cons_cons, String.toList_append, String.toList_append]
            exact (htext.append hcomma).append (ih htexts)
  unfold marks
  cases constant.literal with
  | list values =>
      have hopening : NoQuote "(".toList := by simp [NoQuote]
      have hclosing : NoQuote ")".toList := by simp [NoQuote]
      rw [String.toList_append, String.toList_append]
      refine (hopening.append (hjoined _ fun text htext => ?_)).append hclosing
      obtain ⟨place, -, rfl⟩ := List.mem_map.1 htext
      exact noQuote_mark style place
  | null | scalar | array => exact noQuote_mark style position

theorem shows_parameter (constant : Constant) : Shows [] [.parameter constant] := by
  intro style position
  rw [textFrom, textFrom, String.append_empty]
  exact (noQuote_marks style position constant).shows

theorem shows_separate {separator : String} (hquote : NoQuote separator.toList)
    (hseparates : Separates separator) {names : List (List String)} {drafts : List Draft}
    (h : List.Forall₂ Shows names drafts) : Shows names.flatten (separate separator drafts) := by
  induction h with
  | nil => exact shows_nil
  | @cons first draft names drafts hfirst hothers ih =>
      cases hothers with
      | nil =>
          rw [List.flatten_singleton]
          exact hfirst
      | cons =>
          rw [separate_cons_cons, List.flatten_cons]
          exact hfirst.append_separated hseparates (ih.cons_noQuote hquote)

end Draft

/-! ## Phrases -/

namespace Phrase

open Identifier

theorem noQuote_of_quiet {text : List Char} (h : Placeholder.Quiet text) : NoQuote text :=
  fun c hc => (h c hc).1

section

variable {phrase : Phrase} (hphrase : phrase.Unmarked)
include hphrase

theorem Unmarked.noQuote_opening : NoQuote phrase.opening.toList := by
  cases phrase <;>
    simp_all [opening, NoQuote, Unmarked, Placeholder.Quiet, or_imp, forall_and]

/-- The induction is on the operands that are left; what stands before them ends with an
operand, which the link or the closing behind it breaks off. -/
theorem Unmarked.shows_laterDraft {names : List (List String)} {operands : List Draft}
    (hoperands : List.Forall₂ Draft.Shows names operands) {before : List String} {first : Draft}
    (hfirst : Draft.Shows before first) (index : Nat) :
    Draft.Shows (before ++ names.flatten) (first ++ phrase.laterDraft index operands) := by
  induction hoperands generalizing before first index with
  | nil =>
      have hclosing := Draft.shows_nil.cons_noQuote (noQuote_of_quiet hphrase.quiet_closing)
      exact hfirst.append_separated phrase.separates_closing hclosing
  | @cons own operand names operands hoperand _ ih =>
      have hlink := hoperand.cons_noQuote (noQuote_of_quiet (hphrase.quiet_link index))
      have hjoined := ih (hfirst.append_separated (phrase.separates_link index) hlink) (index + 1)
      rw [List.append_assoc, List.append_assoc, List.cons_append] at hjoined
      exact hjoined

theorem Unmarked.shows_draft {names : List (List String)} {operands : List Draft}
    (hoperands : List.Forall₂ Draft.Shows names operands) :
    Draft.Shows names.flatten (phrase.draft operands) := by
  cases hoperands with
  | nil =>
      have hclosing := Draft.shows_nil.cons_noQuote (noQuote_of_quiet hphrase.quiet_closing)
      exact hclosing.cons_noQuote hphrase.noQuote_opening
  | cons hfirst hothers =>
      exact (hphrase.shows_laterDraft hothers hfirst 0).cons_noQuote hphrase.noQuote_opening

end

end Phrase

/-! ## Statements -/

/-- The names of the references in an expression, from left to right. -/
def Expr.names (e : Expr) : List String :=
  e.columns.flatMap ColumnRef.identifiers

theorem Expr.columnsAll_eq_flatMap (operands : List Expr) :
    columnsAll operands = operands.flatMap columns := by
  induction operands with
  | nil => rw [columnsAll, List.flatMap_nil]
  | cons operand operands ih => rw [columnsAll, List.flatMap_cons, ih]

theorem Identifier.flatten_notPlain {α : Type} (f : α → List String) (items : List α) :
    (items.map fun item => notPlain (f item)).flatten = notPlain (items.flatMap f) := by
  rw [← List.flatMap_def, notPlain, List.filter_flatMap]
  rfl

namespace Dialect

open Identifier

theorem shows_draft {e : Expr} (he : e.WellFormed) {draft : Draft}
    (h : postgres.draft e = .ok draft) : Draft.Shows (notPlain e.names) draft := by
  induction e generalizing draft with
  | column ref =>
      cases h
      rw [Expr.names, Expr.columns, List.flatMap_singleton]
      exact Draft.shows_name ref.identifiers
  | constant value =>
      cases h
      exact Draft.shows_parameter value
  | operation operator operands ih =>
      obtain ⟨hfault, hoperands⟩ := Expr.wellFormed_operation_iff.1 he
      obtain ⟨drafts, hdrafts, rfl⟩ := postgres_draft_operation_eq_ok hfault h
      have hshown : List.Forall₂ Draft.Shows
          (operands.map fun operand => notPlain operand.names) drafts :=
        List.forall₂_map_left_iff.2 (forall₂_imp_of_mem hdrafts fun operand hmem _ hdraft =>
          ih operand hmem (hoperands operand hmem) hdraft)
      have hnames : (Expr.operation operator operands).names = operands.flatMap Expr.names := by
        rw [Expr.names, Expr.columns, Expr.columnsAll_eq_flatMap, List.flatMap_assoc]
        rfl
      rw [hnames, ← flatten_notPlain]
      exact (postgresPhrase_unmarked operator _).shows_draft hshown

/-- The names that an assignment writes: the segments of its column and those of its
value. -/
def assignedNames (assignment : Assignment) : List String :=
  assignment.target.segments ++ assignment.value.names

theorem shows_assignment {assignment : Assignment} (hvalue : assignment.value.WellFormed)
    {draft : Draft} (h : postgres.draftAssignment assignment = .ok draft) :
    Draft.Shows (notPlain (assignedNames assignment)) draft := by
  obtain ⟨value, hdraft, rfl⟩ := draftAssignment_eq_ok.1 h
  have hequals : NoQuote " = ".toList := by simp [NoQuote]
  have hname := Draft.shows_name assignment.target.segments
  have hall := hname.append_separated (by simp [Draft.Separates, Placeholder.IsDelimiter])
    ((shows_draft hvalue hdraft).cons_noQuote hequals)
  rw [assignedNames, notPlain_append]
  intro style position
  have htext := hall style position
  rwa [List.singleton_append, Draft.textFrom, Draft.textFrom, ← String.append_assoc] at htext

theorem shows_filter {names : List String} {draft condition : Draft} {filter : Option Expr}
    (hfilter : ∀ condition, filter = some condition → condition.WellFormed)
    (hdraft : Draft.Shows names draft) (h : postgres.draftFilter filter = .ok condition) :
    Draft.Shows (names ++ notPlain (filter.elim [] Expr.names)) (draft ++ condition) := by
  cases filter with
  | none =>
      obtain rfl := draftFilter_none.1 h
      rw [List.append_nil]
      exact (List.append_nil names).symm ▸ hdraft
  | some filter =>
      obtain ⟨-, condition, hcondition, rfl⟩ := draftFilter_some.1 h
      have hwhere : NoQuote " WHERE ".toList := by simp [NoQuote]
      have hshown := shows_draft (hfilter filter rfl) hcondition
      exact hdraft.append_separated (by simp [Draft.Separates, Placeholder.IsDelimiter])
        (hshown.cons_noQuote hwhere)

/-- The names that an update writes: those of its table, of its assignments and of its
filter. -/
def updatedNames (table : String) (lowered : List Assignment) (filter : Option Expr) :
    List String :=
  Text.pieces table ++ (lowered.flatMap assignedNames ++ filter.elim [] Expr.names)

theorem shows_update {update : Update} {filter : Option Expr} {lowered : List Assignment}
    (hupdate : update.WellFormed)
    (hfilter : ∀ condition, filter = some condition → condition.WellFormed)
    (hlower : update.lower = .ok lowered) {draft : Draft}
    (h : postgres.draftUpdate update filter = .ok draft) :
    Draft.Shows (notPlain (updatedNames update.table lowered filter)) draft := by
  obtain ⟨assignments, drafts, condition, hassignments, hdrafts, hcondition, rfl⟩ :=
    draftUpdate_eq_ok.1 h
  obtain rfl := Except.ok.inj (hlower.symm.trans hassignments)
  have hwell := hupdate.lower hlower
  have hshown : List.Forall₂ Draft.Shows
      (lowered.map fun assignment => notPlain (assignedNames assignment)) drafts :=
    List.forall₂_map_left_iff.2 (forall₂_imp_of_mem hdrafts fun assignment hmem _ hdraft =>
      shows_assignment (hwell assignment hmem) hdraft)
  have hcomma : NoQuote ", ".toList := by simp [NoQuote]
  have hopening : NoQuote "UPDATE ".toList := by simp [NoQuote]
  have hset : NoQuote " SET ".toList := by simp [NoQuote]
  have hjoined := Draft.shows_separate hcomma
    (by simp [Draft.Separates, Placeholder.IsDelimiter]) hshown
  rw [flatten_notPlain] at hjoined
  have hbehind := (shows_filter hfilter hjoined hcondition).cons_noQuote hset
  have htable := Draft.shows_name (Text.pieces update.table)
  have hall := (htable.append_separated (by simp [Draft.Separates, Placeholder.IsDelimiter])
    hbehind).cons_noQuote hopening
  rw [updatedNames, notPlain_append, notPlain_append]
  intro style position
  have htext := hall style position
  rwa [List.singleton_append, Draft.textFrom, Draft.textFrom, Draft.textFrom,
    ← String.append_assoc, ← String.append_assoc] at htext

theorem quotedNames_finish {draft : Draft} {names : List String} (h : Draft.Shows names draft)
    (style : Placeholder) : quotedNames (draft.finish style).sql.toList = names := by
  have hend : Follows [] := nofun
  have hall := h style 1 [] hend
  rw [List.append_nil, quotedNames, List.append_nil] at hall
  exact hall

/-- The names in quotes in the statement of an expression are those of its columns that
are not plain. -/
theorem quotedNames_compile {style : Placeholder} {e : Expr} {statement : Statement}
    (he : e.WellFormed) (h : postgres.compile style e = .ok statement) :
    quotedNames statement.sql.toList = notPlain e.names := by
  obtain ⟨draft, hdraft, rfl⟩ := compile_eq_ok.1 h
  exact quotedNames_finish (shows_draft he hdraft) style

theorem quotedNames_compileUpdate {style : Placeholder} {update : Update} {filter : Option Expr}
    {lowered : List Assignment} {statement : Statement} (hupdate : update.WellFormed)
    (hfilter : ∀ condition, filter = some condition → condition.WellFormed)
    (hlower : update.lower = .ok lowered)
    (h : postgres.compileUpdate style update filter = .ok statement) :
    quotedNames statement.sql.toList = notPlain (updatedNames update.table lowered filter) := by
  obtain ⟨draft, hdraft, rfl⟩ := compileUpdate_eq_ok.1 h
  exact quotedNames_finish (shows_update hupdate hfilter hlower hdraft) style

end Dialect

end JsonbAlgebra
