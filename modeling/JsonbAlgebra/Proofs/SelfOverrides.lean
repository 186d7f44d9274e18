import JsonbAlgebra.Proofs.LocalOverrides
import JsonbAlgebra.Proofs.PhraseDrafts
import JsonbAlgebra.Proofs.PostgresParameters
import Mathlib.Algebra.GroupWithZero.Nat

/-!
# Patterns overridden by themselves

A pattern in the settings replaces a whole template.  If it is the pattern that the
operator has anyway, the separator and the pattern for paths are lost all the same.
That shows in conjunctions and disjunctions, which are no longer written with a word
between their operands, and where a value is got along a path, which is no longer
written with a hash sign.  Everything else is compiled as before.

That such a statement differs is shown by counting the blanks and hash signs of its
text.  The marks have the same ones, and every altered operation has fewer in each of
its links, so nothing can make up for the loss.
-/

namespace JsonbAlgebra

/-! ## Counting blanks and hash signs -/

/-- The number of blanks and hash signs in a text. -/
def Text.gaps (text : String) : Nat :=
  text.toList.countP fun c => c == ' ' || c == '#'

theorem Text.gaps_append (first second : String) :
    gaps (first ++ second) = gaps first + gaps second := by
  simp [gaps]

namespace Draft

/-- The blanks and hash signs in the SQL of a draft, whatever its marks are. -/
def gaps : Draft → Nat
  | [] => 0
  | .sql text :: rest => Text.gaps text + gaps rest
  | .parameter _ :: rest => gaps rest

/-- The blanks and hash signs in the marks of constants from a position on. -/
def markGaps (style : Placeholder) : Nat → List Constant → Nat
  | _, [] => 0
  | position, constant :: constants =>
    Text.gaps (marks style position constant) +
      markGaps style (position + constant.slots) constants

theorem gaps_append (first second : Draft) :
    gaps (first ++ second) = gaps first + gaps second := by
  induction first with
  | nil => simp [gaps]
  | cons part rest ih =>
      cases part with
      | sql text => simp [gaps, ih, Nat.add_assoc]
      | parameter constant => simp [gaps, ih]

theorem gaps_textFrom (style : Placeholder) (position : Nat) (draft : Draft) :
    Text.gaps (textFrom style position draft) =
      gaps draft + markGaps style position (parameters draft) := by
  induction draft generalizing position with
  | nil => rfl
  | cons part rest ih =>
      cases part with
      | sql text => simp [textFrom, Text.gaps_append, ih, gaps, Nat.add_assoc]
      | parameter constant =>
          simp only [textFrom, Text.gaps_append, ih, gaps, parameters_parameter, markGaps]
          omega

/-- Drafts with the same statement have the same number of blanks and hash signs, since
they have the same marks. -/
theorem gaps_eq_of_finish_eq {style : Placeholder} {first second : Draft}
    (h : first.finish style = second.finish style) : first.gaps = second.gaps := by
  simp only [finish, Statement.mk.injEq] at h
  obtain ⟨htext, hparameters⟩ := h
  have hgaps := congrArg Text.gaps htext
  rw [gaps_textFrom, gaps_textFrom, hparameters] at hgaps
  omega

theorem gaps_separate (separator : String) (drafts : List Draft) :
    (separate separator drafts).gaps =
      (drafts.map gaps).sum + (drafts.length - 1) * Text.gaps separator := by
  induction drafts with
  | nil => simp [separate, gaps]
  | cons draft drafts ih =>
      cases drafts with
      | nil => simp [separate]
      | cons next drafts =>
          rw [separate_cons_cons, gaps_append, gaps, ih]
          simp only [List.map_cons, List.sum_cons, List.length_cons, Nat.add_sub_cancel,
            Nat.add_one_mul]
          omega

/-- One draft in place of another: the same, or if something in it is altered, one with
fewer blanks and hash signs. -/
structure Replaces (altered : Prop) (old new : Draft) : Prop where
  same : ¬ altered → new = old
  fewer : altered → new.gaps < old.gaps

namespace Replaces

variable {altered : Prop} {old new : Draft}

theorem le (h : Replaces altered old new) : new.gaps ≤ old.gaps := by
  by_cases haltered : altered
  · exact (h.fewer haltered).le
  · rw [h.same haltered]

theorem sql (h : Replaces altered old new) (text : String) :
    Replaces altered (.sql text :: old) (.sql text :: new) := by
  refine ⟨fun hsame => by rw [h.same hsame], fun haltered => ?_⟩
  have hlt := h.fewer haltered
  simp only [gaps]
  omega

theorem append {other : Prop} {first second : Draft} (h : Replaces altered old new)
    (hother : Replaces other first second) :
    Replaces (altered ∨ other) (old ++ first) (new ++ second) := by
  refine ⟨?_, ?_⟩
  · intro hsame
    rw [h.same fun haltered => hsame (.inl haltered), hother.same fun hlater => hsame (.inr hlater)]
  · intro haltered
    have hle := h.le
    have hotherLe := hother.le
    simp only [gaps_append]
    rcases haltered with haltered | hlater
    · have hlt := h.fewer haltered
      omega
    · have hlt := hother.fewer hlater
      omega

theorem finish_eq_iff (h : Replaces altered old new) (style : Placeholder) :
    new.finish style = old.finish style ↔ ¬ altered := by
  constructor
  · intro heq haltered
    exact absurd (gaps_eq_of_finish_eq heq) (h.fewer haltered).ne
  · intro hsame
    rw [h.same hsame]

theorem of_not {draft : Draft} (h : ¬ altered) : Replaces altered draft draft :=
  ⟨fun _ => rfl, fun haltered => absurd haltered h⟩

end Replaces

/-- Both drafts can be made, and the second takes the place of the first. -/
def Redone {ε : Type} (altered : Prop) (first second : Except ε Draft) : Prop :=
  ∃ old new, first = .ok old ∧ second = .ok new ∧ Replaces altered old new

/-- Drafts in place of others, one by one. -/
inductive ReplacesAll {α : Type} (P : α → Prop) : List α → List Draft → List Draft → Prop
  | nil : ReplacesAll P [] [] []
  | cons {a : α} {old new : Draft} {as : List α} {olds news : List Draft}
    (hfirst : Replaces (P a) old new) (hrest : ReplacesAll P as olds news) :
    ReplacesAll P (a :: as) (old :: olds) (new :: news)

theorem exists_replacesAll {α ε : Type} {P : α → Prop} {f g : α → Except ε Draft} {as : List α}
    (h : ∀ a ∈ as, Redone (P a) (f a) (g a)) :
    ∃ olds news, List.Forall₂ (fun a d => f a = .ok d) as olds ∧
      List.Forall₂ (fun a d => g a = .ok d) as news ∧ ReplacesAll P as olds news := by
  induction as with
  | nil => exact ⟨[], [], .nil, .nil, .nil⟩
  | cons a as ih =>
      rw [List.forall_mem_cons] at h
      obtain ⟨old, new, hold, hnew, hfirst⟩ := h.1
      obtain ⟨olds, news, holds, hnews, hrest⟩ := ih h.2
      exact ⟨_, _, .cons hold holds, .cons hnew hnews, .cons hfirst hrest⟩

namespace ReplacesAll

variable {α : Type} {P : α → Prop} {as : List α} {olds news : List Draft}
  (h : ReplacesAll P as olds news)
include h

theorem length_eq : news.length = olds.length := by
  induction h with
  | nil => rfl
  | cons _ _ ih => simp [ih]

theorem same (hnone : ¬ ∃ a ∈ as, P a) : news = olds := by
  induction h with
  | nil => rfl
  | cons hfirst _ ih =>
      rw [List.exists_mem_cons_iff, not_or] at hnone
      rw [hfirst.same hnone.1, ih hnone.2]

theorem sum_le : (news.map gaps).sum ≤ (olds.map gaps).sum := by
  induction h with
  | nil => simp
  | cons hfirst _ ih =>
      have hle := hfirst.le
      simp only [List.map_cons, List.sum_cons]
      omega

theorem sum_lt (hsome : ∃ a ∈ as, P a) : (news.map gaps).sum < (olds.map gaps).sum := by
  induction h with
  | nil => simp at hsome
  | cons hfirst hrest ih =>
      have hle := hfirst.le
      have hrestLe := hrest.sum_le
      simp only [List.map_cons, List.sum_cons]
      rw [List.exists_mem_cons_iff] at hsome
      rcases hsome with haltered | hlater
      · have hlt := hfirst.fewer haltered
        omega
      · have hlt := ih hlater
        omega

theorem separate (separator : String) :
    Replaces (∃ a ∈ as, P a) (Draft.separate separator olds) (Draft.separate separator news) := by
  refine ⟨fun hnone => by rw [h.same hnone], fun hsome => ?_⟩
  have hlt := h.sum_lt hsome
  rw [gaps_separate, gaps_separate, h.length_eq]
  omega

end ReplacesAll

end Draft

/-! ## Phrases with fewer blanks -/

namespace Phrase

/-- The blanks and hash signs in the links of a phrase from an operand on. -/
def linkGaps (phrase : Phrase) : Nat → Nat → Nat
  | _, 0 => 0
  | index, count + 1 => Text.gaps (phrase.link index) + linkGaps phrase (index + 1) count

theorem gaps_laterDraft (phrase : Phrase) (index : Nat) (drafts : List Draft) :
    (phrase.laterDraft index drafts).gaps =
      phrase.linkGaps index drafts.length + (drafts.map Draft.gaps).sum +
        Text.gaps phrase.closing := by
  induction drafts generalizing index with
  | nil => simp [laterDraft, Draft.gaps, linkGaps]
  | cons draft drafts ih =>
      simp only [laterDraft, Draft.gaps, Draft.gaps_append, ih, linkGaps, List.length_cons,
        List.map_cons, List.sum_cons]
      omega

theorem gaps_draft (phrase : Phrase) (drafts : List Draft) :
    (phrase.draft drafts).gaps =
      Text.gaps phrase.opening + phrase.linkGaps 0 (drafts.length - 1) +
        (drafts.map Draft.gaps).sum + Text.gaps phrase.closing := by
  cases drafts with
  | nil => simp [draft, Draft.gaps, linkGaps]
  | cons first drafts =>
      simp only [draft, Draft.gaps, Draft.gaps_append, gaps_laterDraft, List.length_cons,
        Nat.add_sub_cancel, List.map_cons, List.sum_cons]
      omega

theorem gaps_draft_lt (phrase : Phrase) {olds news : List Draft}
    (hlength : news.length = olds.length)
    (hsum : (news.map Draft.gaps).sum < (olds.map Draft.gaps).sum) :
    (phrase.draft news).gaps < (phrase.draft olds).gaps := by
  rw [gaps_draft, gaps_draft, hlength]
  omega

theorem linkGaps_lt {old new : Phrase}
    (h : ∀ index, Text.gaps (new.link index) < Text.gaps (old.link index)) (index count : Nat) :
    new.linkGaps index (count + 1) < old.linkGaps index (count + 1) := by
  induction count generalizing index with
  | zero => simpa [linkGaps] using h index
  | succ count ih =>
      have hfirst := h index
      have hrest := ih (index + 1)
      simp only [linkGaps] at hrest ⊢
      omega

end Phrase

namespace Dialect

/-! ## Templates reduced to their patterns -/

/-- What is left of a template if it is overridden by its own pattern. -/
def bareTemplate (operator : Operator) : Template :=
  .ofPattern (postgresTemplate operator).pattern

def barePhrase : Operator → Phrase
  | .and | .or => .call ""
  | operator => postgresPhrase operator false

/-- The operation is not written by the pattern alone, but with a separator of its own
or with the pattern for paths. -/
def BeyondPattern : Operator → Bool → Prop
  | .and, _ | .or, _ => True
  | .get, path | .getText, path => path = true
  | _, _ => False

section Bare

variable {operator : Operator} {path : Bool}

theorem bareTemplate_pieces_eq (operator : Operator) (path : Bool) :
    (bareTemplate operator).pieces path = (postgresTemplate operator).pieces false := by
  cases path <;> rfl

theorem bareTemplate_pieces (operator : Operator) (path : Bool) :
    (bareTemplate operator).pieces path =
      .ok ((barePhrase operator).pieces operator.contract.most) := by
  rw [bareTemplate_pieces_eq, postgresTemplate_pieces]
  cases operator <;> rfl

theorem bareTemplate_inOrder (operator : Operator) : (bareTemplate operator).InOrder operator := by
  intro path count hadmits
  rw [bareTemplate_pieces_eq]
  exact postgresTemplate_inOrder operator false count hadmits

theorem barePhrase_link_of_variadic (hmost : operator.contract.most = none) (index : Nat) :
    (barePhrase operator).link index = (bareTemplate operator).separator := by
  cases operator <;> cases hmost <;> rfl

theorem bare_fill (h : ¬ BeyondPattern operator path) (drafts : List Draft) :
    (bareTemplate operator).fill operator path drafts =
      (postgresTemplate operator).fill operator path drafts := by
  cases operator <;> cases path <;> first | rfl | exact absurd trivial h | exact absurd rfl h

/-- Without what is beyond its pattern a chain keeps its ends, and each link loses a
blank or a hash sign. -/
theorem barePhrase_gaps (h : BeyondPattern operator path) :
    (∃ word, postgresPhrase operator path = .chain word) ∧
      (barePhrase operator).opening = (postgresPhrase operator path).opening ∧
      (barePhrase operator).closing = (postgresPhrase operator path).closing ∧
      ∀ index, Text.gaps ((barePhrase operator).link index) <
        Text.gaps ((postgresPhrase operator path).link index) := by
  cases operator with
  | and => simp [postgresPhrase, barePhrase, Phrase.opening, Phrase.closing, Phrase.link, Text.gaps]
  | or => simp [postgresPhrase, barePhrase, Phrase.opening, Phrase.closing, Phrase.link, Text.gaps]
  | get =>
      obtain rfl : path = true := h
      simp [postgresPhrase, barePhrase, Phrase.opening, Phrase.closing, Phrase.link, Text.gaps]
  | getText =>
      obtain rfl : path = true := h
      simp [postgresPhrase, barePhrase, Phrase.opening, Phrase.closing, Phrase.link, Text.gaps]
  | _ => cases h

end Bare

/-- The dialect for PostgreSQL in which some operators are left with their patterns. -/
def bare (named : Operator → Prop) [DecidablePred named] : Dialect :=
  { postgres with
    template := fun operator =>
      if named operator then bareTemplate operator else postgresTemplate operator }

/-- An operation of a named operator, somewhere in the expression, is not written by its
pattern alone. -/
def Alters (named : Operator → Prop) (e : Expr) : Prop :=
  ∃ operator operands, Expr.Within (.operation operator operands) e ∧
    named operator ∧ BeyondPattern operator (takesPath operands)

section Drafts

variable {named : Operator → Prop}

@[simp] theorem not_alters_column (ref : ColumnRef) : ¬ Alters named (.column ref) := by
  rintro ⟨operator, operands, hwithin, -⟩
  cases hwithin

@[simp] theorem not_alters_constant (value : Constant) : ¬ Alters named (.constant value) := by
  rintro ⟨operator, operands, hwithin, -⟩
  cases hwithin

theorem alters_operation_iff {operator : Operator} {operands : List Expr} :
    Alters named (.operation operator operands) ↔
      (named operator ∧ BeyondPattern operator (takesPath operands)) ∨
        ∃ operand ∈ operands, Alters named operand := by
  constructor
  · rintro ⟨inner, others, hwithin, haltered⟩
    cases hwithin with
    | whole => exact .inl haltered
    | operand hmem hinner => exact .inr ⟨_, hmem, inner, others, hinner, haltered⟩
  · rintro (haltered | ⟨operand, hmem, inner, others, hwithin, haltered⟩)
    · exact ⟨operator, operands, .whole, haltered⟩
    · exact ⟨inner, others, .operand hmem hwithin, haltered⟩

variable [DecidablePred named]

theorem bare_template_fill {operator : Operator} {path : Bool}
    (h : ¬ (named operator ∧ BeyondPattern operator path)) (drafts : List Draft) :
    ((bare named).template operator).fill operator path drafts =
      (postgresTemplate operator).fill operator path drafts := by
  by_cases hnamed : named operator
  · have hpattern : ¬ BeyondPattern operator path := fun hbeyond => h ⟨hnamed, hbeyond⟩
    simpa [bare, hnamed] using bare_fill hpattern drafts
  · simp [bare, hnamed]

section Filling

variable {operator : Operator} {path : Bool} {drafts : List Draft}
  (hadmits : operator.contract.admits drafts.length = true)
include hadmits

theorem postgres_fill : (postgresTemplate operator).fill operator path drafts =
    .ok ((postgresPhrase operator path).draft drafts) := by
  obtain ⟨draft, hfill, -⟩ := (postgresTemplate_inOrder operator).fill path hadmits
  rw [hfill, eq_draft_of_fill hadmits hfill]

theorem bareTemplate_fill : (bareTemplate operator).fill operator path drafts =
    .ok ((barePhrase operator).draft drafts) := by
  obtain ⟨draft, hfill, -⟩ := (bareTemplate_inOrder operator).fill path hadmits
  have hpos := (postgresPhrase_takes path hadmits).pos
  rw [hfill, Phrase.eq_draft_of_fill (bareTemplate_pieces operator path)
    barePhrase_link_of_variadic hadmits hpos hfill]

end Filling

/-- The operation itself loses blanks or hash signs, since it has a link between two
operands at least, and its operands do not win any. -/
theorem gaps_lt_of_beyondPattern {operator : Operator} {path : Bool}
    (h : BeyondPattern operator path) {olds news : List Draft}
    (hadmits : operator.contract.admits olds.length = true) (hlength : news.length = olds.length)
    (hsum : (news.map Draft.gaps).sum ≤ (olds.map Draft.gaps).sum) :
    ((barePhrase operator).draft news).gaps < ((postgresPhrase operator path).draft olds).gaps := by
  obtain ⟨⟨word, hchain⟩, hopening, hclosing, hlink⟩ := barePhrase_gaps h
  have htakes := postgresPhrase_takes path hadmits
  rw [hchain] at htakes
  obtain ⟨count, hcount⟩ : ∃ count, olds.length - 1 = count + 1 :=
    ⟨olds.length - 2, by simp only [Phrase.Takes] at htakes; omega⟩
  have hless := Phrase.linkGaps_lt hlink 0 count
  rw [Phrase.gaps_draft, Phrase.gaps_draft, hlength, hcount, hopening, hclosing]
  omega

/-- The induction is on the expression.  An altered operation is shorter by its own
links, and any other one only if one of its operands is. -/
theorem redone_draft (named : Operator → Prop) [DecidablePred named] {e : Expr}
    (he : e.WellFormed) :
    Draft.Redone (Alters named e) (postgres.draft e) ((bare named).draft e) := by
  induction e with
  | column ref => exact ⟨_, _, rfl, rfl, .of_not (not_alters_column ref)⟩
  | constant value => exact ⟨_, _, rfl, rfl, .of_not (not_alters_constant value)⟩
  | operation operator operands ih =>
      obtain ⟨hfault, hoperands⟩ := Expr.wellFormed_operation_iff.1 he
      obtain ⟨olds, news, holds, hnews, hreplaces⟩ :=
        Draft.exists_replacesAll fun operand hmem => ih operand hmem (hoperands operand hmem)
      have hadmits := (Expr.applicationFault?_eq_none hfault).1
      have hold : operator.contract.admits olds.length = true := by rwa [← holds.length_eq]
      have hnew : operator.contract.admits news.length = true := by rwa [← hnews.length_eq]
      have hpostgres := draft_operation_eq_ok.2 ⟨olds, holds, postgres_fill hold⟩
      rw [alters_operation_iff]
      by_cases hown : named operator ∧ BeyondPattern operator (takesPath operands)
      · have hfill : ((bare named).template operator).fill operator (takesPath operands) news =
            .ok ((barePhrase operator).draft news) := by
          simpa [bare, hown.1] using bareTemplate_fill hnew
        have hlt := gaps_lt_of_beyondPattern hown.2 hold hreplaces.length_eq hreplaces.sum_le
        exact ⟨_, _, hpostgres, draft_operation_eq_ok.2 ⟨news, hnews, hfill⟩,
          fun hnot => absurd (.inl hown) hnot, fun _ => hlt⟩
      · have hfill : ((bare named).template operator).fill operator (takesPath operands) news =
            .ok ((postgresPhrase operator (takesPath operands)).draft news) := by
          rw [bare_template_fill hown, postgres_fill hnew]
        refine ⟨_, _, hpostgres, draft_operation_eq_ok.2 ⟨news, hnews, hfill⟩, ?_, ?_⟩
        · intro hnot
          rw [hreplaces.same fun hoperand => hnot (.inr hoperand)]
        · intro haltered
          exact Phrase.gaps_draft_lt _ hreplaces.length_eq
            (hreplaces.sum_lt (haltered.resolve_left hown))

end Drafts

theorem bare_compile_eq_iff (named : Operator → Prop) [DecidablePred named]
    (style : Placeholder) {e : Expr} (he : e.WellFormed) :
    (bare named).compile style e = postgres.compile style e ↔ ¬ Alters named e := by
  obtain ⟨old, new, hpostgres, hbare, hreplaces⟩ := redone_draft named he
  rw [compile, compile, hpostgres, hbare, ← hreplaces.finish_eq_iff style]
  exact ⟨Except.ok.inj, congrArg Except.ok⟩

/-! ## Updates -/

/-- The expressions that end up in the statement of an update hold an altered operation. -/
def AltersUpdate (named : Operator → Prop) (update : Update) (filter : Option Expr) : Prop :=
  ∃ assignments, update.lower = .ok assignments ∧
    (∀ condition, filter = some condition → condition.tag.fits .boolean = true) ∧
    ((∃ assignment ∈ assignments, Alters named assignment.value) ∨
      ∃ condition, filter = some condition ∧ Alters named condition)

theorem redone_draftAssignment (named : Operator → Prop) [DecidablePred named]
    {assignment : Assignment} (h : assignment.value.WellFormed) :
    Draft.Redone (Alters named assignment.value) (postgres.draftAssignment assignment)
      ((bare named).draftAssignment assignment) := by
  obtain ⟨old, new, hpostgres, hbare, hreplaces⟩ := redone_draft named h
  exact ⟨_, _, draftAssignment_eq_ok.2 ⟨old, hpostgres, rfl⟩,
    draftAssignment_eq_ok.2 ⟨new, hbare, rfl⟩, hreplaces.sql _⟩

theorem redone_draftFilter (named : Operator → Prop) [DecidablePred named]
    {filter : Option Expr} (h : ∀ condition, filter = some condition → condition.WellFormed)
    (hfits : ∀ condition, filter = some condition → condition.tag.fits .boolean = true) :
    Draft.Redone (∃ condition, filter = some condition ∧ Alters named condition)
      (postgres.draftFilter filter) ((bare named).draftFilter filter) := by
  cases filter with
  | none => exact ⟨[], [], rfl, rfl, .of_not (by simp)⟩
  | some condition =>
      obtain ⟨old, new, hpostgres, hbare, hreplaces⟩ := redone_draft named (h condition rfl)
      have hboolean := hfits condition rfl
      simp only [Option.some.injEq, exists_eq_left']
      exact ⟨_, _, draftFilter_some.2 ⟨hboolean, old, hpostgres, rfl⟩,
        draftFilter_some.2 ⟨hboolean, new, hbare, rfl⟩, hreplaces.sql _⟩

theorem draftUpdate_of_misfit {dialect : Dialect} {update : Update} {condition : Expr}
    {assignments : List Assignment} {drafts : List Draft} (hlower : update.lower = .ok assignments)
    (hdrafts : List.Forall₂ (fun assignment d => dialect.draftAssignment assignment = .ok d)
      assignments drafts) (hmisfit : ¬ condition.tag.fits .boolean = true) :
    dialect.draftUpdate update (some condition) = .error (.filterTag condition.tag) := by
  have hall := mapM_eq_ok.2 hdrafts
  simp [draftUpdate, draftFilter, hlower, hall, hmisfit, bind, Except.bind, Except.mapError]

theorem bare_compileUpdate_eq_iff (named : Operator → Prop) [DecidablePred named]
    (style : Placeholder) {update : Update} {filter : Option Expr} (hupdate : update.WellFormed)
    (hfilter : ∀ condition, filter = some condition → condition.WellFormed) :
    (bare named).compileUpdate style update filter = postgres.compileUpdate style update filter ↔
      ¬ AltersUpdate named update filter := by
  cases hlower : update.lower with
  | error fault =>
      have hfails : ∀ dialect : Dialect, dialect.draftUpdate update filter = .error fault := by
        intro dialect
        rw [draftUpdate, hlower]
        rfl
      simp [compileUpdate, hfails, AltersUpdate, hlower]
  | ok assignments =>
      obtain ⟨olds, news, holds, hnews, hreplaces⟩ :=
        Draft.exists_replacesAll fun assignment hmem =>
          redone_draftAssignment named (hupdate.lower hlower assignment hmem)
      by_cases hfits :
          ∀ condition, filter = some condition → condition.tag.fits .boolean = true
      · obtain ⟨oldCondition, newCondition, hpostgres, hbare, hcondition⟩ :=
          redone_draftFilter named hfilter hfits
        have hold := draftUpdate_eq_ok.2 ⟨_, _, _, hlower, holds, hpostgres, rfl⟩
        have hnew := draftUpdate_eq_ok.2 ⟨_, _, _, hlower, hnews, hbare, rfl⟩
        have hwhole := ((hreplaces.separate ", ").append hcondition).sql
          ("UPDATE " ++ Identifier.qualified (Text.pieces update.table) ++ " SET ")
        have halters : AltersUpdate named update filter ↔
            (∃ assignment ∈ assignments, Alters named assignment.value) ∨
              ∃ condition, filter = some condition ∧ Alters named condition := by
          simpa [AltersUpdate, hlower] using fun _ => hfits
        rw [compileUpdate, compileUpdate, hold, hnew, halters, ← hwhole.finish_eq_iff style]
        exact ⟨Except.ok.inj, congrArg Except.ok⟩
      · have hnot : ¬ AltersUpdate named update filter := fun ⟨_, _, hall, _⟩ => hfits hall
        simp only [not_forall] at hfits
        obtain ⟨condition, rfl, hmisfit⟩ := hfits
        have hold := draftUpdate_of_misfit hlower holds hmisfit
        have hnew := draftUpdate_of_misfit hlower hnews hmisfit
        simp [compileUpdate, hold, hnew, hnot]

end Dialect

/-! ## Settings that repeat patterns -/

namespace Settings

open Dialect

/-- Some key spells the operator. -/
def Names (settings : Settings) (operator : Operator) : Prop :=
  ∃ entry ∈ settings.overrides, Operator.Spells entry.1 operator

instance (settings : Settings) : DecidablePred settings.Names :=
  fun operator => inferInstanceAs (Decidable (∃ entry ∈ settings.overrides,
    Operator.Spells entry.1 operator))

/-- Every key spells an operator and has the pattern that the operator has for
PostgreSQL. -/
def RepeatsPatterns (settings : Settings) : Prop :=
  ∀ entry ∈ settings.overrides,
    ∃ operator, Operator.Spells entry.1 operator ∧ entry.2 = (postgresTemplate operator).pattern

section Repeating

variable {settings : Settings} (h : settings.RepeatsPatterns)
include h

theorem lastTemplate?_of_names {operator : Operator} (hnamed : settings.Names operator) :
    lastTemplate? operator settings.templates = some (bareTemplate operator) := by
  cases hlast : lastTemplate? operator settings.templates with
  | none =>
      rw [lastTemplate?_eq_none_iff, templates, List.forall_mem_map] at hlast
      obtain ⟨entry, hmem, hspells⟩ := hnamed
      exact absurd hspells (hlast entry hmem)
  | some last =>
      obtain ⟨name, hmem, hspells⟩ := mem_of_lastTemplate? hlast
      obtain ⟨entry, hentry, heq⟩ := List.mem_map.1 hmem
      cases heq
      obtain ⟨other, hother, hpattern⟩ := h entry hentry
      obtain rfl := hspells.unique hother
      rw [hpattern, bareTemplate]

theorem dialect_of_repeatsPatterns : settings.dialect = .ok (bare settings.Names) := by
  rw [dialect_eq_ok]
  constructor
  · intro entry hmem
    obtain ⟨operator, hspells, hpattern⟩ := h entry hmem
    rw [hpattern]
    exact ⟨operator, hspells, postgres_suited operator false⟩
  · simp only [bare, withLast, Dialect.mk.injEq, true_and]
    funext operator
    by_cases hnamed : settings.Names operator
    · simp [hnamed, lastTemplate?_of_names h hnamed]
    · have hlast : lastTemplate? operator settings.templates = none := by
        rw [lastTemplate?_eq_none_iff, templates, List.forall_mem_map]
        exact fun entry hmem hspells => hnamed ⟨entry, hmem, hspells⟩
      simp [hnamed, hlast, postgres]

end Repeating

/-- Settings whose patterns are those of PostgreSQL have a dialect.  It compiles an
expression, or an update, as the one for PostgreSQL does just if no operation of a named
operator in it is written with a separator of its own or with the pattern for paths. -/
theorem compile_repeated_patterns_iff (style : Placeholder) {settings : Settings}
    (h : settings.RepeatsPatterns) :
    ∃ dialect, settings.dialect = .ok dialect ∧
      (∀ e : Expr, e.WellFormed →
        (dialect.compile style e = postgres.compile style e ↔ ¬ Alters settings.Names e)) ∧
      ∀ (update : Update) (filter : Option Expr), update.WellFormed →
        (∀ condition, filter = some condition → condition.WellFormed) →
        (dialect.compileUpdate style update filter = postgres.compileUpdate style update filter ↔
          ¬ AltersUpdate settings.Names update filter) :=
  ⟨_, dialect_of_repeatsPatterns h,
    fun _ he => bare_compile_eq_iff settings.Names style he,
    fun _ _ hupdate hfilter => bare_compileUpdate_eq_iff settings.Names style hupdate hfilter⟩

theorem repeatsPatterns_singleton {placeholder : Placeholder} {name : String}
    {operator : Operator} (h : Operator.Spells name operator) (kinds : ColumnKinds) :
    RepeatsPatterns ⟨placeholder, [(name, (postgresTemplate operator).pattern)], kinds⟩ := by
  simpa [RepeatsPatterns] using ⟨operator, h, rfl⟩

/-- The pattern of `GET` under its own name: a key is got as before, a path is not. -/
theorem compile_repeated_patterns_iff_get :
    let settings : Settings := ⟨.anonymous, [("get", (postgresTemplate .get).pattern)], .standard⟩
    let byKey : Expr := .operation .get [.column ⟨none, ["meta"], .jsonb⟩, .constant (.text "a")]
    let byPath : Expr :=
      .operation .get [.column ⟨none, ["meta"], .jsonb⟩, .constant (.textArray ["a", "b"])]
    settings.RepeatsPatterns ∧ byKey.WellFormed ∧ byPath.WellFormed ∧
      ∃ dialect, settings.dialect = .ok dialect ∧
        dialect.compile .anonymous byKey = postgres.compile .anonymous byKey ∧
        dialect.compile .anonymous byPath ≠ postgres.compile .anonymous byPath := by
  intro settings byKey byPath
  have hspells : Operator.Spells "get" .get := by decide
  have hrepeats : settings.RepeatsPatterns := repeatsPatterns_singleton hspells .standard
  have hkey : byKey.WellFormed := ⟨rfl, trivial, trivial, trivial⟩
  have hpath : byPath.WellFormed := ⟨rfl, trivial, trivial, trivial⟩
  obtain ⟨dialect, hdialect, hcompile, -⟩ := compile_repeated_patterns_iff .anonymous hrepeats
  have hsame : ¬ Alters settings.Names byKey := by
    have htext : takesPath [.column ⟨none, ["meta"], .jsonb⟩, .constant (.text "a")] = false := rfl
    simp [byKey, alters_operation_iff, BeyondPattern, htext]
  have haltered : Alters settings.Names byPath :=
    alters_operation_iff.2 (.inl ⟨⟨_, List.mem_cons_self, hspells⟩, rfl⟩)
  refine ⟨hrepeats, hkey, hpath, dialect, hdialect, (hcompile byKey hkey).2 hsame, ?_⟩
  exact fun heq => (hcompile byPath hpath).1 heq haltered

/-- Two operands of `AND` under its own pattern are separated by a comma. -/
theorem compile_repeated_pattern_of_and :
    let settings : Settings := ⟨.anonymous, [("AND", (postgresTemplate .and).pattern)], .standard⟩
    let operands : List Constant := [.untyped (.boolean true), .untyped (.boolean false)]
    let e : Expr := .operation .and (operands.map .constant)
    e.WellFormed ∧
      ∃ dialect, settings.dialect = .ok dialect ∧
        dialect.compile .anonymous e = .ok ⟨"(?, ?)", operands⟩ ∧
        postgres.compile .anonymous e = .ok ⟨"(? AND ?)", operands⟩ := by
  intro settings operands e
  have hspells : Operator.Spells "AND" .and := by decide
  have hrepeats : settings.RepeatsPatterns := repeatsPatterns_singleton hspells .standard
  have hnamed : settings.Names .and := ⟨_, List.mem_cons_self, hspells⟩
  let drafts : List Draft := operands.map fun constant => [.parameter constant]
  have hdrafts : ∀ dialect : Dialect, List.Forall₂ (fun operand d => dialect.draft operand = .ok d)
      (operands.map .constant) drafts := fun _ => .cons rfl (.cons rfl .nil)
  have hadmits : Operator.and.contract.admits drafts.length = true := rfl
  have hbare : (bare settings.Names).draft e = .ok ((barePhrase .and).draft drafts) := by
    refine draft_operation_eq_ok.2 ⟨drafts, hdrafts _, ?_⟩
    simpa [bare, hnamed] using bareTemplate_fill hadmits
  have hpostgres : postgres.draft e = .ok ((postgresPhrase .and false).draft drafts) :=
    draft_operation_eq_ok.2 ⟨drafts, hdrafts _, postgres_fill hadmits⟩
  exact ⟨⟨rfl, trivial, trivial, trivial⟩, _, dialect_of_repeatsPatterns hrepeats,
    compile_eq_ok.2 ⟨_, hbare, rfl⟩, compile_eq_ok.2 ⟨_, hpostgres, rfl⟩⟩

end Settings

end JsonbAlgebra
