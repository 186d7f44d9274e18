import JsonbAlgebra.Proofs.KeyedOrder
import JsonbAlgebra.Proofs.TemplateOverrides
import JsonbAlgebra.Settings
import Mathlib.Data.List.Nodup

/-!
# Overrides are local

An overriding template is seen only where its operator stands: an expression
without the operator is compiled as before, failures included.  Of a list of
overrides it is known which ones are accepted, each for itself, and that the last
template of an operator counts, so overrides of different operators may change
places and one that is overridden in turn may be left out.

The patterns of the settings come in the order of their keys, which may spell one
operator in several ways.  The greatest of its keys counts.
-/

namespace JsonbAlgebra

namespace Operator

/-- The name is that of the operator, in any case of its letters. -/
def Spells (name : String) (operator : Operator) : Prop :=
  operator.name.toLower = name.toLower

theorem spells_iff_toList {name : String} {operator : Operator} :
    Spells name operator ↔
      operator.name.toList.map Char.toLower = name.toList.map Char.toLower := by
  have hlower : ∀ text : String, text.toLower.toList = text.toList.map Char.toLower :=
    fun _ => String.toList_map
  rw [Spells, ← String.toList_inj, hlower, hlower]

instance (name : String) (operator : Operator) : Decidable (Spells name operator) :=
  decidable_of_iff' _ spells_iff_toList

theorem nodup_lowered_names : (all.map fun operator => operator.name.toLower).Nodup := by
  decide +kernel

theorem Spells.unique {name : String} {first second : Operator} (hfirst : Spells name first)
    (hsecond : Spells name second) : first = second :=
  List.inj_on_of_nodup_map nodup_lowered_names (mem_all first) (mem_all second)
    (hfirst.trans hsecond.symm)

theorem named?_eq_some {name : String} {operator : Operator} :
    named? name = some operator ↔ Spells name operator := by
  constructor
  · intro h
    simpa [Spells] using List.find?_some h
  · intro h
    unfold named?
    cases hfound : all.find? fun other => other.name.toLower == name.toLower with
    | none =>
        have hnot := List.find?_eq_none.1 hfound operator (mem_all operator)
        simp [h.symm] at hnot
    | some other =>
        have hother : Spells name other := by simpa [Spells] using List.find?_some hfound
        rw [hother.unique h]

end Operator

namespace Expr

/-- The operator stands somewhere in the expression. -/
def Uses (e : Expr) (operator : Operator) : Prop :=
  ∃ operands, Within (.operation operator operands) e

@[simp] theorem not_uses_column (ref : ColumnRef) (operator : Operator) :
    ¬ (column ref).Uses operator := by
  rintro ⟨operands, hwithin⟩
  cases hwithin

@[simp] theorem not_uses_constant (value : Constant) (operator : Operator) :
    ¬ (constant value).Uses operator := by
  rintro ⟨operands, hwithin⟩
  cases hwithin

@[simp] theorem uses_operation_iff {outer operator : Operator} {operands : List Expr} :
    (operation outer operands).Uses operator ↔
      operator = outer ∨ ∃ operand ∈ operands, operand.Uses operator := by
  constructor
  · rintro ⟨others, hwithin⟩
    cases hwithin with
    | whole => exact .inl rfl
    | operand hmem hinner => exact .inr ⟨_, hmem, others, hinner⟩
  · rintro (rfl | ⟨operand, hmem, others, hinner⟩)
    · exact ⟨operands, .whole⟩
    · exact ⟨others, .operand hmem hinner⟩

end Expr

namespace Dialect

theorem replace_template_of_ne (dialect : Dialect) {operator other : Operator}
    (template : Template) (h : other ≠ operator) :
    (dialect.replace operator template).template other = dialect.template other := by
  simp [replace, h]

/-! ## Expressions without the operator -/

theorem draftAll_congr {dialect other : Dialect} {operands : List Expr}
    (h : ∀ operand ∈ operands, other.draft operand = dialect.draft operand) :
    other.draftAll operands = dialect.draftAll operands := by
  induction operands with
  | nil => rfl
  | cons operand operands ih =>
      rw [draftAll, draftAll, h operand (by simp), ih fun next hmem => h next (by simp [hmem])]

/-- Templates of operators that do not stand in an expression do not matter. -/
theorem draft_congr {dialect other : Dialect} {e : Expr}
    (h : ∀ operator, e.Uses operator → other.template operator = dialect.template operator) :
    other.draft e = dialect.draft e := by
  induction e with
  | column ref => rfl
  | constant value => rfl
  | operation operator operands ih =>
      have hoperands : ∀ operand ∈ operands, other.draft operand = dialect.draft operand := by
        intro operand hmem
        apply ih operand hmem
        intro inner huses
        exact h inner (Expr.uses_operation_iff.2 (.inr ⟨operand, hmem, huses⟩))
      have htemplate : other.template operator = dialect.template operator :=
        h operator (Expr.uses_operation_iff.2 (.inl rfl))
      rw [Dialect.draft, Dialect.draft, draftAll_congr hoperands, htemplate]

theorem compile_replace (dialect : Dialect) {operator : Operator} (template : Template)
    (style : Placeholder) {e : Expr} (h : ¬ e.Uses operator) :
    (dialect.replace operator template).compile style e = dialect.compile style e := by
  have hdraft : (dialect.replace operator template).draft e = dialect.draft e := by
    apply draft_congr
    intro other huses
    have hne : other ≠ operator := fun heq => h (heq ▸ huses)
    exact dialect.replace_template_of_ne template hne
  rw [compile, compile, hdraft]

/-! ## The template that counts -/

/-- The last template for an operator among overrides. -/
def lastTemplate? (operator : Operator) : List (String × Template) → Option Template
  | [] => none
  | (name, template) :: overrides =>
    (lastTemplate? operator overrides).or
      (if Operator.named? name = some operator then some template else none)

/-- The dialect with the last template of every operator that overrides name. -/
def withLast (dialect : Dialect) (overrides : List (String × Template)) : Dialect :=
  { dialect with
    template := fun operator =>
      (lastTemplate? operator overrides).getD (dialect.template operator) }

/-- The override names an operator, for which it has a template that suits it. -/
def Accepted (entry : String × Template) : Prop :=
  ∃ operator, Operator.Spells entry.1 operator ∧ entry.2.Suits operator

section Last

variable {operator other : Operator} {name : String} {template : Template}
  {overrides : List (String × Template)}

theorem lastTemplate?_eq_none_iff : lastTemplate? operator overrides = none ↔
    ∀ entry ∈ overrides, ¬ Operator.Spells entry.1 operator := by
  induction overrides with
  | nil => simp [lastTemplate?]
  | cons entry overrides ih =>
      by_cases hspells : Operator.Spells entry.1 operator
      · simp [lastTemplate?, Operator.named?_eq_some, hspells]
      · simp [lastTemplate?, Operator.named?_eq_some, hspells, ih]

theorem mem_of_lastTemplate? (h : lastTemplate? operator overrides = some template) :
    ∃ name, (name, template) ∈ overrides ∧ Operator.Spells name operator := by
  induction overrides with
  | nil => simp [lastTemplate?] at h
  | cons entry overrides ih =>
      rw [lastTemplate?, Option.or_eq_some_iff] at h
      rcases h with hlater | ⟨-, hfirst⟩
      · obtain ⟨name, hmem, hspells⟩ := ih hlater
        exact ⟨name, List.mem_cons_of_mem entry hmem, hspells⟩
      · by_cases hnamed : Operator.named? entry.1 = some operator
        · obtain rfl : entry.2 = template := by simpa [hnamed] using hfirst
          exact ⟨entry.1, List.mem_cons_self, Operator.named?_eq_some.1 hnamed⟩
        · simp [hnamed] at hfirst

theorem withLast_cons (dialect : Dialect) (hspells : Operator.Spells name operator) :
    dialect.withLast ((name, template) :: overrides) =
      (dialect.replace operator template).withLast overrides := by
  unfold withLast replace
  congr 1
  funext other
  by_cases heq : other = operator
  · subst heq
    cases hlast : lastTemplate? other overrides with
    | none => simp [lastTemplate?, Operator.named?_eq_some, hspells, hlast]
    | some last => simp [lastTemplate?, hlast]
  · have hnot : ¬ Operator.Spells name other := fun h => heq (h.unique hspells)
    simp [lastTemplate?, Operator.named?_eq_some, hnot, heq]

theorem lastTemplate?_append (before after : List (String × Template)) :
    lastTemplate? operator (before ++ after) =
      (lastTemplate? operator after).or (lastTemplate? operator before) := by
  induction before with
  | nil => simp [lastTemplate?]
  | cons entry before ih => simp [lastTemplate?, ih, Option.or_assoc]

/-- Overrides are accepted one by one, and of each operator the last template counts. -/
theorem overrideAll_eq_ok {dialect final : Dialect} :
    dialect.overrideAll overrides = .ok final ↔
      (∀ entry ∈ overrides, Accepted entry) ∧ final = dialect.withLast overrides := by
  induction overrides generalizing dialect with
  | nil =>
      have hnone : dialect.withLast [] = dialect := rfl
      simp [overrideAll, hnone, pure, Except.pure, eq_comm]
  | cons entry overrides ih =>
      obtain ⟨name, template⟩ := entry
      have hrest : ∀ next : Dialect, overrides.foldlM
          (fun dialect entry => dialect.overrideNamed entry.1 entry.2) next = .ok final ↔
            (∀ entry ∈ overrides, Accepted entry) ∧ final = next.withLast overrides :=
        fun next => ih
      rw [overrideAll, foldlM_cons_eq_ok]
      simp only [hrest, overrideNamed_eq_ok, Operator.named?_eq_some, List.forall_mem_cons]
      constructor
      · rintro ⟨next, ⟨operator, hspells, hsuits, rfl⟩, hall, hfinal⟩
        exact ⟨⟨⟨operator, hspells, hsuits⟩, hall⟩,
          hfinal.trans (dialect.withLast_cons hspells).symm⟩
      · rintro ⟨⟨⟨operator, hspells, hsuits⟩, hall⟩, hfinal⟩
        exact ⟨_, ⟨operator, hspells, hsuits, rfl⟩, hall,
          hfinal.trans (dialect.withLast_cons hspells)⟩

/-- Two lists of overrides do the same if they have the same entries to accept and the
same last templates. -/
theorem overrideAll_alike {others : List (String × Template)}
    (haccepted : (∀ entry ∈ overrides, Accepted entry) ↔ ∀ entry ∈ others, Accepted entry)
    (hlast : ∀ operator, lastTemplate? operator overrides = lastTemplate? operator others)
    (dialect final : Dialect) :
    dialect.overrideAll overrides = .ok final ↔ dialect.overrideAll others = .ok final := by
  have hdialect : dialect.withLast overrides = dialect.withLast others := by
    simp only [withLast, hlast]
  rw [overrideAll_eq_ok, overrideAll_eq_ok, haccepted, hdialect]

theorem overrideAll_swap {first second : String × Template}
    (hfirst : Operator.Spells first.1 operator) (hsecond : Operator.Spells second.1 other)
    (hne : operator ≠ other) (before after : List (String × Template)) (dialect final : Dialect) :
    dialect.overrideAll (before ++ first :: second :: after) = .ok final ↔
      dialect.overrideAll (before ++ second :: first :: after) = .ok final := by
  apply overrideAll_alike
  · have hperm : (before ++ first :: second :: after).Perm
        (before ++ second :: first :: after) := (List.Perm.swap second first after).append_left before
    simp only [hperm.mem_iff]
  · intro asked
    rw [lastTemplate?_append, lastTemplate?_append]
    by_cases hasked : Operator.Spells first.1 asked
    · have hnot : ¬ Operator.Spells second.1 asked := fun h =>
        hne ((hfirst.unique hasked).trans (h.unique hsecond))
      simp [lastTemplate?, Operator.named?_eq_some, hnot]
    · simp [lastTemplate?, Operator.named?_eq_some, hasked]

theorem overrideAll_drop {first later : String × Template}
    (hfirst : Operator.Spells first.1 operator) (hsuits : first.2.Suits operator)
    {after : List (String × Template)} (hmem : later ∈ after)
    (hlater : Operator.Spells later.1 operator) (before : List (String × Template))
    (dialect final : Dialect) :
    dialect.overrideAll (before ++ first :: after) = .ok final ↔
      dialect.overrideAll (before ++ after) = .ok final := by
  apply overrideAll_alike
  · have haccepted : Accepted first := ⟨operator, hfirst, hsuits⟩
    simp only [List.forall_mem_append, List.forall_mem_cons, haccepted, true_and]
  · intro asked
    rw [lastTemplate?_append, lastTemplate?_append]
    by_cases hasked : Operator.Spells first.1 asked
    · obtain rfl := hfirst.unique hasked
      cases hlast : lastTemplate? operator after with
      | none => exact absurd hlater (lastTemplate?_eq_none_iff.1 hlast later hmem)
      | some last => simp [lastTemplate?, hlast]
    · simp [lastTemplate?, Operator.named?_eq_some, hasked]

end Last

end Dialect

/-! ## Patterns in the settings -/

namespace Settings

open Dialect

def templates (settings : Settings) : List (String × Template) :=
  settings.overrides.map fun entry => (entry.1, .ofPattern entry.2)

theorem dialect_eq_overrideAll (settings : Settings) :
    settings.dialect = postgres.overrideAll settings.templates := by
  simp [dialect, overrideAll, templates, List.foldlM_map]

/-- Of the ascending keys that spell an operator the greatest is the last. -/
theorem lastTemplate?_of_ordered {overrides : Keyed String} (hordered : overrides.Ordered)
    {entry : String × String} {operator : Operator} (hmem : entry ∈ overrides)
    (hspells : Operator.Spells entry.1 operator)
    (hgreatest : ∀ other ∈ overrides, Operator.Spells other.1 operator → other.1 ≤ entry.1) :
    lastTemplate? operator (overrides.map fun entry => (entry.1, .ofPattern entry.2)) =
      some (.ofPattern entry.2) := by
  induction overrides with
  | nil => cases hmem
  | cons first overrides ih =>
      obtain ⟨hfirst, hrest⟩ := List.pairwise_cons.1 hordered
      rcases List.mem_cons.1 hmem with rfl | hlater
      · have hnone : lastTemplate? operator
            (overrides.map fun entry => (entry.1, Template.ofPattern entry.2)) = none := by
          rw [lastTemplate?_eq_none_iff, List.forall_mem_map]
          intro other hother hspelled
          have hle := hgreatest other (List.mem_cons_of_mem _ hother) hspelled
          exact absurd (hfirst other hother) (not_lt.2 hle)
        simp [lastTemplate?, hnone, Operator.named?_eq_some, hspells]
      · have hlast := ih hrest hlater fun other hother =>
          hgreatest other (List.mem_cons_of_mem _ hother)
        simp [lastTemplate?, hlast]

/-- The pattern can be read and names only operands that the operator can have. -/
def SuitedBy (operator : Operator) (pattern : String) : Prop :=
  ∃ pieces, Template.parse pattern = .ok pieces ∧
    ∀ most, operator.contract.most = some most → ∀ index, .operand index ∈ pieces → index < most

theorem accepted_iff {name pattern : String} :
    Accepted (name, .ofPattern pattern) ↔
      ∃ operator, Operator.Spells name operator ∧ SuitedBy operator pattern := by
  simp [Accepted, SuitedBy, Template.Suits, Template.pieces, Template.chosen, Template.ofPattern,
    Template.Admissible]

theorem dialect_eq_ok {settings : Settings} {final : Dialect} :
    settings.dialect = .ok final ↔
      (∀ entry ∈ settings.overrides,
        ∃ operator, Operator.Spells entry.1 operator ∧ SuitedBy operator entry.2) ∧
      final = postgres.withLast settings.templates := by
  rw [dialect_eq_overrideAll, overrideAll_eq_ok, templates, List.forall_mem_map]
  simp only [accepted_iff]

/-- An accepted override changes nothing in expressions without its operator.
Overrides of different operators may be swapped, and one that a later one of the same
operator overrides may be left out.  So the settings have a dialect just if every key
spells an operator that its pattern suits, and there an operator has the pattern of its
greatest key, or without a key the template that it has for PostgreSQL. -/
theorem overrides_local (style : Placeholder) :
    (∀ (dialect next : Dialect) (name : String) (template : Template) (operator : Operator),
      Operator.Spells name operator → dialect.overrideNamed name template = .ok next →
      ∀ e : Expr, ¬ e.Uses operator → next.compile style e = dialect.compile style e) ∧
    (∀ (dialect final : Dialect) (before after : List (String × Template))
      (first second : String × Template) (operator other : Operator),
      Operator.Spells first.1 operator → Operator.Spells second.1 other → operator ≠ other →
      (dialect.overrideAll (before ++ first :: second :: after) = .ok final ↔
        dialect.overrideAll (before ++ second :: first :: after) = .ok final)) ∧
    (∀ (dialect final : Dialect) (before after : List (String × Template))
      (first later : String × Template) (operator : Operator),
      Operator.Spells first.1 operator → first.2.Suits operator →
      later ∈ after → Operator.Spells later.1 operator →
      (dialect.overrideAll (before ++ first :: after) = .ok final ↔
        dialect.overrideAll (before ++ after) = .ok final)) ∧
    ∀ settings : Settings, settings.overrides.Ordered →
      ((∃ dialect, settings.dialect = .ok dialect) ↔
        ∀ entry ∈ settings.overrides,
          ∃ operator, Operator.Spells entry.1 operator ∧ SuitedBy operator entry.2) ∧
      ∀ dialect, settings.dialect = .ok dialect →
        (∀ operator, ∀ entry ∈ settings.overrides, Operator.Spells entry.1 operator →
          (∀ other ∈ settings.overrides, Operator.Spells other.1 operator → other.1 ≤ entry.1) →
          dialect.template operator = .ofPattern entry.2) ∧
        (∀ operator, (∀ entry ∈ settings.overrides, ¬ Operator.Spells entry.1 operator) →
          dialect.template operator = postgres.template operator) ∧
        ∀ e : Expr, (∀ operator, e.Uses operator →
            ∀ entry ∈ settings.overrides, ¬ Operator.Spells entry.1 operator) →
          dialect.compile style e = postgres.compile style e := by
  refine ⟨?_, ?_, ?_, ?_⟩
  · intro dialect next name template operator hspells hnext e huses
    obtain ⟨other, hother, -, rfl⟩ := overrideNamed_eq_ok.1 hnext
    obtain rfl := hspells.unique (Operator.named?_eq_some.1 hother)
    exact compile_replace dialect template style huses
  · intro dialect final before after first second operator other hfirst hsecond hne
    exact overrideAll_swap hfirst hsecond hne before after dialect final
  · intro dialect final before after first later operator hfirst hsuits hmem hlater
    exact overrideAll_drop hfirst hsuits hmem hlater before dialect final
  · intro settings hordered
    refine ⟨by simp [dialect_eq_ok], ?_⟩
    intro dialect hdialect
    obtain ⟨-, rfl⟩ := dialect_eq_ok.1 hdialect
    have huntouched : ∀ operator,
        (∀ entry ∈ settings.overrides, ¬ Operator.Spells entry.1 operator) →
        (postgres.withLast settings.templates).template operator = postgres.template operator := by
      intro operator hnone
      have hlast : lastTemplate? operator settings.templates = none := by
        rw [lastTemplate?_eq_none_iff, templates, List.forall_mem_map]
        exact hnone
      simp [withLast, hlast]
    refine ⟨?_, huntouched, ?_⟩
    · intro operator entry hmem hspells hgreatest
      have hlast : lastTemplate? operator settings.templates = some (.ofPattern entry.2) :=
        lastTemplate?_of_ordered hordered hmem hspells hgreatest
      simp [withLast, hlast]
    · intro e hunused
      have hdraft : (postgres.withLast settings.templates).draft e = postgres.draft e :=
        draft_congr fun operator huses => huntouched operator (hunused operator huses)
      rw [compile, compile, hdraft]

/-- Of two spellings of `AND` the one in small letters is the greater one. -/
theorem overrides_local_spellings :
    let settings : Settings :=
      ⟨.anonymous, [("AND", "all(\x7b*\x7d)"), ("and", "every(\x7b*\x7d)")], .standard⟩
    let e : Expr := .operation .not [.constant .null]
    settings.overrides.Ordered ∧ ¬ e.Uses .and ∧
      ∃ dialect, settings.dialect = .ok dialect ∧
        dialect.template .and = .ofPattern "every(\x7b*\x7d)" ∧
        dialect.template .or = postgres.template .or ∧
        dialect.compile .numbered e = postgres.compile .numbered e := by
  intro settings e
  have hspells : Operator.Spells "AND" .and ∧ Operator.Spells "and" .and := by decide
  have hor : ∀ entry ∈ settings.overrides, ¬ Operator.Spells entry.1 .or := by decide
  have hnot : ∀ entry ∈ settings.overrides, ¬ Operator.Spells entry.1 .not := by decide
  have hless : "AND" < "and" := by decide +kernel
  have hordered : settings.overrides.Ordered := by
    simpa [settings, Keyed.Ordered] using hless
  have hsuited : SuitedBy .and "all(\x7b*\x7d)" ∧ SuitedBy .and "every(\x7b*\x7d)" :=
    ⟨⟨[.text "all(", .allOperands, .text ")"], rfl, by simp⟩,
      ⟨[.text "every(", .allOperands, .text ")"], rfl, by simp⟩⟩
  have huses : ∀ operator, e.Uses operator ↔ operator = .not := by
    simp [e]
  obtain ⟨hbuilds, hdialect⟩ := (overrides_local .numbered).2.2.2 settings hordered
  have haccepted : ∀ entry ∈ settings.overrides,
      ∃ operator, Operator.Spells entry.1 operator ∧ SuitedBy operator entry.2 := by
    simp only [settings, List.mem_cons, List.not_mem_nil, or_false, forall_eq_or_imp, forall_eq]
    exact ⟨⟨_, hspells.1, hsuited.1⟩, _, hspells.2, hsuited.2⟩
  obtain ⟨dialect, hok⟩ := hbuilds.2 haccepted
  obtain ⟨hgreatest, huntouched, hcompile⟩ := hdialect dialect hok
  refine ⟨hordered, by simp [huses], dialect, hok, ?_, ?_, ?_⟩
  · apply hgreatest .and ("and", "every(\x7b*\x7d)") (by simp [settings]) hspells.2
    simp [settings, hless.le]
  · exact huntouched .or hor
  · apply hcompile
    simp only [huses, forall_eq]
    exact hnot

end Settings

end JsonbAlgebra
