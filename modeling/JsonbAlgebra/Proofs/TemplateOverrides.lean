import JsonbAlgebra.Proofs.DraftComposition
import JsonbAlgebra.Proofs.PostgresPhrases

/-!
# Overridden templates

A template is accepted for an operator if both of its patterns can be read and
name only operands that the operator can have.  Every dialect that overrides
make of the one for PostgreSQL consists of such templates, so an operation
whose operator fixes the number of operands always has what its pattern names.
What is left to fail is an operation without such a number that is shorter
than its pattern expects.  It fails wherever it stands, since every operand is
drafted before a template chooses among the drafts.
-/

namespace JsonbAlgebra

namespace Template

/-- The pieces name only operands that the operator can have. -/
def Admissible (operator : Operator) (pieces : List Piece) : Prop :=
  ∀ most, operator.contract.most = some most → ∀ index, .operand index ∈ pieces → index < most

/-- With or without a path, the template can be read and names only operands
that the operator can have. -/
def Suits (template : Template) (operator : Operator) : Prop :=
  ∀ path, ∃ pieces, template.pieces path = .ok pieces ∧ Admissible operator pieces

theorem beyond?_eq_none {operator : Operator} {pattern : String} {pieces : List Piece} :
    beyond? operator pattern pieces = none ↔ Admissible operator pieces := by
  unfold beyond? Admissible
  cases operator.contract.most with
  | none => simp
  | some most =>
      rw [Option.bind_some, List.findSome?_eq_none_iff]
      constructor
      · rintro h _ ⟨⟩ index hmem
        simpa using h _ hmem
      · intro h piece hmem
        cases piece with
        | operand index => simpa using h most rfl index hmem
        | text value => rfl
        | allOperands => rfl

theorem checkPattern_eq_ok {operator : Operator} {pattern : String} :
    checkPattern operator pattern = .ok () ↔
      ∃ pieces, parse pattern = .ok pieces ∧ Admissible operator pieces := by
  unfold checkPattern
  rw [bind_eq_ok]
  refine exists_congr fun pieces => and_congr_right fun _ => ?_
  rw [← @beyond?_eq_none operator pattern pieces]
  cases beyond? operator pattern pieces with
  | none => simp [pure, Except.pure]
  | some fault => simp [throw, throwThe, MonadExceptOf.throw]

/-- The check reads just the patterns that can ever be chosen. -/
theorem check_eq_ok {template : Template} {operator : Operator} :
    template.check operator = .ok () ↔ template.Suits operator := by
  unfold check Suits
  rw [bind_eq_ok, Unique.exists_iff, Bool.forall_bool]
  cases hpath : template.pathPattern with
  | none => simp [← checkPattern_eq_ok, pieces, chosen, hpath, pure, Except.pure]
  | some pattern => simp [← checkPattern_eq_ok, pieces, chosen, hpath]

/-! ## Filling -/

section Filling

variable {template : Template} {operator : Operator} {path : Bool} {pieces : List Piece}
  {operands : List Draft} {fault : TemplateFault}

theorem fillPiece_eq_error {piece : Piece} :
    template.fillPiece operator operands piece = .error fault ↔
      ∃ index, piece = .operand index ∧ operands.length ≤ index ∧
        fault = .beyondOperands template.pattern (index + 1) operator operands.length := by
  cases piece with
  | text value => simp [fillPiece]
  | allOperands => simp [fillPiece]
  | operand index =>
      rw [fillPiece]
      by_cases hbeyond : operands.length ≤ index
      · rw [List.getElem?_eq_none hbeyond]
        simp [hbeyond, eq_comm]
      · rw [List.getElem?_eq_getElem (Nat.lt_of_not_le hbeyond)]
        simpa using fun hle => absurd hle hbeyond

/-- Filling fails only over an operand that the pattern names and that is not there. -/
theorem exists_of_fill_eq_error (hpieces : template.pieces path = .ok pieces)
    (h : template.fill operator path operands = .error fault) :
    ∃ index, .operand index ∈ pieces ∧ operands.length ≤ index ∧
      fault = .beyondOperands template.pattern (index + 1) operator operands.length := by
  rw [fill, hpieces] at h
  change (pieces.mapM (template.fillPiece operator operands) >>= _) = _ at h
  obtain hpiece | ⟨drafts, -, hpure⟩ := bind_eq_error.1 h
  · obtain ⟨piece, hmem, hfault⟩ := exists_of_mapM_eq_error hpiece
    obtain ⟨index, rfl, hbeyond, rfl⟩ := fillPiece_eq_error.1 hfault
    exact ⟨index, hmem, hbeyond, rfl⟩
  · cases hpure

theorem lt_of_fill_eq_ok (hpieces : template.pieces path = .ok pieces) {draft : Draft}
    (h : template.fill operator path operands = .ok draft) {index : Nat}
    (hmem : .operand index ∈ pieces) : index < operands.length := by
  obtain ⟨others, drafts, hothers, hdrafts, -⟩ := fill_eq_ok.1 h
  obtain rfl : pieces = others := Except.ok.inj (hpieces.symm.trans hothers)
  obtain ⟨filled, hfilled⟩ := exists_of_mem_forall₂ hdrafts hmem
  by_contra hbeyond
  have hfault : template.fillPiece operator operands (.operand index) = .error _ :=
    fillPiece_eq_error.2 ⟨index, rfl, Nat.le_of_not_lt hbeyond, rfl⟩
  cases hfilled.symm.trans hfault

end Filling

end Template

/-! ## Templates that suit their operators -/

namespace Phrase

theorem index_le_of_mem_laterPieces {phrase : Phrase} {first count index : Nat}
    (hmem : .operand index ∈ phrase.laterPieces first count) : index ≤ first + count := by
  induction count generalizing first with
  | zero => simp [laterPieces] at hmem
  | succ count ih =>
      simp only [laterPieces, List.mem_cons, reduceCtorEq, false_or, Template.Piece.operand.injEq]
        at hmem
      obtain rfl | hlater := hmem
      · omega
      · have hle := ih hlater
        omega

theorem admissible_pieces {phrase : Phrase} {operator : Operator}
    (hmost : operator.contract.most ≠ some 0) :
    Template.Admissible operator (phrase.pieces operator.contract.most) := by
  intro most heq index hmem
  have hpos : 0 < most := Nat.pos_of_ne_zero fun hzero => hmost (hzero ▸ heq)
  simp only [heq, pieces, List.mem_cons, reduceCtorEq, false_or, Template.Piece.operand.injEq]
    at hmem
  obtain rfl | hlater := hmem
  · exact hpos
  · have hle := index_le_of_mem_laterPieces hlater
    omega

end Phrase

namespace Dialect

/-- Every template suits its operator. -/
def Suited (dialect : Dialect) : Prop :=
  ∀ operator, (dialect.template operator).Suits operator

theorem postgres_suited : postgres.Suited := by
  intro operator path
  refine ⟨_, postgresTemplate_pieces operator path, Phrase.admissible_pieces ?_⟩
  cases operator <;> simp [Operator.contract, Contract.exact]

theorem overrideNamed_eq_ok {dialect next : Dialect} {name : String} {template : Template} :
    dialect.overrideNamed name template = .ok next ↔
      ∃ operator, Operator.named? name = some operator ∧ template.Suits operator ∧
        next = dialect.replace operator template := by
  unfold overrideNamed
  cases hnamed : Operator.named? name with
  | none => simp
  | some operator =>
      simp only [mapError_eq_ok, override, map_eq_ok, Unique.exists_iff, Option.some.injEq,
        exists_eq_left']
      exact and_congr Template.check_eq_ok eq_comm

theorem Suited.replace {dialect : Dialect} (hsuited : dialect.Suited) {operator : Operator}
    {template : Template} (hsuits : template.Suits operator) :
    (dialect.replace operator template).Suited := by
  intro other
  by_cases heq : other = operator
  · simpa [Dialect.replace, heq] using hsuits
  · simpa [Dialect.replace, heq] using hsuited other

/-- Overrides one after another, each with the name of an operator. -/
def overrideAll (dialect : Dialect) (overrides : List (String × Template)) :
    Except Fault Dialect :=
  overrides.foldlM (fun dialect entry => dialect.overrideNamed entry.1 entry.2) dialect

theorem Suited.overrideAll {dialect final : Dialect} (hsuited : dialect.Suited)
    {overrides : List (String × Template)}
    (h : dialect.overrideAll overrides = .ok final) : final.Suited := by
  refine foldlM_invariant (fun _ _ before next hstep hbefore => ?_) h hsuited
  obtain ⟨operator, -, hsuits, rfl⟩ := overrideNamed_eq_ok.1 hstep
  exact hbefore.replace hsuits

end Dialect

/-! ## Operations that are too short for their pattern -/

namespace Dialect

/-- An operation, of an operator whose operands are not limited in number, has
no operand at an index that its pattern names. -/
structure Overreaches (dialect : Dialect) (operator : Operator) (operands : List Expr)
    (index : Nat) : Prop where
  variadic : operator ∈ [.buildObject, .and, .or, .coalesce]
  named : ∃ pieces,
    Template.parse ((dialect.template operator).chosen (takesPath operands)) = .ok pieces ∧
      .operand index ∈ pieces
  beyond : operands.length ≤ index

theorem mem_variadic_of_most {operator : Operator} (hmost : operator.contract.most = none) :
    operator ∈ [Operator.buildObject, .and, .or, .coalesce] := by
  cases operator <;> first | decide | cases hmost

section Drafting

variable {dialect : Dialect} {e : Expr}

/-- A fixed number of operands covers all that an admissible pattern names. -/
theorem Suited.overreaches (hsuited : dialect.Suited) {operator : Operator}
    {operands : List Expr} (hcheck : Expr.applicationFault? operator operands = none)
    {pieces : List Template.Piece}
    (hpieces : (dialect.template operator).pieces (takesPath operands) = .ok pieces)
    {index : Nat} (hmem : .operand index ∈ pieces) (hbeyond : operands.length ≤ index) :
    dialect.Overreaches operator operands index := by
  refine ⟨mem_variadic_of_most ?_, ⟨pieces, hpieces, hmem⟩, hbeyond⟩
  obtain ⟨others, hothers, hadmissible⟩ := hsuited operator (takesPath operands)
  obtain rfl : pieces = others := Except.ok.inj (hpieces.symm.trans hothers)
  cases hmost : operator.contract.most with
  | none => rfl
  | some most =>
      have hadmits := (Expr.applicationFault?_eq_none hcheck).1
      have hlength : operands.length = most := (Operator.admits_iff_of_most hmost).1 hadmits
      have hlt := hadmissible most hmost index hmem
      omega

/-- What is wrong with a draft is that an operation somewhere overreaches.
The induction is on the expression: the fault is that of an operand, which
comes first, or of the template over the drafts of all operands. -/
theorem Suited.exists_of_draft_eq_error (hsuited : dialect.Suited) (he : e.WellFormed)
    {fault : TemplateFault} (h : dialect.draft e = .error fault) :
    ∃ operator operands index, Expr.Within (.operation operator operands) e ∧
      dialect.Overreaches operator operands index ∧
      fault = .beyondOperands (dialect.template operator).pattern (index + 1) operator
        operands.length := by
  induction e with
  | column ref => cases h
  | constant value => cases h
  | operation operator operands ih =>
      obtain ⟨hcheck, hoperands⟩ := Expr.wellFormed_operation_iff.1 he
      rw [Dialect.draft, draftAll_eq_mapM, bind_eq_error] at h
      obtain hoperand | ⟨drafts, hdrafts, hfill⟩ := h
      · obtain ⟨operand, hmem, hfault⟩ := exists_of_mapM_eq_error hoperand
        obtain ⟨other, others, index, hwithin, hover, rfl⟩ := ih operand hmem
          (hoperands operand hmem) hfault
        exact ⟨other, others, index, .operand hmem hwithin, hover, rfl⟩
      · have hlength := (mapM_eq_ok.1 hdrafts).length_eq
        obtain ⟨pieces, hpieces, -⟩ := hsuited operator (takesPath operands)
        obtain ⟨index, hmem, hbeyond, rfl⟩ := Template.exists_of_fill_eq_error hpieces hfill
        rw [← hlength] at hbeyond ⊢
        exact ⟨operator, operands, index, .whole,
          hsuited.overreaches hcheck hpieces hmem hbeyond, rfl⟩

/-- All that stands in an expression is drafted along with it, also where a
template above drops it. -/
theorem exists_draft_of_within {part : Expr} (hwithin : part.Within e) {draft : Draft}
    (h : dialect.draft e = .ok draft) : ∃ inner, dialect.draft part = .ok inner := by
  induction hwithin generalizing draft with
  | whole => exact ⟨draft, h⟩
  | operand hmem _ ih =>
      obtain ⟨drafts, hdrafts, -⟩ := draft_operation_eq_ok.1 h
      obtain ⟨other, hother⟩ := exists_of_mem_forall₂ hdrafts hmem
      exact ih hother

theorem Overreaches.not_within {operator : Operator} {operands : List Expr} {index : Nat}
    (hover : dialect.Overreaches operator operands index) {draft : Draft}
    (h : dialect.draft e = .ok draft) : ¬ Expr.Within (.operation operator operands) e := by
  intro hwithin
  obtain ⟨inner, hinner⟩ := exists_draft_of_within hwithin h
  obtain ⟨drafts, hdrafts, hfill⟩ := draft_operation_eq_ok.1 hinner
  obtain ⟨pieces, hpieces, hmem⟩ := hover.named
  have hlt := Template.lt_of_fill_eq_ok hpieces hfill hmem
  have hlength := hdrafts.length_eq
  have hbeyond := hover.beyond
  omega

end Drafting

/-- Accepted overrides leave one way to fail: an operation that an expression
holds anywhere, of an operator that takes any number of operands, has fewer of
them than its pattern expects. -/
theorem compile_fails_iff_overreaches {overrides : List (String × Template)} {dialect : Dialect}
    (hreached : postgres.overrideAll overrides = .ok dialect) (style : Placeholder) {e : Expr}
    (he : e.WellFormed) :
    ((∃ fault, dialect.compile style e = .error fault) ↔
      ∃ operator operands index, Expr.Within (.operation operator operands) e ∧
        dialect.Overreaches operator operands index) ∧
    ∀ fault, dialect.compile style e = .error fault →
      (Fault.template fault).kind = "template_error" ∧
      ∃ operator operands index, Expr.Within (.operation operator operands) e ∧
        dialect.Overreaches operator operands index ∧
        fault = .beyondOperands (dialect.template operator).pattern (index + 1) operator
          operands.length := by
  have hsuited := postgres_suited.overrideAll hreached
  have hfault : ∀ fault, dialect.compile style e = .error fault → _ :=
    fun fault h => hsuited.exists_of_draft_eq_error he (compile_eq_error.1 h)
  refine ⟨⟨?_, ?_⟩, fun fault h => ⟨rfl, hfault fault h⟩⟩
  · rintro ⟨fault, h⟩
    obtain ⟨operator, operands, index, hwithin, hover, -⟩ := hfault fault h
    exact ⟨operator, operands, index, hwithin, hover⟩
  · rintro ⟨operator, operands, index, hwithin, hover⟩
    cases hcompile : dialect.compile style e with
    | error fault => exact ⟨fault, rfl⟩
    | ok statement =>
        obtain ⟨draft, hdraft, -⟩ := compile_eq_ok.1 hcompile
        exact absurd hwithin (hover.not_within hdraft)

/-- A template for paths that asks for three operands is accepted for
`COALESCE`.  It is chosen over a null and a path and fails there, though the
cast above drops whatever it is given. -/
theorem compile_fails_iff_overreaches_dropped :
    let choice : Template := ⟨"coalesce(\x7b*\x7d)", ", ", some "nth(\x7b3\x7d)"⟩
    let e : Expr := .operation .castText
      [.operation .coalesce [.constant .null, .constant (.textArray ["k"])]]
    ∃ dialect,
      postgres.overrideAll [("COALESCE", choice), ("CAST_TEXT", .ofPattern "DEFAULT")] =
        .ok dialect ∧
      e.WellFormed ∧
      ∃ fault, dialect.compile .anonymous e = .error fault ∧
        (Fault.template fault).kind = "template_error" := by
  have hnames : Operator.named? "COALESCE" = some .coalesce ∧
      Operator.named? "CAST_TEXT" = some .castText := by
    decide +kernel
  have hchoice : Template.Suits ⟨"coalesce(\x7b*\x7d)", ", ", some "nth(\x7b3\x7d)"⟩ .coalesce :=
    Template.check_eq_ok.1 rfl
  have hfixed : Template.Suits (.ofPattern "DEFAULT") .castText := Template.check_eq_ok.1 rfl
  have hpieces : Template.parse "nth(\x7b3\x7d)" =
      .ok [.text "nth(", .operand 2, .text ")"] := rfl
  intro choice e
  have hreached : postgres.overrideAll
      [("COALESCE", choice), ("CAST_TEXT", .ofPattern "DEFAULT")] = .ok _ :=
    foldlM_cons_eq_ok.2 ⟨_, overrideNamed_eq_ok.2 ⟨_, hnames.1, hchoice, rfl⟩,
      foldlM_cons_eq_ok.2 ⟨_, overrideNamed_eq_ok.2 ⟨_, hnames.2, hfixed, rfl⟩, rfl⟩⟩
  have he : e.WellFormed := ⟨rfl, ⟨rfl, trivial, trivial, trivial⟩, trivial⟩
  obtain ⟨hfails, hkind⟩ := compile_fails_iff_overreaches hreached .anonymous he
  obtain ⟨fault, hfault⟩ := hfails.2
    ⟨.coalesce, _, 2, .operand List.mem_cons_self .whole,
      ⟨by decide, ⟨_, hpieces, by decide⟩, by decide⟩⟩
  exact ⟨_, hreached, he, fault, hfault, (hkind fault hfault).1⟩

end Dialect

end JsonbAlgebra
