import JsonbAlgebra.Proofs.DraftComposition
import JsonbAlgebra.Proofs.PostgresPhrases

/-!
# Phrases around drafts

A PostgreSQL template filled with the drafts of its operands is its phrase around
them: the opening, the operands in order with links between them, and the closing.
What holds of an operation's draft or text can then be shown by recursion over the
operands, without a look at the template.
-/

namespace JsonbAlgebra

namespace Phrase

/-- A phrase from behind the operand at an index on, with the drafts of the operands
that are left. -/
def laterDraft (phrase : Phrase) : Nat → List Draft → Draft
  | _, [] => [.sql phrase.closing]
  | index, operand :: operands =>
    .sql (phrase.link index) :: (operand ++ phrase.laterDraft (index + 1) operands)

def draft (phrase : Phrase) : List Draft → Draft
  | [] => [.sql phrase.opening, .sql phrase.closing]
  | operand :: operands => .sql phrase.opening :: (operand ++ phrase.laterDraft 0 operands)

section Filling

variable {template : Template} {operator : Operator} {operands : List Draft}

/-- The induction is on the operands that are left; those before them only
say at which index the next one stands. -/
theorem flatten_laterPieces (phrase : Phrase) (before after : List Draft) {index : Nat}
    (hoperands : operands = before ++ after) (hindex : before.length = index + 1)
    {drafts : List Draft}
    (h : List.Forall₂ (fun piece d => template.fillPiece operator operands piece = .ok d)
      (phrase.laterPieces index after.length) drafts) :
    drafts.flatten = phrase.laterDraft index after := by
  induction after generalizing before index drafts with
  | nil =>
      obtain _ | ⟨hclosing, hnil⟩ := h
      cases hnil
      cases hclosing
      rfl
  | cons operand after ih =>
      obtain _ | ⟨hlink, _ | ⟨hoperand, hrest⟩⟩ := h
      have hget : operands[index + 1]? = some operand := by
        rw [hoperands, ← hindex, List.getElem?_append_right (Nat.le_refl _), Nat.sub_self]
        rfl
      rw [Template.fillPiece, hget] at hoperand
      cases hlink
      cases hoperand
      have hlater := ih (before ++ [operand]) (by rw [hoperands, List.append_assoc]; rfl)
        (by rw [List.length_append, hindex]; rfl) hrest
      rw [List.flatten_cons, List.flatten_cons, hlater]
      rfl

theorem separate_append_closing (phrase : Phrase) {separator : String}
    (hlink : ∀ index, phrase.link index = separator) (index : Nat) (first : Draft)
    (others : List Draft) :
    Draft.separate separator (first :: others) ++ [.sql phrase.closing] =
      first ++ phrase.laterDraft index others := by
  induction others generalizing index first with
  | nil => rfl
  | cons next others ih =>
      rw [Draft.separate_cons_cons, List.append_assoc, List.cons_append, ih (index + 1),
        laterDraft, hlink index]

/-- A template whose pieces are those of a phrase is filled by writing the phrase. -/
theorem eq_draft_of_fill {phrase : Phrase} {path : Bool} {draft : Draft}
    (hpieces : template.pieces path = .ok (phrase.pieces operator.contract.most))
    (hlink : operator.contract.most = none → ∀ index, phrase.link index = template.separator)
    (hadmits : operator.contract.admits operands.length = true) (hpos : 0 < operands.length)
    (h : template.fill operator path operands = .ok draft) : draft = phrase.draft operands := by
  obtain ⟨pieces, drafts, hread, hdrafts, rfl⟩ := Template.fill_eq_ok.1 h
  obtain rfl := Except.ok.inj (hpieces.symm.trans hread)
  obtain _ | ⟨first, others⟩ := operands
  · cases hpos
  cases hmost : operator.contract.most with
  | some most =>
      rw [Operator.admits_iff_of_most hmost] at hadmits
      rw [hmost, ← hadmits] at hdrafts
      obtain _ | ⟨hopening, _ | ⟨hfirst, hlater⟩⟩ := hdrafts
      cases hopening
      cases hfirst
      rw [List.flatten_cons, List.flatten_cons,
        flatten_laterPieces phrase [first] others rfl rfl hlater]
      rfl
  | none =>
      rw [hmost] at hdrafts
      obtain _ | ⟨hopening, _ | ⟨hall, _ | ⟨hclosing, hnil⟩⟩⟩ := hdrafts
      cases hopening
      cases hall
      cases hclosing
      cases hnil
      rw [List.flatten_cons, List.flatten_cons, List.flatten_singleton,
        separate_append_closing phrase (hlink hmost) 0 first others]
      rfl

end Filling

end Phrase

namespace Dialect

theorem eq_draft_of_fill {operator : Operator} {path : Bool} {operands : List Draft}
    {draft : Draft} (hadmits : operator.contract.admits operands.length = true)
    (h : (postgresTemplate operator).fill operator path operands = .ok draft) :
    draft = (postgresPhrase operator path).draft operands :=
  Phrase.eq_draft_of_fill (postgresTemplate_pieces operator path)
    (fun hmost => postgresPhrase_link_of_variadic hmost path) hadmits
    (postgresPhrase_takes path hadmits).pos h

theorem postgres_draft_operation_eq_ok {operator : Operator} {operands : List Expr}
    {draft : Draft} (hfault : Expr.applicationFault? operator operands = none)
    (h : postgres.draft (.operation operator operands) = .ok draft) :
    ∃ drafts,
      List.Forall₂ (fun operand d => postgres.draft operand = .ok d) operands drafts ∧
      draft = (postgresPhrase operator (takesPath operands)).draft drafts := by
  obtain ⟨drafts, hdrafts, hfill⟩ := draft_operation_eq_ok.1 h
  have hadmits := (Expr.applicationFault?_eq_none hfault).1
  rw [hdrafts.length_eq] at hadmits
  exact ⟨drafts, hdrafts, eq_draft_of_fill hadmits hfill⟩

end Dialect

end JsonbAlgebra
