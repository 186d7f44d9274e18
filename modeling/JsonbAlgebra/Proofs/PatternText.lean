import JsonbAlgebra.Proofs.Success
import JsonbAlgebra.Proofs.TextReading
import JsonbAlgebra.Template
import Mathlib.Data.List.Chain

/-!
# Patterns written back

A list of pieces is written as a pattern with every brace of a text doubled.  A brace that
opens a slot is never followed by another one, so the pattern is read as the pieces that
it was written from, whatever texts stand beside its slots.  Reading a pattern always
yields pieces of this kind: texts are not empty, and there is a slot between two of them.
-/

namespace JsonbAlgebra.Template

/-! ## Writing -/

def escaped (c : Char) : List Char :=
  if c = '\x7b' ∨ c = '\x7d' then [c, c] else [c]

namespace Piece

def isText : Piece → Bool
  | .text _ => true
  | _ => false

def written : Piece → List Char
  | .text value => value.toList.flatMap escaped
  | .operand index => '\x7b' :: (Nat.toDigits 10 (index + 1) ++ ['\x7d'])
  | .allOperands => ['\x7b', '*', '\x7d']

end Piece

def written (pieces : List Piece) : String :=
  String.ofList (pieces.flatMap Piece.written)

/-- Pieces with a slot between any two texts, none of them empty, and with operands that
can be numbered from one by unsigned 64-bit words. -/
structure Canonical (pieces : List Piece) : Prop where
  texts : .text "" ∉ pieces
  apart : pieces.IsChain fun piece next => ¬ (piece.isText = true ∧ next.isText = true)
  numbered : ∀ index, .operand index ∈ pieces → index < 0xffffffffffffffff

/-! ## Reading what is written -/

theorem outside_cons_of_ne (taken : List Char) {c : Char} (hopen : c ≠ '\x7b')
    (hclose : c ≠ '\x7d') (rest : List Char) :
    outside taken (c :: rest) = outside (c :: taken) rest := by
  rw [outside] <;> simp_all

theorem outside_escaped (taken : List Char) (c : Char) (rest : List Char) :
    outside taken (escaped c ++ rest) = outside (c :: taken) rest := by
  by_cases hopen : c = '\x7b'
  · subst hopen
    have hescaped : escaped '\x7b' = ['\x7b', '\x7b'] := rfl
    rw [hescaped, List.cons_append, List.cons_append, List.nil_append, outside]
  · by_cases hclose : c = '\x7d'
    · subst hclose
      have hescaped : escaped '\x7d' = ['\x7d', '\x7d'] := rfl
      rw [hescaped, List.cons_append, List.cons_append, List.nil_append, outside]
    · have hescaped : escaped c = [c] := if_neg (by simp [hopen, hclose])
      rw [hescaped, List.singleton_append, outside_cons_of_ne taken hopen hclose]

theorem outside_escapedText (taken text rest : List Char) :
    outside taken (text.flatMap escaped ++ rest) = outside (text.reverse ++ taken) rest := by
  induction text generalizing taken with
  | nil => rfl
  | cons c text ih =>
      rw [List.flatMap_cons, List.append_assoc, outside_escaped, ih, List.reverse_cons,
        List.append_assoc, List.singleton_append]

theorem inside_slot (taken slot : List Char) {digits : List Char} (hdigits : '\x7d' ∉ digits)
    (rest : List Char) :
    inside taken slot (digits ++ '\x7d' :: rest) = do
      let piece ← slotPiece (slot.reverse ++ digits)
      let pieces ← outside [] rest
      return textPiece taken ++ piece :: pieces := by
  induction digits generalizing slot with
  | nil => rw [List.nil_append, inside, List.append_nil]
  | cons c digits ih =>
      obtain ⟨hc, hdigits⟩ := not_or.1 (List.mem_cons.not.1 hdigits)
      rw [List.cons_append, inside, ih _ hdigits, List.reverse_cons, List.append_assoc,
        List.singleton_append]
      exact fun h => hc h.symm

theorem outside_slot (taken : List Char) {slot : List Char} {piece : Piece}
    (hclose : '\x7d' ∉ slot) (hopen : slot.head? ≠ some '\x7b')
    (hpiece : slotPiece slot = .ok piece) (rest : List Char) :
    outside taken ('\x7b' :: (slot ++ '\x7d' :: rest)) =
      (outside [] rest).map fun pieces => textPiece taken ++ piece :: pieces := by
  have hinside : outside taken ('\x7b' :: (slot ++ '\x7d' :: rest)) =
      inside taken [] (slot ++ '\x7d' :: rest) := by
    rw [outside]
    intro tail htail
    cases slot with
    | nil => cases htail
    | cons c slot => exact hopen (congrArg List.head? htail)
  rw [hinside, inside_slot taken [] hclose, List.reverse_nil, List.nil_append, hpiece]
  cases outside [] rest <;> rfl

theorem slotNumber_toDigits (n : Nat) : slotNumber (Nat.toDigits 10 n) = some n := by
  rw [slotNumber]
  · exact Text.readNatural_toDigits n
  · intro digits hplus
    have hdigit : '+'.isDigit = true :=
      Text.isDigit_of_mem_toDigits (n := n) (by rw [hplus]; exact List.mem_cons_self)
    exact absurd hdigit (by decide)

theorem slotPiece_toDigits {index : Nat} (h : index < 0xffffffffffffffff) :
    slotPiece (Nat.toDigits 10 (index + 1)) = .ok (.operand index) := by
  have hstar : Nat.toDigits 10 (index + 1) ≠ ['*'] := by
    intro hstar
    have hdigit : '*'.isDigit = true :=
      Text.isDigit_of_mem_toDigits (n := index + 1) (by rw [hstar]; exact List.mem_cons_self)
    exact absurd hdigit (by decide)
  have hrange : 1 ≤ index + 1 ∧ index + 1 < 0x10000000000000000 := by omega
  simp only [slotPiece, if_neg hstar, slotNumber_toDigits, if_pos hrange, Nat.add_sub_cancel]

/-- A piece that is no text is written as a slot that stands for it. -/
theorem exists_slot {piece : Piece} (htext : piece.isText = false)
    (hnumbered : ∀ index, piece = .operand index → index < 0xffffffffffffffff) :
    ∃ slot, piece.written = '\x7b' :: (slot ++ ['\x7d']) ∧ '\x7d' ∉ slot ∧
      slot.head? ≠ some '\x7b' ∧ slotPiece slot = .ok piece := by
  cases piece with
  | text value => cases htext
  | allOperands => exact ⟨['*'], rfl, by decide, by decide, rfl⟩
  | operand index =>
      have hdigits {c : Char} (hc : c ∈ Nat.toDigits 10 (index + 1)) : c.isDigit = true :=
        Text.isDigit_of_mem_toDigits hc
      refine ⟨_, rfl, fun hclose => ?_, fun hopen => ?_, slotPiece_toDigits (hnumbered index rfl)⟩
      · exact absurd (hdigits hclose) (by decide)
      · exact absurd (hdigits (List.mem_of_mem_head? hopen)) (by decide)

theorem textPiece_reverse {value : String} (h : value ≠ "") :
    textPiece value.toList.reverse = [.text value] := by
  have hne : value.toList.reverse ≠ [] := by simpa using h
  unfold textPiece
  split
  · rename_i hnil
    exact absurd hnil hne
  · rw [List.reverse_reverse, String.ofList_toList]

theorem canonical_nil : Canonical [] :=
  ⟨nofun, .nil, nofun⟩

theorem canonical_cons {piece : Piece} {pieces : List Piece} :
    Canonical (piece :: pieces) ↔
      piece ≠ .text "" ∧ (∀ index, piece = .operand index → index < 0xffffffffffffffff) ∧
        (∀ next ∈ pieces.head?, ¬ (piece.isText = true ∧ next.isText = true)) ∧
        Canonical pieces := by
  constructor
  · rintro ⟨htexts, hapart, hnumbered⟩
    obtain ⟨hhead, htail⟩ := List.isChain_cons.1 hapart
    exact ⟨fun h => htexts (h ▸ List.mem_cons_self),
      fun index h => hnumbered index (h ▸ List.mem_cons_self), hhead,
      fun h => htexts (List.mem_cons_of_mem _ h), htail,
      fun index h => hnumbered index (List.mem_cons_of_mem _ h)⟩
  · rintro ⟨htext, hindex, hhead, htexts, hapart, hnumbered⟩
    refine ⟨fun h => ?_, List.isChain_cons.2 ⟨hhead, hapart⟩, fun index h => ?_⟩
    · rcases List.mem_cons.1 h with h | h
      · exact htext h.symm
      · exact htexts h
    · rcases List.mem_cons.1 h with h | h
      · exact hindex index h.symm
      · exact hnumbered index h

/-- Pieces behind collected text are read as they were written; a text among them begins
only where none is collected. -/
theorem outside_written {taken : List Char} {pieces : List Piece} (h : Canonical pieces)
    (htaken : taken = [] ∨ ∀ piece ∈ pieces.head?, piece.isText = false) :
    outside taken (pieces.flatMap Piece.written) = .ok (textPiece taken ++ pieces) := by
  induction pieces generalizing taken with
  | nil => rw [List.flatMap_nil, outside, List.append_nil]
  | cons piece pieces ih =>
      obtain ⟨htext, hindex, hhead, hpieces⟩ := canonical_cons.1 h
      rw [List.flatMap_cons]
      cases hkind : piece.isText with
      | true =>
          obtain rfl : taken = [] := by
            rcases htaken with hnil | hslot
            · exact hnil
            · rw [hslot piece rfl] at hkind
              cases hkind
          cases piece with
          | text value =>
              have hvalue : value ≠ "" := fun hempty => htext (hempty ▸ rfl)
              have hslot : ∀ next ∈ pieces.head?, next.isText = false := fun next hnext => by
                simpa [Piece.isText] using hhead next hnext
              rw [Piece.written, outside_escapedText, List.append_nil, ih hpieces (.inr hslot),
                textPiece_reverse hvalue]
              rfl
          | _ => cases hkind
      | false =>
          obtain ⟨slot, hwritten, hclose, hopen, hpiece⟩ := exists_slot hkind hindex
          rw [hwritten, List.cons_append, List.append_assoc, List.singleton_append,
            outside_slot taken hclose hopen hpiece, ih hpieces (.inl rfl)]
          rfl

theorem parse_written {pieces : List Piece} (h : Canonical pieces) :
    parse (written pieces) = .ok pieces := by
  have hread := outside_written h (.inl rfl)
  rw [parse, written, String.toList_ofList, hread]
  rfl

/-! ## What is read -/

theorem canonical_textPiece_append (taken : List Char) {pieces : List Piece}
    (h : Canonical pieces) (hslot : ∀ piece ∈ pieces.head?, piece.isText = false) :
    Canonical (textPiece taken ++ pieces) := by
  cases taken with
  | nil => exact h
  | cons c taken =>
      refine canonical_cons.2 ⟨fun hempty => ?_, nofun, fun next hnext => ?_, h⟩
      · have hchars := congrArg String.toList (Piece.text.inj hempty)
        simp at hchars
      · simp [hslot next hnext]

theorem isText_of_slotPiece {slot : List Char} {piece : Piece} (h : slotPiece slot = .ok piece) :
    piece.isText = false ∧ ∀ index, piece = .operand index → index < 0xffffffffffffffff := by
  unfold slotPiece at h
  split at h
  · cases h
    exact ⟨rfl, nofun⟩
  · split at h
    · rename_i number _
      split at h
      · cases h
        refine ⟨rfl, ?_⟩
        rintro index ⟨⟩
        omega
      · cases h
    · cases h

theorem canonical_cons_of_slotPiece {slot : List Char} {piece : Piece} {pieces : List Piece}
    (hpiece : slotPiece slot = .ok piece) (h : Canonical pieces) : Canonical (piece :: pieces) := by
  obtain ⟨hslot, hnumbered⟩ := isText_of_slotPiece hpiece
  refine canonical_cons.2 ⟨?_, hnumbered, ?_, h⟩
  · rintro rfl
    cases hslot
  · simp [hslot]

/-- Reading keeps to such pieces in and out of slots. -/
theorem canonical_of_outside :
    (∀ taken text pieces, outside taken text = .ok pieces → Canonical pieces) ∧
      ∀ taken slot text pieces, inside taken slot text = .ok pieces → Canonical pieces := by
  refine outside.mutual_induct
    (fun taken text => ∀ pieces, outside taken text = .ok pieces → Canonical pieces)
    (fun taken slot text => ∀ pieces, inside taken slot text = .ok pieces → Canonical pieces)
    ?openBrace ?closeBrace ?slotBegin ?unmatched ?character ?textEnd ?slotEnd ?slotCharacter
    ?unclosed
  case openBrace =>
    intro taken rest ih pieces h
    rw [outside] at h
    exact ih pieces h
  case closeBrace =>
    intro taken rest ih pieces h
    rw [outside] at h
    exact ih pieces h
  case slotBegin =>
    intro taken rest hsingle ih pieces h
    rw [outside] at h
    · exact ih pieces h
    · exact hsingle
  case unmatched =>
    intro taken rest hsingle pieces h
    rw [outside] at h
    · cases h
    · exact hsingle
  case character =>
    intro taken c rest _ _ hopen hclose ih pieces h
    rw [outside_cons_of_ne taken hopen hclose] at h
    exact ih pieces h
  case textEnd =>
    intro taken pieces h
    rw [outside] at h
    cases h
    have hpieces := canonical_textPiece_append taken canonical_nil (by simp)
    rwa [List.append_nil] at hpieces
  case slotEnd =>
    intro taken slot rest ih pieces h
    rw [inside] at h
    obtain ⟨piece, hpiece, h⟩ := bind_eq_ok.1 h
    obtain ⟨others, hothers, h⟩ := bind_eq_ok.1 h
    cases h
    refine canonical_textPiece_append taken
      (canonical_cons_of_slotPiece hpiece (ih others hothers)) ?_
    rintro _ ⟨⟩
    exact (isText_of_slotPiece hpiece).1
  case slotCharacter =>
    intro taken slot c rest hclose ih pieces h
    rw [inside] at h
    · exact ih pieces h
    · exact hclose
  case unclosed =>
    intro taken slot pieces h
    cases h

theorem canonical_of_parse {pattern : String} {pieces : List Piece}
    (h : parse pattern = .ok pieces) : Canonical pieces :=
  canonical_of_outside.1 _ _ _ (mapError_eq_ok.1 h)

/-- Without braces a text is written as it stands. -/
theorem parse_of_no_brace {pattern : String} (hopen : '\x7b' ∉ pattern.toList)
    (hclose : '\x7d' ∉ pattern.toList) :
    parse pattern = .ok (if pattern = "" then [] else [.text pattern]) := by
  split
  · subst pattern
    rfl
  · rename_i hne
    have hescaped : ∀ c ∈ pattern.toList, escaped c = [c] := by
      intro c hc
      refine if_neg ?_
      rintro (rfl | rfl)
      · exact hopen hc
      · exact hclose hc
    have hchars : pattern.toList.flatMap escaped = pattern.toList :=
      (List.flatMap_congr hescaped).trans (List.flatMap_singleton' _)
    have hwritten : written [.text pattern] = pattern := by
      rw [written, List.flatMap_singleton, Piece.written, hchars, String.ofList_toList]
    have hcanonical : Canonical [.text pattern] :=
      canonical_cons.2 ⟨by simpa using hne, nofun, nofun, canonical_nil⟩
    have hparse := parse_written hcanonical
    rwa [hwritten] at hparse

/-- Pieces that can be written are read back from their pattern, and every pattern that can
be read yields such pieces, so reading, writing and reading again gives the same pieces.  A
pattern without braces is one text, or none if it is empty. -/
theorem parse_written_pieces :
    (∀ pieces, Canonical pieces → parse (written pieces) = .ok pieces) ∧
    (∀ pattern pieces, parse pattern = .ok pieces →
      Canonical pieces ∧ parse (written pieces) = parse pattern) ∧
    ∀ pattern : String, '\x7b' ∉ pattern.toList → '\x7d' ∉ pattern.toList →
      parse pattern = .ok (if pattern = "" then [] else [.text pattern]) := by
  refine ⟨fun pieces => parse_written, fun pattern pieces h => ?_, fun pattern => parse_of_no_brace⟩
  have hcanonical := canonical_of_parse h
  exact ⟨hcanonical, by rw [parse_written hcanonical, h]⟩

/-- Braces beside slots on either side, two slots in a row and the last operand there is,
and a number with a sign and a zero, which is written back without them. -/
theorem parse_written_pieces_braces :
    let pieces : List Piece :=
      [.text "\x7b", .operand 0, .text "\x7d\x7d", .allOperands, .operand 0xfffffffffffffffe]
    let pattern := "\x7b\x7b\x7b1\x7d\x7d\x7d\x7d\x7d\x7b*\x7d\x7b18446744073709551615\x7d"
    written pieces = pattern ∧ Canonical pieces ∧ parse pattern = .ok pieces ∧
      parse "f(\x7b+02\x7d)" = .ok [.text "f(", .operand 1, .text ")"] ∧
      parse (written [.text "f(", .operand 1, .text ")"]) = parse "f(\x7b+02\x7d)" ∧
      parse "a, b" = .ok [.text "a, b"] := by
  intro pieces pattern
  obtain ⟨hwritten, hparsed, hplain⟩ := parse_written_pieces
  have hsigned : parse "f(\x7b+02\x7d)" = .ok [.text "f(", .operand 1, .text ")"] := rfl
  have hpattern : written pieces = pattern := by decide
  have hcanonical : Canonical pieces :=
    ⟨by decide, by simp [pieces, Piece.isText], by simp [pieces]⟩
  refine ⟨hpattern, hcanonical, ?_, hsigned, (hparsed _ _ hsigned).2, ?_⟩
  · rw [← hpattern]
    exact hwritten pieces hcanonical
  · exact hplain "a, b" (by decide) (by decide)

end JsonbAlgebra.Template
