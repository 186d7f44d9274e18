import JsonbAlgebra.Proofs.DraftComposition
import JsonbAlgebra.Proofs.Entries

/-!
# Alignment of text, parameters and bindings

The marks of a statement are counted four times: when its text is written,
when a value list takes several of them, when the slots of the parameters are
added up, and when the parameters are bound.  This module shows that the four
counts agree.

The text of a draft splits into chunks that do not depend on the kind of mark
nor on the first position, so statements with anonymous and with numbered
marks differ in nothing but the marks between the same chunks.  A successful
binding has one entry of the flattened parameters at each position.
-/

namespace JsonbAlgebra

/-- A first chunk of text and further ones, each behind the mark of the next
position. -/
def interleave (mark : Nat → String) : Nat → String → List String → String
  | _, first, [] => first
  | position, first, next :: chunks =>
    first ++ mark position ++ interleave mark (position + 1) next chunks

theorem interleave_append (mark : Nat → String) (position : Nat) (text first : String)
    (chunks : List String) :
    interleave mark position (text ++ first) chunks =
      text ++ interleave mark position first chunks := by
  cases chunks <;> simp [interleave, String.append_assoc]

/-- The marks of a value list stand between commas, which are chunks of their
own. -/
theorem interleave_commas (mark : Nat → String) (count position : Nat)
    (first last : String) (chunks : List String) :
    interleave mark position first (List.replicate count ", " ++ last :: chunks) =
      first ++ ", ".intercalate ((List.range' position (count + 1)).map mark) ++
        interleave mark (position + (count + 1)) last chunks := by
  induction count generalizing position first with
  | zero => simp [interleave]
  | succ count ih =>
      have hnext := ih (position + 1) ", "
      rw [List.replicate_succ, List.cons_append, interleave, hnext]
      have hposition : position + 1 + (count + 1) = position + (count + 1 + 1) := by omega
      rw [hposition, List.range'_succ (n := count + 1), List.range'_succ]
      simp [String.append_assoc]

namespace Draft

theorem exists_chunks (draft : Draft) :
    ∃ first chunks, chunks.length = slots draft ∧
      ∀ (style : Placeholder) (position : Nat),
        textFrom style position draft = interleave style.mark position first chunks := by
  induction draft with
  | nil => exact ⟨"", [], rfl, fun style position => rfl⟩
  | cons part rest ih =>
      obtain ⟨first, chunks, hlength, htext⟩ := ih
      cases part with
      | sql text =>
          refine ⟨text ++ first, chunks, hlength, ?_⟩
          intro style position
          rw [textFrom, htext, interleave_append]
      | parameter constant =>
          rw [slots_parameter, ← hlength]
          unfold Constant.slots
          cases hliteral : constant.literal with
          | list values =>
              cases values with
              | nil =>
                  refine ⟨"()" ++ first, chunks, by simp, ?_⟩
                  intro style position
                  rw [textFrom, htext, interleave_append]
                  simp [marks, Constant.slots, hliteral]
              | cons value values =>
                  refine ⟨"(", List.replicate values.length ", " ++ (")" ++ first) :: chunks,
                    by simp; omega, ?_⟩
                  intro style position
                  rw [textFrom, htext, interleave_commas, interleave_append]
                  simp [marks, Constant.slots, hliteral, String.append_assoc]
          | _ =>
              refine ⟨"", first :: chunks, by simp; omega, ?_⟩
              intro style position
              simp [textFrom, htext, marks, Constant.slots, hliteral, interleave]

end Draft

/-! ## Flattened parameters -/

def Statement.entries (statement : Statement) : List Entry :=
  statement.parameters.flatMap Constant.entries

theorem Statement.length_entries (statement : Statement) :
    statement.entries.length = statement.slots := by
  rw [entries, Constant.length_flatMap_entries, List.sum_eq_foldr, List.foldr_map, slots]

namespace Binding

/-- Bindings that follow entries from a position on: consecutive positions,
the values in order, and the declared type wherever there is one. -/
structure Follow (position : Nat) (entries : List Entry) (bindings : List Binding) : Prop where
  positions : bindings.map Binding.position = List.range' position entries.length
  values : bindings.map Binding.value = entries.map Entry.value
  types : List.Forall₂
    (fun entry binding => ∀ type, entry.declared = some type → binding.type = type)
    entries bindings

theorem Follow.nil (position : Nat) : Follow position [] [] :=
  ⟨rfl, rfl, .nil⟩

theorem Follow.append {position : Nat} {first second : List Entry}
    {bindings others : List Binding} (hfirst : Follow position first bindings)
    (hsecond : Follow (position + first.length) second others) :
    Follow position (first ++ second) (bindings ++ others) := by
  constructor
  · rw [List.map_append, hfirst.positions, hsecond.positions, List.length_append,
      List.range'_append_1]
  · rw [List.map_append, hfirst.values, hsecond.values, List.map_append]
  · exact List.rel_append hfirst.types hsecond.types

theorem bindAt_follow {position : Nat} {entry : Entry} {binding : Binding}
    (h : entry.bindAt position = .ok binding) : Follow position [entry] [binding] := by
  obtain ⟨value, declared⟩ := entry
  unfold Entry.bindAt at h
  cases declared with
  | some type =>
      cases h
      exact ⟨rfl, rfl, .cons (fun known hknown => Option.some.inj hknown) .nil⟩
  | none =>
      cases htyping : value.typing with
      | error shape => simp [htyping] at h
      | ok type =>
          simp only [htyping, Except.ok.injEq] at h
          subst h
          exact ⟨rfl, rfl, .cons nofun .nil⟩

theorem bindFrom_follow {position : Nat} {entries : List Entry} {bindings : List Binding}
    (h : Entry.bindFrom position entries = .ok bindings) : Follow position entries bindings := by
  induction entries generalizing position bindings with
  | nil =>
      cases h
      exact Follow.nil position
  | cons entry entries ih =>
      obtain ⟨first, others, hfirst, hothers, rfl⟩ := Entry.bindFrom_cons_eq_ok.1 h
      exact (bindAt_follow hfirst).append (ih hothers)

end Binding

/-! ## Aligned statements -/

structure BoundStatement.Fills (bound : BoundStatement) (statement : Statement) : Prop where
  sql : bound.sql = statement.sql
  positions : bound.bindings.map Binding.position = List.range' 1 statement.slots
  values : bound.bindings.map Binding.value = statement.entries.map Entry.value
  types : List.Forall₂
    (fun entry binding => ∀ type, entry.declared = some type → binding.type = type)
    statement.entries bound.bindings

theorem Statement.bind_fills {statement : Statement} {bound : BoundStatement}
    (h : statement.bind = .ok bound) : bound.Fills statement := by
  obtain ⟨bindings, hbindings, rfl⟩ := map_eq_ok.1 h
  rw [Binding.ofConstants, Binding.ofConstantsFrom_eq_bindFrom] at hbindings
  have hfollow := Binding.bindFrom_follow hbindings
  refine ⟨rfl, ?_, hfollow.values, hfollow.types⟩
  rw [hfollow.positions]
  exact congrArg (List.range' 1) statement.length_entries

/-- One statement with anonymous and one with numbered marks, between the
same chunks of text and over the same parameters, whose bindings fill it. -/
structure Statement.Aligned (anonymous numbered : Statement) : Prop where
  parameters : anonymous.parameters = numbered.parameters
  chunks : ∃ first chunks, chunks.length = anonymous.slots ∧
    anonymous.sql = interleave (fun _ => "?") 1 first chunks ∧
    numbered.sql = interleave (fun position => "$" ++ toString position) 1 first chunks
  anonymous_fills : ∀ bound, anonymous.bind = .ok bound → bound.Fills anonymous
  numbered_fills : ∀ bound, numbered.bind = .ok bound → bound.Fills numbered

theorem Draft.finish_aligned (draft : Draft) :
    (draft.finish .anonymous).Aligned (draft.finish .numbered) := by
  obtain ⟨first, chunks, hlength, htext⟩ := exists_chunks draft
  constructor
  · rfl
  · exact ⟨first, chunks, hlength, htext .anonymous 1, htext .numbered 1⟩
  · exact fun bound h => Statement.bind_fills h
  · exact fun bound h => Statement.bind_fills h

/-- What compiles with one kind of mark compiles with both, into statements
that are aligned. -/
theorem Dialect.compile_aligned (dialect : Dialect) :
    (∀ e style statement, dialect.compile style e = .ok statement →
      ∃ anonymous numbered, dialect.compile .anonymous e = .ok anonymous ∧
        dialect.compile .numbered e = .ok numbered ∧ anonymous.Aligned numbered) ∧
    (∀ update filter style statement,
      dialect.compileUpdate style update filter = .ok statement →
      ∃ anonymous numbered, dialect.compileUpdate .anonymous update filter = .ok anonymous ∧
        dialect.compileUpdate .numbered update filter = .ok numbered ∧
        anonymous.Aligned numbered) := by
  constructor
  · intro e style statement h
    obtain ⟨draft, hdraft, -⟩ := compile_eq_ok.1 h
    exact ⟨_, _, compile_eq_ok.2 ⟨draft, hdraft, rfl⟩, compile_eq_ok.2 ⟨draft, hdraft, rfl⟩,
      draft.finish_aligned⟩
  · intro update filter style statement h
    obtain ⟨draft, hdraft, -⟩ := compileUpdate_eq_ok.1 h
    exact ⟨_, _, compileUpdate_eq_ok.2 ⟨draft, hdraft, rfl⟩,
      compileUpdate_eq_ok.2 ⟨draft, hdraft, rfl⟩, draft.finish_aligned⟩

/-- A null, a value list, an array and an array declared as jsonb together:
five positions for four constants. -/
theorem Dialect.compile_aligned_mixed_constants :
    let null : Constant := .typedNull .text
    let list : Constant := .valueList [.string "a", .string "b"]
    let array : Constant := .array [.boolean true]
    let document : Constant := .typedArray [.null] .jsonb
    let e : Expr := .operation .and
      [.operation .inList [.constant null, .constant list],
        .operation .eq [.constant array, .constant document]]
    let update : Update := ⟨"t", [⟨⟨none, ["c"], .text⟩, .constant null⟩], []⟩
    let sql := "(($1 IN ($2, $3)) AND ($4 = $5))"
    postgres.compile .numbered e = .ok ⟨sql, [null, list, array, document]⟩ ∧
      Statement.bind ⟨sql, [null, list, array, document]⟩ =
        .ok ⟨sql, [⟨1, .null, .text⟩, ⟨2, .scalar (.string "a"), .text⟩,
          ⟨3, .scalar (.string "b"), .text⟩, ⟨4, .array [.boolean true], .array .boolean⟩,
          ⟨5, .scalar (.array [.null]), .jsonb⟩]⟩ ∧
      (∃ anonymous numbered, postgres.compile .anonymous e = .ok anonymous ∧
        postgres.compile .numbered e = .ok numbered ∧ anonymous.Aligned numbered) ∧
      ∃ anonymous numbered, postgres.compileUpdate .anonymous update (some e) = .ok anonymous ∧
        postgres.compileUpdate .numbered update (some e) = .ok numbered ∧
        anonymous.Aligned numbered := by
  refine ⟨rfl, rfl, ?_, ?_⟩
  · exact (compile_aligned postgres).1 _ .numbered _ rfl
  · exact (compile_aligned postgres).2 _ _ .numbered _ rfl

end JsonbAlgebra
