import JsonbAlgebra.Proofs.DraftComposition
import JsonbAlgebra.Proofs.IdentifierReading
import JsonbAlgebra.Proofs.TextReading

/-!
# Names read one after another

A reader that sees an identifier at the front of a text knows from its first character
whether it is quoted, and takes it off the text without looking at what follows.  It gets
back the name that was written, whatever the name is, and so it reads the names of a
column or of a table off the text one after another, as long as there is a point behind
them.
-/

namespace JsonbAlgebra

namespace Identifier

/-! ## One identifier -/

/-- What stands before the first quote that is not doubled, with the quotes in it
undoubled, and what follows that quote. -/
def takeQuoted : List Char → Option (List Char × List Char)
  | [] => none
  | '"' :: '"' :: rest => (takeQuoted rest).map (Prod.map ('"' :: ·) id)
  | '"' :: rest => some ([], rest)
  | c :: rest => (takeQuoted rest).map (Prod.map (c :: ·) id)

/-- The name of the identifier at the front of a text, and what follows it. -/
def takeName : List Char → Option (String × List Char)
  | '"' :: rest => (takeQuoted rest).map (Prod.map String.ofList id)
  | text => some (String.ofList (text.takeWhile isPlain), text.dropWhile isPlain)

theorem takeQuoted_cons_of_ne {c : Char} (hc : c ≠ '"') (rest : List Char) :
    takeQuoted (c :: rest) = (takeQuoted rest).map (Prod.map (c :: ·) id) := by
  rw [takeQuoted]
  all_goals simp_all

theorem takeQuoted_quote {rest : List Char} (hrest : Follows rest) :
    takeQuoted ('"' :: rest) = some ([], rest) := by
  cases rest with
  | nil => rfl
  | cons c rest =>
      have hc : c ≠ '"' := (hrest c rfl).2
      rw [takeQuoted]
      simp_all

theorem takeQuoted_doubled (name : List Char) {rest : List Char} (hrest : Follows rest) :
    takeQuoted (name.flatMap doubled ++ '"' :: rest) = some (name, rest) := by
  induction name with
  | nil => exact takeQuoted_quote hrest
  | cons c name ih =>
      rw [List.flatMap_cons, List.append_assoc]
      by_cases hc : c = '"'
      · subst hc
        have hdoubled : doubled '"' = ['"', '"'] := rfl
        rw [hdoubled, List.cons_append, List.cons_append, List.nil_append, takeQuoted, ih]
        rfl
      · have hdoubled : doubled c = [c] := if_neg hc
        rw [hdoubled, List.singleton_append, takeQuoted_cons_of_ne hc, ih]
        rfl

theorem takeName_of_head? {text : List Char} (hquote : text.head? ≠ some '"') :
    takeName text = some (String.ofList (text.takeWhile isPlain), text.dropWhile isPlain) := by
  rw [takeName]
  rintro rest rfl
  exact hquote rfl

/-- An identifier is read back as its name, and no further. -/
theorem takeName_quote (name : String) {rest : List Char} (hrest : Follows rest) :
    takeName ((quote name).toList ++ rest) = some (name, rest) := by
  rw [toList_quote]
  cases hname : isPlainName name.toList with
  | true =>
      have hplain := isPlain_of_isPlainName hname
      have hhead : (name.toList ++ rest).head? ≠ some '"' := by
        intro hquote
        obtain ⟨tail, htail⟩ := List.head?_eq_some_iff.1 hquote
        exact plain_append_ne_quote hname htail
      have hstop : rest.takeWhile isPlain = [] ∧ rest.dropWhile isPlain = rest := by
        cases rest with
        | nil => exact ⟨rfl, rfl⟩
        | cons c rest => simp [(hrest c rfl).1]
      rw [quoteChars_of_plain hname, takeName_of_head? hhead,
        List.takeWhile_append_of_pos hplain, List.dropWhile_append_of_pos hplain, hstop.1,
        hstop.2, List.append_nil, String.ofList_toList]
  | false =>
      rw [quoteChars_of_not_plain hname, List.cons_append, List.append_assoc,
        List.singleton_append, takeName, takeQuoted_doubled _ hrest, Option.map_some, Prod.map,
        String.ofList_toList, id]

/-! ## Identifiers joined by points -/

theorem length_lt_of_takeQuoted {text name rest : List Char}
    (h : takeQuoted text = some (name, rest)) : rest.length < text.length := by
  induction text using takeQuoted.induct generalizing name with
  | case1 => cases h
  | case2 text ih =>
      rw [takeQuoted] at h
      obtain ⟨⟨inner, after⟩, hinner, hpair⟩ := Option.map_eq_some_iff.1 h
      cases hpair
      exact (ih hinner).trans (by simp only [List.length_cons]; omega)
  | case3 text hquote =>
      rw [takeQuoted] at h
      · cases h
        simp
      · exact hquote
  | case4 c text hdouble hquote ih =>
      rw [takeQuoted_cons_of_ne hquote] at h
      obtain ⟨⟨inner, after⟩, hinner, hpair⟩ := Option.map_eq_some_iff.1 h
      cases hpair
      exact (ih hinner).trans (Nat.lt_succ_self _)

theorem length_le_of_takeName {text rest : List Char} {name : String}
    (h : takeName text = some (name, rest)) : rest.length ≤ text.length := by
  unfold takeName at h
  split at h
  · obtain ⟨⟨inner, after⟩, hinner, hpair⟩ := Option.map_eq_some_iff.1 h
    cases hpair
    exact (length_lt_of_takeQuoted hinner).le.trans (by simp)
  · cases h
    exact (List.dropWhile_sublist _).length_le

/-- The names of identifiers with points between them, and what follows the last. -/
def takeNames (text : List Char) : Option (List String × List Char) :=
  match h : takeName text with
  | some (name, '.' :: rest) =>
    have : rest.length < text.length := length_le_of_takeName h
    (takeNames rest).map (Prod.map (name :: ·) id)
  | some (name, rest) => some ([name], rest)
  | none => none
termination_by text.length

theorem takeNames_of_point {text rest : List Char} {name : String}
    (h : takeName text = some (name, '.' :: rest)) :
    takeNames text = (takeNames rest).map (Prod.map (name :: ·) id) := by
  rw [takeNames]
  split <;> simp_all

theorem takeNames_of_follows {text rest : List Char} {name : String}
    (h : takeName text = some (name, rest)) (hrest : FollowsPath rest) :
    takeNames text = some ([name], rest) := by
  rw [takeNames]
  split
  · rename_i hpoint
    cases h.symm.trans hpoint
    exact absurd rfl hrest.ne_point
  · simp_all
  · simp_all

theorem takeNames_qualified {names : List String} (hnames : names ≠ []) {rest : List Char}
    (hrest : FollowsPath rest) :
    takeNames ((qualified names).toList ++ rest) = some (names, rest) := by
  induction names with
  | nil => exact absurd rfl hnames
  | cons name names ih =>
      cases names with
      | nil =>
          rw [qualified_singleton, ← toList_quote]
          exact takeNames_of_follows (takeName_quote name hrest.follows) hrest
      | cons next names =>
          rw [qualified_cons_cons, List.append_assoc, List.cons_append, ← toList_quote,
            takeNames_of_point (takeName_quote name (follows_point _)),
            ih (List.cons_ne_nil _ _)]
          rfl

theorem qualified_inj {names others : List String} (hnames : names ≠ []) (hothers : others ≠ []) :
    qualified names = qualified others ↔ names = others := by
  have hend : FollowsPath [] := nofun
  constructor
  · intro h
    have hread := takeNames_qualified hnames hend
    rw [h, takeNames_qualified hothers hend] at hread
    cases hread
    rfl
  · exact congrArg qualified

end Identifier

theorem ColumnRef.identifiers_ne_nil {ref : ColumnRef} (h : ref.segments ≠ []) :
    ref.identifiers ≠ [] := by
  simp [identifiers, h]

theorem Dialect.compile_column (dialect : Dialect) (style : Placeholder) (ref : ColumnRef) :
    dialect.compile style (.column ref) = .ok ⟨Identifier.qualified ref.identifiers, []⟩ := by
  refine compile_eq_ok.2 ⟨_, rfl, ?_⟩
  simp [Draft.finish, Draft.textFrom, Draft.parameters]

/-- An identifier is read back as the name that was quoted, in front of everything that
cannot carry it on.  A column, which has a segment at least, is read back as its owner and
segments, and the table of an update as its pieces, so two columns or tables are written
alike only if these are the same. -/
theorem Identifier.names_read_back :
    (∀ (name : String) rest, Follows rest →
      takeName ((quote name).toList ++ rest) = some (name, rest)) ∧
    (∀ (dialect : Dialect) style (ref : ColumnRef), ref.segments ≠ [] →
      ∃ text, dialect.compile style (.column ref) = .ok ⟨text, []⟩ ∧
        ∀ rest, FollowsPath rest →
          takeNames (text.toList ++ rest) = some (ref.owner.toList ++ ref.segments, rest)) ∧
    (∀ table rest, FollowsPath rest →
      takeNames ((qualified (Text.pieces table)).toList ++ rest) =
        some (Text.pieces table, rest)) ∧
    (∀ (dialect : Dialect) style (ref other : ColumnRef), ref.segments ≠ [] →
      other.segments ≠ [] →
      (dialect.compile style (.column ref) = dialect.compile style (.column other) ↔
        ref.owner.toList ++ ref.segments = other.owner.toList ++ other.segments)) ∧
    ∀ table other : String,
      qualified (Text.pieces table) = qualified (Text.pieces other) ↔ table = other := by
  refine ⟨fun name rest hrest => takeName_quote name hrest, ?_, ?_, ?_, ?_⟩
  · intro dialect style ref href
    exact ⟨_, dialect.compile_column style ref, fun rest hrest =>
      takeNames_qualified (ColumnRef.identifiers_ne_nil href) hrest⟩
  · exact fun table rest hrest => takeNames_qualified (Text.pieces_ne_nil table) hrest
  · intro dialect style ref other href hother
    rw [dialect.compile_column, dialect.compile_column, Except.ok.injEq, Statement.mk.injEq,
      and_iff_left rfl, qualified_inj (ColumnRef.identifiers_ne_nil href)
        (ColumnRef.identifiers_ne_nil hother)]
    rfl
  · intro table other
    rw [qualified_inj (Text.pieces_ne_nil table) (Text.pieces_ne_nil other), Text.pieces_inj]

/-- Names with quotes, points, a dollar sign and no characters at all, in front of a
closing bracket, and a table with an empty piece. -/
theorem Identifier.names_read_back_quoted :
    let ref : ColumnRef := ⟨some "a\"", ["", "b.c", "$1", "d_2$"], .jsonb⟩
    let sql := "\"a\"\"\".\"\".\"b.c\".\"$1\".d_2$"
    takeName ((quote "a\"").toList ++ [')']) = some ("a\"", [')']) ∧
      Dialect.postgres.compile .numbered (.column ref) = .ok ⟨sql, []⟩ ∧
      takeNames (sql.toList ++ [')']) = some (["a\"", "", "b.c", "$1", "d_2$"], [')']) ∧
      takeNames ("app.\"\".items".toList ++ [')']) = some (["app", "", "items"], [')']) := by
  intro ref sql
  obtain ⟨hname, hcolumn, htable, -⟩ := Identifier.names_read_back
  have hend : FollowsPath [')'] := by
    rintro c ⟨⟩
    decide
  have hcompiled : Dialect.postgres.compile .numbered (.column ref) = .ok ⟨sql, []⟩ := rfl
  obtain ⟨text, htext, hread⟩ := hcolumn .postgres .numbered ref (List.cons_ne_nil _ _)
  cases hcompiled.symm.trans htext
  exact ⟨hname "a\"" _ hend.follows, hcompiled, hread _ hend, htable "app..items" _ hend⟩

end JsonbAlgebra
