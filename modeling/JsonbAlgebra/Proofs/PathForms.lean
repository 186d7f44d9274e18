import JsonbAlgebra.Proofs.TextReading
import JsonbAlgebra.Update

/-!
# The two forms of a path

A path is given as segments, none of them empty or with a point, or as one dotted
text without empty pieces.  Segments are taken as they stand and a dotted text is
split, so the accepted paths are just the lists that can be given as segments, and
each of them has both forms.  Whatever takes a path does the same with either.
-/

namespace JsonbAlgebra

namespace JsonPath

/-- Inputs that are taken for the segments of a path as they stand. -/
def IsDiscrete (inputs : List String) : Prop :=
  inputs ≠ [] ∧ ∀ segment ∈ inputs, segment ≠ "" ∧ Text.hasPoint segment = false

theorem IsDiscrete.append {path rest : List String} (hpath : IsDiscrete path)
    (hrest : IsDiscrete rest) : IsDiscrete (path ++ rest) := by
  refine ⟨by simp [hpath.1], ?_⟩
  intro segment hmem
  rcases List.mem_append.1 hmem with hmem | hmem
  · exact hpath.2 segment hmem
  · exact hrest.2 segment hmem

theorem isDiscrete_singleton {segment : String} (hne : segment ≠ "")
    (hpoint : Text.hasPoint segment = false) : IsDiscrete [segment] := by
  simp [IsDiscrete, hne, hpoint]

theorem isDiscrete_pieces {text : String} (hpieces : "" ∉ Text.pieces text) :
    IsDiscrete (Text.pieces text) := by
  refine ⟨Text.pieces_ne_nil text, fun segment hmem => ⟨?_, Text.hasPoint_of_mem_pieces hmem⟩⟩
  rintro rfl
  exact hpieces hmem

theorem pieces_dotted_of_isDiscrete {path : List String} (h : IsDiscrete path) :
    Text.pieces (Text.dotted path) = path :=
  Text.pieces_dotted h.1 fun segment hmem => (h.2 segment hmem).2

/-! ## Reading a path -/

theorem firstEmpty_eq_none {segments : List String} :
    firstEmpty segments = none ↔ "" ∉ segments := by
  simp only [firstEmpty, List.findIdx?_eq_none_iff, beq_eq_false_iff_ne]
  exact ⟨fun h hmem => h "" hmem rfl, fun h segment hmem heq => h (heq ▸ hmem)⟩

theorem ofInputs_of_isDiscrete {inputs : List String} (h : IsDiscrete inputs) :
    ofInputs inputs = .ok inputs := by
  obtain ⟨hne, hsegments⟩ := h
  have hpoint : inputs.find? Text.hasPoint = none := by
    simpa using fun segment hmem => (hsegments segment hmem).2
  have hempty : firstEmpty inputs = none :=
    firstEmpty_eq_none.2 fun hmem => (hsegments "" hmem).1 rfl
  cases inputs with
  | nil => exact absurd rfl hne
  | cons segment rest => simp [ofInputs, hpoint, hempty]

theorem ofInputs_of_hasPoint {text : String} (hpoint : Text.hasPoint text = true) :
    ofInputs [text] =
      if "" ∈ Text.pieces text then .error (.emptyPiece text) else .ok (Text.pieces text) := by
  simp [ofInputs, hpoint]

theorem ofDotted_dotted {path : List String} (h : IsDiscrete path) :
    ofDotted (Text.dotted path) = .ok path := by
  have hpieces := pieces_dotted_of_isDiscrete h
  unfold ofDotted
  cases hpoint : Text.hasPoint (Text.dotted path) with
  | true =>
      have hempty : "" ∉ path := fun hmem => (h.2 "" hmem).1 rfl
      rw [ofInputs_of_hasPoint hpoint, hpieces, if_neg hempty]
  | false =>
      -- Without a point there is one segment, which is the whole text.
      rw [Text.pieces_of_not_hasPoint hpoint] at hpieces
      rw [hpieces]
      exact ofInputs_of_isDiscrete h

theorem ofInputs_eq_ok {inputs : List String} {path : JsonPath} :
    ofInputs inputs = .ok path ↔
      (IsDiscrete inputs ∧ path = inputs) ∨
        ∃ text, inputs = [text] ∧ Text.hasPoint text = true ∧ "" ∉ Text.pieces text ∧
          path = Text.pieces text := by
  constructor
  · intro h
    unfold ofInputs at h
    split at h
    · cases h
    · rename_i hne
      split at h
      · rename_i text htext
        split at h
        · cases h
        · rename_i hlength
          obtain ⟨other, rfl⟩ := List.length_eq_one_iff.1 (Decidable.not_not.1 hlength)
          obtain rfl := List.mem_singleton.1 (List.mem_of_find?_eq_some htext)
          dsimp only at h
          split at h
          · cases h
          · rename_i hempty
            cases h
            exact .inr ⟨text, rfl, List.find?_some htext, hempty, rfl⟩
      · rename_i hpoint
        split at h
        · cases h
        · rename_i hempty
          cases h
          refine .inl ⟨⟨hne, fun segment hmem => ⟨?_, ?_⟩⟩, rfl⟩
          · rintro rfl
            exact firstEmpty_eq_none.1 hempty hmem
          · simpa using List.find?_eq_none.1 hpoint segment hmem
  · rintro (⟨hdiscrete, rfl⟩ | ⟨text, rfl, hpoint, hempty, rfl⟩)
    · exact ofInputs_of_isDiscrete hdiscrete
    · rw [ofInputs_of_hasPoint hpoint, if_neg hempty]

theorem isDiscrete_of_ofInputs {inputs : List String} {path : JsonPath}
    (h : ofInputs inputs = .ok path) : IsDiscrete path := by
  rcases ofInputs_eq_ok.1 h with ⟨hdiscrete, rfl⟩ | ⟨text, -, -, hempty, rfl⟩
  · exact hdiscrete
  · exact isDiscrete_pieces hempty

end JsonPath

/-! ## Building with a path -/

namespace Expr

theorem withPath_of_isDiscrete {inputs : List String} (h : JsonPath.IsDiscrete inputs)
    (next : JsonPath → Except Fault Expr) : withPath inputs next = next inputs := by
  rw [withPath, JsonPath.ofInputs_of_isDiscrete h]

theorem withPath_dotted {path : List String} (h : JsonPath.IsDiscrete path)
    (next : JsonPath → Except Fault Expr) :
    withPath [Text.dotted path] next = withPath path next := by
  have hdotted : JsonPath.ofInputs [Text.dotted path] = .ok path := JsonPath.ofDotted_dotted h
  rw [withPath_of_isDiscrete h, withPath, hdotted]

end Expr

theorem Change.setJsonExpr_dotted {path : List String} (h : JsonPath.IsDiscrete path)
    (column : Column) (value : Expr) :
    setJsonExpr column [Text.dotted path] value = setJsonExpr column path value := by
  have hdotted : JsonPath.ofInputs [Text.dotted path] = .ok path := JsonPath.ofDotted_dotted h
  rw [setJsonExpr, setJsonExpr, hdotted, JsonPath.ofInputs_of_isDiscrete h]

/-- Inputs make a path if they are its segments or if they are one dotted text with the
path as its pieces.  The paths so made are the lists of segments, which are read as
themselves and from their dotted text, and what is built with either form is the same. -/
theorem JsonPath.accepts_two_forms :
    (∀ inputs path, ofInputs inputs = .ok path ↔
      (IsDiscrete inputs ∧ path = inputs) ∨
        ∃ text, inputs = [text] ∧ Text.hasPoint text = true ∧ "" ∉ Text.pieces text ∧
          path = Text.pieces text ∧ Text.dotted path = text) ∧
    (∀ path, (∃ inputs, ofInputs inputs = .ok path) ↔ IsDiscrete path) ∧
    ∀ path, IsDiscrete path →
      ofInputs path = .ok path ∧ ofDotted (Text.dotted path) = .ok path ∧
      (∀ subject : Expr,
        subject.get [Text.dotted path] = subject.get path ∧
        subject.getText [Text.dotted path] = subject.getText path ∧
        subject.deletePath [Text.dotted path] = subject.deletePath path ∧
        (∀ value, subject.set [Text.dotted path] value = subject.set path value) ∧
        ∀ value, subject.setDocument [Text.dotted path] value = subject.setDocument path value) ∧
      ∀ column : Column,
        (∀ value, Change.setJson column (Text.dotted path) value =
          Change.setJsonAt column path value) ∧
        ∀ value, Change.setJsonExpr column [Text.dotted path] value =
          Change.setJsonExpr column path value := by
  refine ⟨?_, ?_, ?_⟩
  · intro inputs path
    rw [ofInputs_eq_ok]
    refine or_congr_right (exists_congr fun text => ?_)
    constructor
    · rintro ⟨hinputs, hpoint, hempty, rfl⟩
      exact ⟨hinputs, hpoint, hempty, rfl, Text.dotted_pieces text⟩
    · rintro ⟨hinputs, hpoint, hempty, hpath, -⟩
      exact ⟨hinputs, hpoint, hempty, hpath⟩
  · intro path
    exact ⟨fun ⟨_, h⟩ => isDiscrete_of_ofInputs h, fun h => ⟨path, ofInputs_of_isDiscrete h⟩⟩
  · intro path h
    refine ⟨ofInputs_of_isDiscrete h, ofDotted_dotted h, fun subject => ?_, fun column => ?_⟩
    · exact ⟨Expr.withPath_dotted h _, Expr.withPath_dotted h _, Expr.withPath_dotted h _,
        fun value => Expr.withPath_dotted h _, fun value => Expr.withPath_dotted h _⟩
    · exact ⟨fun value => Change.setJsonExpr_dotted h column _, Change.setJsonExpr_dotted h column⟩

/-- A path of which one segment ends in a blank and the other is a number. Its dotted
text is refused as one input of two. -/
theorem JsonPath.accepts_two_forms_unicode :
    let doc : Expr := .column ⟨none, ["doc"], .jsonb⟩
    let path : JsonPath := ["größe ", "-1"]
    Text.dotted path = "größe .-1" ∧ ofDotted "größe .-1" = .ok path ∧
      doc.get ["größe .-1"] = .ok (.operation .get [doc, Expr.pathOperand path]) ∧
      Change.setJson (.jsonb "doc") "größe .-1" .null =
        Change.setJsonAt (.jsonb "doc") path .null ∧
      ∀ result, ofInputs ["größe .-1", "a"] ≠ .ok result := by
  intro doc path
  obtain ⟨haccepts, hmade, hforms⟩ := JsonPath.accepts_two_forms
  have hdotted : Text.dotted path = "größe .-1" := by decide
  have hdiscrete : IsDiscrete path := (hmade path).1 ⟨["größe .-1"], rfl⟩
  obtain ⟨-, hread, hbuilt, hpatched⟩ := hforms path hdiscrete
  rw [hdotted] at hread hbuilt hpatched
  refine ⟨hdotted, hread, ?_, (hpatched _).1 _, fun result hresult => ?_⟩
  · rw [(hbuilt doc).1]
    rfl
  · rcases (haccepts _ _).1 hresult with ⟨hinputs, -⟩ | ⟨text, hinputs, -⟩
    · exact absurd (hinputs.2 _ List.mem_cons_self).2 (by decide)
    · cases hinputs

end JsonbAlgebra
