import JsonbAlgebra.Proofs.IntegerCasts
import JsonbAlgebra.Proofs.PathLaws

/-!
# Reading back what was written

Setting a value at a path that leads somewhere, or whose last step is a key of an object,
succeeds, and the path then leads to the value.  So an expression that sets a value in a
document and gets it along the same path has that value, as a document, as text and, by
its text, cast to bigint or boolean.
-/

namespace JsonbAlgebra

namespace Document

/-- A path along which a value can be set: it leads somewhere, or all of it but its last
step leads to an object. -/
def Settable (document : Document) (path : List String) : Prop :=
  (document.at? path).isSome ∨
    ∃ fields, document.at? path.dropLast = some (.object fields)

/-- What is set along a path is found there. -/
theorem exists_setPath {document : Document} (hcontainer : document.isContainer = true)
    {path : List String} (hne : path ≠ []) (hsettable : document.Settable path)
    (value : Document) :
    ∃ edited, document.setPath path value = .ok edited ∧ edited.at? path = some value := by
  have hpath := List.dropLast_append_getLast hne
  rcases hsettable with hplace | ⟨fields, hfields⟩
  · obtain ⟨old, hold⟩ := Option.isSome_iff_exists.1 hplace
    refine ⟨document.replaceAt path value, ?_, at?_replaceAt hold value⟩
    rw [← hpath] at hold ⊢
    exact setPath_of_at? hcontainer hold value
  · have hedited := at?_replaceAt hfields (.object (Keyed.insert fields (path.getLast hne) value))
    rw [← hpath]
    refine ⟨_, setPath_of_object hcontainer hfields value, ?_⟩
    rw [at?_append, hedited, Option.bind_some, at?_cons, child?, Keyed.find?_insert_self]
    rfl

/-- The text that a document is read as: NULL for the document null, a text as it stands,
and the JSON text of any other. -/
def textDatum : Document → Datum
  | .null => .null
  | .string value => .text value
  | document => .text document.text

theorem foundText_some (document : Document) :
    Operator.foundText (some document) = document.textDatum := by
  cases document <;> rfl

theorem toTruth_textDatum (truth : Bool) : (boolean truth).textDatum.toTruth = .ok truth := by
  have hread : ∀ truth : Bool,
      Datum.readTruth (Text.trim (boolean truth).text.toList) = some truth := by decide +kernel
  have htext : (boolean truth).textDatum = .text (boolean truth).text := rfl
  rw [htext, Datum.toTruth, Datum.readAs, hread]

end Document

namespace Expr

/-- An expression can be built and has a value on a row. -/
def EvaluatesTo (row : Row) (built : Except Fault Expr) (value : Datum) : Prop :=
  ∃ e, built = .ok e ∧ e.evaluate row = .ok value

/-! ## Setting -/

theorem setDocument_of_isDiscrete {subject : Expr} (htag : subject.tag = .json)
    {path : List String} (h : JsonPath.IsDiscrete path) (value : Document) :
    subject.setDocument path value =
      .ok (.operation .set [subject, pathOperand path, jsonOperand value]) := by
  have hsubject : operandFault? .set 0 subject = none :=
    (operandFault?_json rfl subject).trans (if_pos (by rw [htag]; rfl))
  have hpath : operandFault? .set 1 (pathOperand path) = none := rfl
  have hvalue : operandFault? .set 2 (jsonOperand value) = none := rfl
  have hnone : applicationFault? .set [subject, pathOperand path, jsonOperand value] = none := by
    rw [applicationFault?, if_pos (by rfl)]
    simp only [operandsFault?, hsubject, hpath, hvalue]
  rw [setDocument, set, withPath_of_isDiscrete h]
  exact apply_eq_ok_iff.2 ⟨hnone, rfl⟩

theorem evaluate_setDocument {subject : Expr} {row : Row} {document : Document}
    (hsubject : subject.evaluate row = .ok (.json document)) (path : List String)
    (value : Document) :
    (operation .set [subject, pathOperand path, jsonOperand value]).evaluate row =
      Operator.editing (document.setPath path value) := by
  have hsteps : (path.map Document.string).map Document.plainText = path :=
    Document.map_plainText_string path
  have hset : (operation .set [subject, pathOperand path, jsonOperand value]).evaluate row =
      Operator.strict .set [.json document, .array (path.map .string), .json value] := by
    rw [evaluate, evaluateAll_eq_map, Operator.evaluate_of_isStrict rfl]
    simp only [List.map_cons, List.map_nil, hsubject, evaluate_pathOperand]
    rfl
  rw [hset, ← congrArg (document.setPath · value) hsteps]
  rfl

/-! ## Getting -/

section Getting

variable {subject : Expr} (htag : subject.tag = .json) {row : Row} {document : Document}
  (hsubject : subject.evaluate row = .ok (.json document)) {path : List String}
  (hpath : JsonPath.IsDiscrete path) {value : Document} (hvalue : document.at? path = some value)
include htag hsubject hpath hvalue

theorem get_evaluatesTo : EvaluatesTo row (subject.get path) (.json value) := by
  refine ⟨_, get_of_isDiscrete htag hpath, ?_⟩
  rw [evaluate_get, hsubject]
  exact congrArg (fun found => Except.ok (Operator.foundJson found)) hvalue

omit htag hpath in
theorem evaluate_getText_of_at? :
    (operation .getText [subject, pathOperand path]).evaluate row = .ok value.textDatum := by
  rw [evaluate_getText, hsubject, ← Document.foundText_some]
  exact congrArg (fun found => Except.ok (Operator.foundText found)) hvalue

theorem getText_evaluatesTo : EvaluatesTo row (subject.getText path) value.textDatum :=
  ⟨_, getText_of_isDiscrete htag hpath, evaluate_getText_of_at? hsubject hvalue⟩

theorem get_asText_evaluatesTo :
    EvaluatesTo row (subject.get path >>= asText) value.textDatum := by
  have hbuilt : (subject.get path >>= asText) =
      .ok (operation .getText [subject, pathOperand path]) := by
    rw [get_of_isDiscrete htag hpath]
    exact apply_pair rfl rfl htag rfl
  exact ⟨_, hbuilt, evaluate_getText_of_at? hsubject hvalue⟩

/-- A cast of what is got casts its text. -/
theorem get_castTo_evaluatesTo {operator : Operator} {name : String}
    (hadmits : operator.contract.admits 1 = true)
    (hslot : operator.contract.slotAt 0 = some (.any name)) (hstrict : operator.isStrict = true)
    {result : Datum} (hpresent : value.textDatum.isNull = false)
    (hresult : operator.strict [value.textDatum] = .ok result) :
    EvaluatesTo row (subject.get path >>= castTo operator) result := by
  have hsource : asText (operation .get [subject, pathOperand path]) =
      .ok (operation .getText [subject, pathOperand path]) := apply_pair rfl rfl htag rfl
  have hbuilt : (subject.get path >>= castTo operator) =
      .ok (operation operator [operation .getText [subject, pathOperand path]]) := by
    rw [get_of_isDiscrete htag hpath]
    simp only [bind, Except.bind, castTo, castSource, hsource]
    rw [apply_one_any hadmits hslot]
    rfl
  refine ⟨_, hbuilt, ?_⟩
  rw [evaluate, evaluateAll_eq_map, Operator.evaluate_of_isStrict hstrict, List.map_cons,
    List.map_nil, evaluate_getText_of_at? hsubject hvalue]
  simp [Outcome.collect, bind, Except.bind, pure, Except.pure, hpresent, hresult]

theorem get_asBigint_evaluatesTo {word : Int64} (hdenotes : value.Denotes word.toInt) :
    EvaluatesTo row (subject.get path >>= asBigint) (.integer word) := by
  obtain ⟨text, htext, hholds⟩ := foundText_of_denotes hdenotes
  rw [Document.foundText_some] at htext
  refine get_castTo_evaluatesTo htag hsubject hpath hvalue rfl rfl rfl (by rw [htext]; rfl) ?_
  have hword := Datum.toWord_of_fitsWord (.text hholds) (Text.fitsWord_toInt word)
  rw [Int64.ofInt_toInt] at hword
  rw [htext, Operator.strict, hword]
  rfl

omit hvalue in
theorem get_asBoolean_evaluatesTo {truth : Bool}
    (hvalue : document.at? path = some (.boolean truth)) :
    EvaluatesTo row (subject.get path >>= asBoolean) (.boolean truth) := by
  refine get_castTo_evaluatesTo htag hsubject hpath hvalue rfl rfl rfl rfl ?_
  exact congrArg (Except.map Datum.boolean) (Document.toTruth_textDatum truth)

end Getting

/-- Setting a value in a document, along a path that leads somewhere or ends in a key of
an object, and getting it along the same path gives the value.  Its text is NULL for the
document null, a text as it stands and the JSON text of any other value, the cast to
bigint is the word that the value denotes and the cast to boolean its truth value. -/
theorem written_reads_back {subject : Expr} (htag : subject.tag = .json) {row : Row}
    {document : Document} (hsubject : subject.evaluate row = .ok (.json document))
    (hcontainer : document.isContainer = true) {path : List String}
    (hpath : JsonPath.IsDiscrete path) (hsettable : document.Settable path)
    (value : Document) :
    ∃ written, subject.setDocument path value = .ok written ∧
      EvaluatesTo row (written.get path) (.json value) ∧
      EvaluatesTo row (written.getText path) value.textDatum ∧
      EvaluatesTo row (written.get path >>= asText) value.textDatum ∧
      (∀ word : Int64, value.Denotes word.toInt →
        EvaluatesTo row (written.get path >>= asBigint) (.integer word)) ∧
      ∀ truth, value = .boolean truth →
        EvaluatesTo row (written.get path >>= asBoolean) (.boolean truth) := by
  obtain ⟨edited, hedited, hat⟩ :=
    Document.exists_setPath hcontainer hpath.1 hsettable value
  have htagged : (operation .set [subject, pathOperand path, jsonOperand value]).tag = .json := rfl
  have hwritten : (operation .set [subject, pathOperand path, jsonOperand value]).evaluate row =
      .ok (.json edited) := by
    rw [evaluate_setDocument hsubject, hedited]
    rfl
  refine ⟨_, setDocument_of_isDiscrete htag hpath value,
    get_evaluatesTo htagged hwritten hpath hat, getText_evaluatesTo htagged hwritten hpath hat,
    get_asText_evaluatesTo htagged hwritten hpath hat,
    fun word => get_asBigint_evaluatesTo htagged hwritten hpath hat, ?_⟩
  rintro truth rfl
  exact get_asBoolean_evaluatesTo htagged hwritten hpath hat

/-- The decimal form of the least word as a text, put in the place of the last item of
an array, and null under a key that is not there. -/
theorem written_reads_back_last_item :
    let doc : Expr := .column ⟨none, ["doc"], .jsonb⟩
    let row : Row := fun _ => .json (.object [("a", .array [.null, .boolean true])])
    (∃ written, doc.setDocument ["a", "-1"] (.string "-9223372036854775808") = .ok written ∧
      EvaluatesTo row (written.get ["a", "-1"] >>= asBigint) (.integer Int64.minValue)) ∧
    ∃ written, doc.setDocument ["b"] .null = .ok written ∧
      EvaluatesTo row (written.get ["b"]) (.json .null) ∧
      EvaluatesTo row (written.getText ["b"]) .null := by
  intro doc row
  have hitem : JsonPath.IsDiscrete ["a", "-1"] := ⟨by decide, by decide⟩
  have hkey : JsonPath.IsDiscrete ["b"] := ⟨by decide, by decide⟩
  have hdenotes : (Document.string "-9223372036854775808").Denotes Int64.minValue.toInt :=
    .string (Text.holds_toString Int64.minValue.toInt)
  obtain ⟨first, hfirst, -, -, -, hword, -⟩ :=
    written_reads_back rfl (show doc.evaluate row = _ from rfl) rfl hitem (.inl rfl)
      (.string "-9223372036854775808")
  obtain ⟨second, hsecond, hget, htext, -⟩ :=
    written_reads_back rfl (show doc.evaluate row = _ from rfl) rfl hkey (.inr ⟨_, rfl⟩) .null
  exact ⟨⟨first, hfirst, hword _ hdenotes⟩, second, hsecond, hget, htext⟩

end Expr

end JsonbAlgebra
