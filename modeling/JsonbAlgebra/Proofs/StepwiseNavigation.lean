import JsonbAlgebra.Proofs.DocumentEdits
import JsonbAlgebra.Proofs.PathForms
import JsonbAlgebra.Proofs.TagSoundness
import JsonbAlgebra.Proofs.TextReading

/-!
# Navigation step by step

A value inside a document can be got along a whole path, along the first part of
the path and then along the rest, or by one key or index.  All of these have the
same value, failures included.  A document null on the way is a document without
children, and a missing value on the way is NULL; the rest of the path turns both
into NULL, as the whole path does.

A key and an index have forms of their own among the operands.  In an object a key
does what the path with this one step does, and in an array so does an index with
the path of its decimal form, for getting and for deleting.
-/

namespace JsonbAlgebra

namespace JsonPath

theorem isDiscrete_toString (value : Int) : IsDiscrete [toString value] :=
  isDiscrete_singleton (Text.toString_ne_empty value) (Text.hasPoint_toString value)

end JsonPath

namespace Document

theorem index?_toString (word : Int64) : index? (toString word.toInt) = some word.toInt := by
  rw [index?, Text.readWord_toString, Option.map_some]

end Document

namespace Expr

/-- Two expressions that can both be built and have the same value on a row. -/
def EvaluateAlike (row : Row) (first second : Except Fault Expr) : Prop :=
  ∃ e other, first = .ok e ∧ second = .ok other ∧ e.evaluate row = other.evaluate row

/-! ## Building -/

/-- An operator of two operands whose first is a document. -/
theorem apply_pair {operator : Operator} {name : String}
    (hadmits : operator.contract.admits 2 = true)
    (hslot : operator.contract.slotAt 0 = some (.json name)) {subject operand : Expr}
    (hsubject : subject.tag = .json) (hoperand : operandFault? operator 1 operand = none) :
    apply operator [subject, operand] = .ok (.operation operator [subject, operand]) := by
  have hfirst : operandFault? operator 0 subject = none := by
    rw [operandFault?_json hslot, hsubject]
    rfl
  have hnone : applicationFault? operator [subject, operand] = none := by
    simp [applicationFault?, hadmits, operandsFault?, hfirst, hoperand]
  rw [apply, hnone]

theorem get_of_isDiscrete {subject : Expr} (htag : subject.tag = .json) {path : List String}
    (h : JsonPath.IsDiscrete path) :
    subject.get path = .ok (.operation .get [subject, pathOperand path]) := by
  rw [get, withPath_of_isDiscrete h]
  exact apply_pair rfl rfl htag rfl

theorem getText_of_isDiscrete {subject : Expr} (htag : subject.tag = .json) {path : List String}
    (h : JsonPath.IsDiscrete path) :
    subject.getText path = .ok (.operation .getText [subject, pathOperand path]) := by
  rw [getText, withPath_of_isDiscrete h]
  exact apply_pair rfl rfl htag rfl

theorem deletePath_of_isDiscrete {subject : Expr} (htag : subject.tag = .json)
    {path : List String} (h : JsonPath.IsDiscrete path) :
    subject.deletePath path = .ok (.operation .deletePath [subject, pathOperand path]) := by
  rw [deletePath, withPath_of_isDiscrete h]
  exact apply_pair rfl rfl htag rfl

/-! ## Evaluating -/

theorem evaluate_pair {operator : Operator} (hstrict : operator.isStrict = true) (subject : Expr)
    {operand : Expr} {row : Row} {key : Datum} (hkey : operand.evaluate row = .ok key)
    (hpresent : key.isNull = false) :
    (Expr.operation operator [subject, operand]).evaluate row =
      subject.evaluate row >>= fun datum =>
        if datum.isNull then .ok .null else operator.strict [datum, key] := by
  rw [evaluate, evaluateAll, evaluateAll, evaluateAll, Operator.evaluate_of_isStrict_pair hstrict,
    hkey]
  simp [bind, Except.bind, hpresent]

theorem evaluate_pair_of_json {operator : Operator} (hstrict : operator.isStrict = true)
    {subject operand : Expr} {row : Row} {document : Document} {key : Datum}
    (hsubject : subject.evaluate row = .ok (.json document))
    (hkey : operand.evaluate row = .ok key) (hpresent : key.isNull = false) :
    (Expr.operation operator [subject, operand]).evaluate row =
      operator.strict [.json document, key] := by
  rw [evaluate_pair hstrict subject hkey hpresent, hsubject]
  rfl

theorem evaluate_pathOperand (path : JsonPath) (row : Row) :
    (pathOperand path).evaluate row = .ok (.array (path.map .string)) :=
  rfl

theorem evaluate_textOperand (value : String) (row : Row) :
    (textOperand value).evaluate row = .ok (.text value) :=
  rfl

theorem evaluate_index {word : Int64} (hfits : Text.FitsHalfWord word.toInt) (row : Row) :
    (Expr.constant (.index word.toInt32)).evaluate row = .ok (.integer word) := by
  have hword : word.toInt32.toInt64 = word := by
    have hleast : -(((2 ^ 32 : Nat) : Int) / 2) ≤ word.toInt := hfits.1
    have hmost : word.toInt < (((2 ^ 32 : Nat) : Int) + 1) / 2 := hfits.2
    rw [← Int64.toInt_inj, Int32.toInt_toInt64, Int64.toInt_toInt32,
      Int.bmod_eq_of_le hleast hmost]
  have hread : (Number.ofWord word).word? = some word := Text.word?_eq_some_iff.2 rfl
  simp [evaluate, Constant.datum, Constant.index, Constant.typed, hword, Datum.ofScalar,
    Datum.ofTyped, Document.ofWord, Datum.toWord, hread, Except.map]

end Expr

/-! ## Paths -/

namespace Operator

theorem lookup_path (operator : Operator) (datum : Datum) (path : JsonPath) :
    lookup operator datum (.array (path.map .string)) =
      (datum.json? operator).map fun document => document.at? path := by
  cases datum with
  | json document =>
      have hlookup : lookup operator (.json document) (.array (path.map .string)) =
          .ok (document.at? ((path.map .string).map Document.plainText)) := rfl
      rw [hlookup, Document.map_plainText_string]
      rfl
  | _ => rfl

/-- What an operator finds along a path from a datum. -/
def fetch (operator : Operator) (found : Option Document → Datum) (path : JsonPath) :
    Datum → Outcome
  | .null => .ok .null
  | .json document => .ok (found (document.at? path))
  | other => .error (.operand operator .json other.kind)

theorem fetch_eq (operator : Operator) (found : Option Document → Datum) (path : JsonPath)
    (datum : Datum) :
    fetch operator found path datum =
      if datum.isNull then .ok .null
      else (lookup operator datum (.array (path.map .string))).map found := by
  rw [lookup_path]
  cases datum <;> rfl

/-- Fetching along the rest of a path from what was got along its first part. -/
theorem fetch_append {operator : Operator} {found : Option Document → Datum}
    (hfound : found none = .null) (path rest : JsonPath) {datum : Datum}
    (hdatum : operator = .get ∨ datum.Conforms .json) :
    (fetch .get foundJson path datum >>= fetch operator found rest) =
      fetch operator found (path ++ rest) datum := by
  cases datum with
  | null => rfl
  | json document =>
      cases hstep : document.at? path with
      | none => simp [fetch, hstep, Document.at?_append, foundJson, hfound, bind, Except.bind]
      | some child => simp [fetch, hstep, Document.at?_append, foundJson, bind, Except.bind]
  | _ =>
      rcases hdatum with rfl | hdatum
      · rfl
      · cases hdatum

end Operator

namespace Expr

theorem evaluate_path {operator : Operator} {found : Option Document → Datum}
    (hstrict : operator.isStrict = true)
    (hlookup : ∀ datum key,
      operator.strict [datum, key] = (Operator.lookup operator datum key).map found)
    (subject : Expr) (path : JsonPath) (row : Row) :
    (Expr.operation operator [subject, pathOperand path]).evaluate row =
      subject.evaluate row >>= Operator.fetch operator found path := by
  rw [evaluate_pair hstrict subject (evaluate_pathOperand path row) rfl]
  congr
  funext datum
  rw [Operator.fetch_eq, hlookup]

theorem evaluate_get (subject : Expr) (path : JsonPath) (row : Row) :
    (Expr.operation .get [subject, pathOperand path]).evaluate row =
      subject.evaluate row >>= Operator.fetch .get Operator.foundJson path :=
  evaluate_path rfl (fun _ _ => rfl) subject path row

theorem evaluate_getText (subject : Expr) (path : JsonPath) (row : Row) :
    (Expr.operation .getText [subject, pathOperand path]).evaluate row =
      subject.evaluate row >>= Operator.fetch .getText Operator.foundText path :=
  evaluate_path rfl (fun _ _ => rfl) subject path row

section Subject

variable {subject : Expr} (htag : subject.tag = .json) {row : Row}
include htag

theorem get_get {path rest : List String} (hpath : JsonPath.IsDiscrete path)
    (hrest : JsonPath.IsDiscrete rest) :
    EvaluateAlike row (subject.get path >>= fun inner => inner.get rest)
      (subject.get (path ++ rest)) := by
  have hstepwise : (subject.get path >>= fun inner => inner.get rest) =
      .ok (.operation .get [.operation .get [subject, pathOperand path], pathOperand rest]) := by
    rw [get_of_isDiscrete htag hpath]
    exact get_of_isDiscrete rfl hrest
  refine ⟨_, _, hstepwise, get_of_isDiscrete htag (hpath.append hrest), ?_⟩
  rw [evaluate_get, evaluate_get, evaluate_get, bind_assoc]
  congr
  funext datum
  exact Operator.fetch_append rfl path rest (.inl rfl)

theorem get_getText {path rest : List String} (hpath : JsonPath.IsDiscrete path)
    (hrest : JsonPath.IsDiscrete rest)
    (hsubject : ∀ datum, subject.evaluate row = .ok datum → datum.Conforms .json) :
    EvaluateAlike row (subject.get path >>= fun inner => inner.getText rest)
      (subject.getText (path ++ rest)) := by
  have hstepwise : (subject.get path >>= fun inner => inner.getText rest) =
      .ok (.operation .getText [.operation .get [subject, pathOperand path], pathOperand rest]) := by
    rw [get_of_isDiscrete htag hpath]
    exact getText_of_isDiscrete rfl hrest
  refine ⟨_, _, hstepwise, getText_of_isDiscrete htag (hpath.append hrest), ?_⟩
  rw [evaluate_getText, evaluate_get, evaluate_getText, bind_assoc]
  cases hvalue : subject.evaluate row with
  | error fault => rfl
  | ok datum => exact Operator.fetch_append rfl path rest (.inr (hsubject datum hvalue))

/-! ## Keys and indexes -/

section Key

variable {fields : List (String × Document)}
  (hsubject : subject.evaluate row = .ok (.json (.object fields))) {key : String}
  (hkey : JsonPath.IsDiscrete [key])
include hsubject hkey

theorem getKey_alike : EvaluateAlike row (subject.getKey key) (subject.get [key]) := by
  refine ⟨_, _, apply_pair rfl rfl htag rfl, get_of_isDiscrete htag hkey, ?_⟩
  rw [evaluate_pair_of_json rfl hsubject (evaluate_textOperand key row) rfl, evaluate_get, hsubject]
  have hat : (Document.object fields).at? [key] = Keyed.find? fields key := by
    simp [Document.child?]
  change Except.ok (Operator.foundJson (Keyed.find? fields key)) =
    Except.ok (Operator.foundJson ((Document.object fields).at? [key]))
  rw [hat]

theorem deleteKey_alike :
    EvaluateAlike row (subject.deleteKey key) (subject.deletePath [key]) := by
  refine ⟨_, _, apply_pair rfl rfl htag rfl, deletePath_of_isDiscrete htag hkey, ?_⟩
  rw [evaluate_pair_of_json rfl hsubject (evaluate_textOperand key row) rfl,
    evaluate_pair_of_json rfl hsubject (evaluate_pathOperand [key] row) rfl]
  rfl

end Key

section Index

variable {items : List Document}
  (hsubject : subject.evaluate row = .ok (.json (.array items))) {index : Int64}
  (hindex : Text.FitsHalfWord index.toInt)
include hsubject hindex

theorem getIndex_alike :
    EvaluateAlike row (subject.getIndex index) (subject.get [toString index.toInt]) := by
  have hbuilt : subject.getIndex index =
      .ok (.operation .get [subject, .constant (.index index.toInt32)]) := by
    rw [getIndex, indexOperand, if_pos hindex]
    exact apply_pair rfl rfl htag rfl
  refine ⟨_, _, hbuilt, get_of_isDiscrete htag (JsonPath.isDiscrete_toString index.toInt), ?_⟩
  rw [evaluate_pair_of_json rfl hsubject (evaluate_index hindex row) rfl, evaluate_get, hsubject]
  have hat : (Document.array items).at? [toString index.toInt] =
      Document.item? items index.toInt := by
    rw [Document.at?_cons, Document.child?, Document.index?_toString, Option.bind_some]
    exact Option.bind_fun_some _
  change Except.ok (Operator.foundJson (Document.item? items index.toInt)) =
    Except.ok (Operator.foundJson ((Document.array items).at? [toString index.toInt]))
  rw [hat]

theorem deleteIndex_alike :
    EvaluateAlike row (subject.deleteIndex index) (subject.deletePath [toString index.toInt]) := by
  have hbuilt : subject.deleteIndex index =
      .ok (.operation .deleteIndex [subject, .constant (.index index.toInt32)]) := by
    rw [deleteIndex, indexOperand, if_pos hindex]
    exact apply_pair rfl rfl htag rfl
  have hpath := JsonPath.isDiscrete_toString index.toInt
  refine ⟨_, _, hbuilt, deletePath_of_isDiscrete htag hpath, ?_⟩
  rw [evaluate_pair_of_json rfl hsubject (evaluate_index hindex row) rfl,
    evaluate_pair_of_json rfl hsubject (evaluate_pathOperand _ row) rfl]
  have hdelete : (Document.array items).deletePath [toString index.toInt] =
      (Document.array items).deleteIndex index.toInt := by
    change Document.editAt Document.deleteLast 0 _ (.array items) = _
    rw [Document.editAt_array_last,
      Document.indexAt_of_index? (Document.index?_toString index)]
    rfl
  change Operator.editing ((Document.array items).deleteIndex index.toInt) =
    Operator.editing ((Document.array items).deletePath [toString index.toInt])
  rw [hdelete]

end Index

end Subject

/-- Getting along a path in two steps is getting along it at once, also as a text
where the subject is a document or NULL.  In an object a key does what the path of
that key does, and in an array an index does what the path of its decimal form
does. -/
theorem navigate_stepwise {subject : Expr} (htag : subject.tag = .json) (row : Row) :
    (∀ path rest, JsonPath.IsDiscrete path → JsonPath.IsDiscrete rest →
      EvaluateAlike row (subject.get path >>= fun inner => inner.get rest)
          (subject.get (path ++ rest)) ∧
        ((∀ datum, subject.evaluate row = .ok datum → datum.Conforms .json) →
          EvaluateAlike row (subject.get path >>= fun inner => inner.getText rest)
            (subject.getText (path ++ rest)))) ∧
      (∀ fields key, subject.evaluate row = .ok (.json (.object fields)) →
        JsonPath.IsDiscrete [key] →
        EvaluateAlike row (subject.getKey key) (subject.get [key]) ∧
          EvaluateAlike row (subject.deleteKey key) (subject.deletePath [key])) ∧
      ∀ items (index : Int64), subject.evaluate row = .ok (.json (.array items)) →
        Text.FitsHalfWord index.toInt →
        EvaluateAlike row (subject.getIndex index) (subject.get [toString index.toInt]) ∧
          EvaluateAlike row (subject.deleteIndex index)
            (subject.deletePath [toString index.toInt]) := by
  refine ⟨?_, ?_, ?_⟩
  · intro path rest hpath hrest
    exact ⟨get_get htag hpath hrest, get_getText htag hpath hrest⟩
  · intro fields key hsubject hkey
    exact ⟨getKey_alike htag hsubject hkey, deleteKey_alike htag hsubject hkey⟩
  · intro items index hsubject hindex
    exact ⟨getIndex_alike htag hsubject hindex, deleteIndex_alike htag hsubject hindex⟩

/-- A document null on the way, a key beside it, and the least index in an array. -/
theorem navigate_stepwise_null :
    let doc : Expr := .column ⟨none, ["doc"], .jsonb⟩
    let object : Row := fun _ => .json (.object [("a", .null), ("b", .string "x")])
    let array : Row := fun _ => .json (.array [.null])
    EvaluateAlike object (doc.get ["a"] >>= fun inner => inner.getText ["b"])
        (doc.getText ["a", "b"]) ∧
      EvaluateAlike object (doc.deleteKey "b") (doc.deletePath ["b"]) ∧
      EvaluateAlike array (doc.getIndex (-2147483648)) (doc.get ["-2147483648"]) := by
  intro doc object array
  have hkey : ∀ key : String, key ≠ "" → Text.hasPoint key = false →
      JsonPath.IsDiscrete [key] := fun _ => JsonPath.isDiscrete_singleton
  have ha := hkey "a" (by decide) (by decide)
  have hb := hkey "b" (by decide) (by decide)
  have hdoc : doc.tag = .json := rfl
  obtain ⟨hpaths, hkeys, -⟩ := navigate_stepwise hdoc object
  obtain ⟨-, -, hindexes⟩ := navigate_stepwise hdoc array
  have hsubject : ∀ datum, doc.evaluate object = .ok datum → datum.Conforms .json := by
    rintro datum ⟨⟩
    rfl
  exact ⟨(hpaths ["a"] ["b"] ha hb).2 hsubject, (hkeys _ "b" rfl hb).2,
    (hindexes _ (-2147483648) rfl (by decide)).1⟩

end Expr

end JsonbAlgebra
