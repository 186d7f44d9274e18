import JsonbAlgebra.Evaluation
import JsonbAlgebra.Proofs.ExprInduction
import JsonbAlgebra.Proofs.Success

/-!
# Evaluation keeps tags

The check of an operation looks at the tags of its operands only.  This module
justifies it: on a row that conforms to the columns of a disciplined expression,
evaluation yields a datum that conforms to the tag of the expression or fails
for a reason that lies in the values, and never because an operand is of the
wrong kind.

An outcome respects a property if it is a datum with the property or a failure
of that sort.  Respecting composes along the steps of a computation, so that
there is one lemma for each function of the evaluator and one case for each
operator, and the induction over expressions only puts them together.
-/

namespace JsonbAlgebra

/-! ## Data and tags -/

def Datum.Kind.conforms : Datum.Kind → Tag → Bool
  | .null, _ => true
  | .json, .json => true
  | .text, .text => true
  | .integer, .integer => true
  | .integer, .number => true
  | .number, .number => true
  | .boolean, .boolean => true
  | .array, .textArray => true
  | .array, .array => true
  | _, _ => false

namespace Datum

/-- Whether a datum is one of those that a tag stands for.  NULL belongs to
every tag. -/
def Conforms (datum : Datum) (tag : Tag) : Prop :=
  datum.kind.conforms tag = true

theorem conforms_null (tag : Tag) : Datum.null.Conforms tag :=
  rfl

theorem Conforms.of_fits {datum : Datum} {tag expected : Tag} (h : datum.Conforms tag)
    (hfits : tag.fits expected = true) : datum.Conforms expected := by
  unfold Tag.fits at hfits
  split at hfits
  · cases datum with
    | null => rfl
    | _ => cases h
  · cases datum with
    | null => rfl
    | integer _ => rfl
    | _ => cases h
  · cases datum with
    | null => rfl
    | array _ => rfl
    | _ => cases h
  · rw [← eq_of_beq hfits]
    exact h

theorem Conforms.of_alternative {datum : Datum} {tag expected : Tag} (h : datum.Conforms tag)
    (htag : tag = expected ∨ tag = .null) : datum.Conforms expected := by
  rcases htag with rfl | rfl
  · exact h
  · cases datum with
    | null => rfl
    | _ => cases h

theorem isNull_of_conforms_null {datum : Datum} (h : datum.Conforms .null) :
    datum.isNull = true := by
  cases datum with
  | null => rfl
  | _ => cases h

theorem eq_json {datum : Datum} (hpresent : datum.isNull = false) (h : datum.Conforms .json) :
    ∃ document, datum = .json document := by
  cases datum with
  | null => cases hpresent
  | json document => exact ⟨document, rfl⟩
  | _ => cases h

theorem eq_text {datum : Datum} (hpresent : datum.isNull = false) (h : datum.Conforms .text) :
    ∃ value, datum = .text value := by
  cases datum with
  | null => cases hpresent
  | text value => exact ⟨value, rfl⟩
  | _ => cases h

theorem eq_integer {datum : Datum} (hpresent : datum.isNull = false)
    (h : datum.Conforms .integer) : ∃ value, datum = .integer value := by
  cases datum with
  | null => cases hpresent
  | integer value => exact ⟨value, rfl⟩
  | _ => cases h

theorem eq_array {datum : Datum} (hpresent : datum.isNull = false) {tag : Tag}
    (htag : tag.isArray = true) (h : datum.Conforms tag) : ∃ items, datum = .array items := by
  cases datum with
  | null => cases hpresent
  | array items => exact ⟨items, rfl⟩
  | _ => cases tag <;> cases htag <;> cases h

theorem conforms_ofTruth (truth : Option Bool) : (ofTruth truth).Conforms .boolean := by
  cases truth <;> rfl

end Datum

/-! ## Outcomes that respect a property -/

/-- Faults that depend on the values of data.  The others blame the tree: an
operand of the wrong kind, too many or too few operands, or a value list that
is missing or out of its place. -/
def EvaluationFault.isOfValues : EvaluationFault → Bool
  | .incomparable .. | .invalidInput .. | .notArray _ | .sizeOfNonArray | .keysOfNonObject
  | .elementsOfNonArray | .edit _ | .nullKey => true
  | .operand .. | .operandCount _ | .notBoolean _ | .unpairedKey | .missingValueList
  | .strayValueList => false

def Respects {α : Type} (P : α → Prop) : Except EvaluationFault α → Prop
  | .ok a => P a
  | .error fault => fault.isOfValues = true

namespace Respects

variable {α β : Type} {P : α → Prop} {Q : β → Prop} {x : Except EvaluationFault α}

theorem bind {f : α → Except EvaluationFault β} (h : Respects P x)
    (hf : ∀ a, P a → Respects Q (f a)) : Respects Q (x >>= f) := by
  cases x with
  | error fault => exact h
  | ok a => exact hf a h

theorem map {f : α → β} (h : Respects P x) (hf : ∀ a, P a → Q (f a)) :
    Respects Q (x.map f) := by
  cases x with
  | error fault => exact h
  | ok a => exact hf a h

theorem imp {P' : α → Prop} (h : Respects P x) (himp : ∀ a, P a → P' a) : Respects P' x := by
  cases x with
  | error fault => exact h
  | ok a => exact himp a h

end Respects

/-! ## Casts and comparison -/

namespace Datum

theorem readAs_respects {α : Type} (target : CastTarget) (value : Datum)
    (read : List Char → Option α) (text : String) :
    Respects (fun _ => True) (readAs target value read text) := by
  rw [readAs]
  split
  · trivial
  · rfl

theorem toWord_respects (value : Datum) : Respects (fun _ => True) value.toWord := by
  unfold toWord
  split
  case h_4 | h_6 => simp only [readAs_respects]
  case h_7 => rfl
  all_goals trivial

theorem toNumeric_respects (value : Datum) : Respects (fun _ => True) value.toNumeric := by
  unfold toNumeric
  split
  case h_3 | h_5 => simp only [readAs_respects]
  case h_6 => rfl
  all_goals trivial

theorem toTruth_respects (value : Datum) : Respects (fun _ => True) value.toTruth := by
  unfold toTruth
  split
  case h_3 | h_5 => simp only [readAs_respects]
  case h_6 => rfl
  all_goals trivial

theorem equal_respects (left right : Datum) : Respects (fun _ => True) (left.equal right) := by
  unfold equal
  split
  case h_9 => rfl
  all_goals trivial

theorem truth?_respects {datum : Datum} (h : datum.Conforms .boolean) :
    Respects (fun _ => True) datum.truth? := by
  cases datum with
  | boolean _ => trivial
  | null => trivial
  | _ => cases h

theorem ofTyped_respects (type : SqlType) (value : Document) :
    Respects (fun datum => datum.Conforms type.tag) (ofTyped type value) := by
  unfold ofTyped
  split
  · rfl
  · exact conforms_null _
  · rfl
  · exact (toWord_respects _).map fun _ _ => rfl
  · exact (toWord_respects _).map fun _ _ => rfl
  · exact (toNumeric_respects _).map fun _ _ => rfl
  · exact (toNumeric_respects _).map fun _ _ => rfl
  · exact (toTruth_respects _).map fun _ _ => rfl
  · rename_i element items
    cases element <;> rfl
  · rfl

end Datum

/-! ## Constants -/

/-- The constants whose datum belongs to their tag: no value lists, arrays that
are not declared as anything else, and whole numbers without a type only in the
range of a signed word. -/
def Constant.Plain (constant : Constant) : Prop :=
  match constant.literal, constant.declared with
  | .list _, _ => False
  | .array _, some type => type = .jsonb ∨ type.isArray = true
  | .scalar (.number (.whole value _)), none => Text.FitsWord value
  | _, _ => True

theorem Datum.ofUntyped_conforms {value : Document} (h : (Constant.untyped value).Plain) :
    (ofUntyped value).Conforms (Constant.scalarTag value) := by
  cases value with
  | number number =>
      cases number with
      | whole value isWhole =>
          have hfits : Text.FitsWord value := h
          have hword : (Number.whole value isWhole).word? = some (Int64.ofInt value) :=
            if_pos hfits
          rw [ofUntyped, hword]
          rfl
      | real value => rfl
  | _ => rfl

theorem SqlType.conforms_array {type : SqlType} (h : type.isArray = true)
    (items : List Document) : (Datum.array items).Conforms type.tag := by
  cases type with
  | array element => cases element <;> rfl
  | _ => cases h

theorem Constant.datum_respects {constant : Constant} (h : constant.Plain) :
    Respects (fun datum => datum.Conforms constant.tag) constant.datum := by
  obtain ⟨literal, declared⟩ := constant
  cases literal with
  | null => exact Datum.conforms_null _
  | scalar value =>
      cases declared with
      | none => exact Datum.ofUntyped_conforms h
      | some type => exact Datum.ofTyped_respects type value
  | array items =>
      cases declared with
      | none =>
          have htag : (Constant.array items).tag = .textArray ∨ (Constant.array items).tag = .array := by
            simp only [array, tag]
            split
            · exact .inl rfl
            · exact .inr rfl
          change (Datum.array items).Conforms (Constant.array items).tag
          rcases htag with htag | htag <;> rw [htag] <;> rfl
      | some type =>
          have harray : type = .jsonb ∨ type.isArray = true := h
          rcases harray with rfl | harray
          · rfl
          · have hjsonb : some type ≠ some SqlType.jsonb := by
              rintro ⟨⟩
              cases harray
            have hdatum : (typedArray items type).datum = .ok (.array items) := if_neg hjsonb
            change Respects _ (typedArray items type).datum
            rw [hdatum]
            exact SqlType.conforms_array harray items
  | list values => cases h

/-! ## Operators over tags -/

namespace Operator

/-- The check of an operation, over the tags of its operands. -/
def Accepts (operator : Operator) (tags : List Tag) : Prop :=
  operator.contract.admits tags.length = true ∧
    ∀ (index : Nat) (tag : Tag) (slot : Slot), tags[index]? = some tag →
      operator.contract.slotAt index = some slot → slot.accepts tag = true

/-- What the tags of operands have to meet besides, so that the operator keeps
its tag: alternatives of one tag, two documents or two arrays, and keys with
values.  Keys and elements of a document are sets of values and have none. -/
def Suits (operator : Operator) (tags : List Tag) : Prop :=
  match operator, tags with
  | .keys, _ => False
  | .elements, _ => False
  | .coalesce, first :: others => ∀ tag ∈ others, tag = first ∨ tag = .null
  | .caseWhen, [_, value, otherwise] => otherwise = value ∨ otherwise = .null
  | .concat, tags =>
    (∀ tag ∈ tags, tag = .json ∨ tag = .null) ∨
      ∀ tag ∈ tags, tag = .textArray ∨ tag = .array ∨ tag = .null
  | .buildObject, tags => tags.length % 2 = 0
  | _, _ => True

end Operator

/-! ## Strict operators -/

/-- A datum that may be given to a strict operator in a slot. -/
def Slot.Takes (slot : Slot) (datum : Datum) : Prop :=
  datum.isNull = false ∧ (slot.accepted = [] ∨ ∃ tag ∈ slot.accepted, datum.Conforms tag)

namespace Slot

theorem takes_of_accepts {slot : Slot} {tag : Tag} {datum : Datum}
    (haccepts : slot.accepts tag = true) (hdatum : datum.Conforms tag)
    (hpresent : datum.isNull = false) : slot.Takes datum := by
  refine ⟨hpresent, ?_⟩
  rw [accepts, Bool.or_eq_true, List.isEmpty_iff, List.any_eq_true] at haccepts
  refine haccepts.imp_right ?_
  rintro ⟨expected, hmem, hfits⟩
  exact ⟨expected, hmem, hdatum.of_fits hfits⟩

theorem conforms_of_takes {name : String} {tag : Tag} {datum : Datum}
    (h : (⟨name, [tag]⟩ : Slot).Takes datum) : datum.Conforms tag := by
  obtain ⟨-, hempty | ⟨expected, hmem, hconforms⟩⟩ := h
  · cases hempty
  · rw [List.mem_singleton.1 hmem] at hconforms
    exact hconforms

theorem takes_json {name : String} {datum : Datum} (h : (json name).Takes datum) :
    ∃ document, datum = .json document :=
  Datum.eq_json h.1 (conforms_of_takes h)

theorem takes_text {name : String} {datum : Datum} (h : (text name).Takes datum) :
    ∃ value, datum = .text value :=
  Datum.eq_text h.1 (conforms_of_takes h)

theorem takes_path {datum : Datum} (h : path.Takes datum) : ∃ items, datum = .array items :=
  Datum.eq_array h.1 rfl (conforms_of_takes h)

theorem takes_key {datum : Datum} (h : key.Takes datum) :
    (∃ value, datum = .text value) ∨ (∃ value, datum = .integer value) ∨
      ∃ items, datum = .array items := by
  obtain ⟨hpresent, hempty | ⟨tag, hmem, hconforms⟩⟩ := h
  · cases hempty
  · simp only [key, List.mem_cons, List.not_mem_nil, or_false] at hmem
    rcases hmem with rfl | rfl | rfl
    · exact .inl (Datum.eq_text hpresent hconforms)
    · exact .inr (.inl (Datum.eq_integer hpresent hconforms))
    · exact .inr (.inr (Datum.eq_array hpresent rfl hconforms))

end Slot

namespace Operator

def isStrict : Operator → Bool
  | .and | .or | .inList | .coalesce | .caseWhen | .isNull | .isNotNull | .buildObject => false
  | _ => true

/-- A strict operator takes one operand for each of its slots. -/
theorem most_of_isStrict {operator : Operator} (h : operator.isStrict = true) :
    operator.contract.most = some operator.contract.slots.length := by
  cases operator <;> cases h <;> rfl

theorem evaluate_of_isStrict {operator : Operator} (h : operator.isStrict = true)
    (operands : List Expr) (results : List Outcome) :
    operator.evaluate operands results =
      Outcome.collect results >>= fun values =>
        if values.any Datum.isNull then .ok .null else operator.strict values := by
  cases operator <;> cases h <;> rfl

theorem evaluate_of_isStrict_pair {operator : Operator} (h : operator.isStrict = true)
    (operands : List Expr) (first second : Outcome) :
    operator.evaluate operands [first, second] =
      first >>= fun left => second >>= fun right =>
        if left.isNull || right.isNull then .ok .null else operator.strict [left, right] := by
  rw [evaluate_of_isStrict h]
  cases first with
  | error fault => rfl
  | ok left =>
      cases second with
      | error fault => rfl
      | ok right => simp [Outcome.collect, bind, Except.bind, pure, Except.pure]

theorem lookup_respects (operator : Operator) (document : Document) {key : Datum}
    (hkey : Slot.key.Takes key) :
    Respects (fun _ => True) (lookup operator (.json document) key) := by
  rcases Slot.takes_key hkey with ⟨value, rfl⟩ | ⟨value, rfl⟩ | ⟨items, rfl⟩
  · cases document <;> trivial
  · cases document <;> trivial
  · trivial

theorem editing_respects (result : Except Document.EditFault Document) :
    Respects (fun datum => datum.Conforms .json) (editing result) := by
  cases result <;> rfl

theorem conforms_foundJson (found : Option Document) : (foundJson found).Conforms .json := by
  cases found <;> rfl

theorem conforms_foundText (found : Option Document) : (foundText found).Conforms .text := by
  unfold foundText
  split <;> rfl

theorem strict_respects {operator : Operator} (hstrict : operator.isStrict = true)
    {tags : List Tag} (hsuits : operator.Suits tags) {tag : Tag}
    (htag : operator.contract.result = .fixed tag) {values : List Datum}
    (hvalues : List.Forall₂ Slot.Takes operator.contract.slots values) :
    Respects (fun datum => datum.Conforms tag) (operator.strict values) := by
  cases operator with
  | get =>
      cases htag
      obtain _ | ⟨hsubject, _ | ⟨hkey, _ | _⟩⟩ := hvalues
      obtain ⟨document, rfl⟩ := Slot.takes_json hsubject
      exact (lookup_respects .get document hkey).map fun found _ => conforms_foundJson found
  | getText =>
      cases htag
      obtain _ | ⟨hsubject, _ | ⟨hkey, _ | _⟩⟩ := hvalues
      obtain ⟨document, rfl⟩ := Slot.takes_json hsubject
      exact (lookup_respects .getText document hkey).map fun found _ => conforms_foundText found
  | contains =>
      cases htag
      obtain _ | ⟨houter, _ | ⟨hinner, _ | _⟩⟩ := hvalues
      obtain ⟨outer, rfl⟩ := Slot.takes_json houter
      obtain ⟨inner, rfl⟩ := Slot.takes_json hinner
      rfl
  | containsKey =>
      cases htag
      obtain _ | ⟨hsubject, _ | ⟨hkey, _ | _⟩⟩ := hvalues
      obtain ⟨document, rfl⟩ := Slot.takes_json hsubject
      obtain ⟨key, rfl⟩ := Slot.takes_text hkey
      rfl
  | concat => cases htag
  | size =>
      cases htag
      obtain _ | ⟨hsubject, _ | _⟩ := hvalues
      obtain ⟨document, rfl⟩ := Slot.takes_json hsubject
      cases document <;> rfl
  | keys => exact hsuits.elim
  | elements => exact hsuits.elim
  | typeOf =>
      cases htag
      obtain _ | ⟨hsubject, _ | _⟩ := hvalues
      obtain ⟨document, rfl⟩ := Slot.takes_json hsubject
      rfl
  | set =>
      cases htag
      obtain _ | ⟨hsubject, _ | ⟨hpath, _ | ⟨hvalue, _ | _⟩⟩⟩ := hvalues
      obtain ⟨document, rfl⟩ := Slot.takes_json hsubject
      obtain ⟨steps, rfl⟩ := Slot.takes_path hpath
      obtain ⟨value, rfl⟩ := Slot.takes_json hvalue
      exact editing_respects _
  | deleteKey =>
      cases htag
      obtain _ | ⟨hsubject, _ | ⟨hkey, _ | _⟩⟩ := hvalues
      obtain ⟨document, rfl⟩ := Slot.takes_json hsubject
      obtain ⟨key, rfl⟩ := Slot.takes_text hkey
      exact editing_respects _
  | deleteIndex =>
      cases htag
      obtain _ | ⟨hsubject, _ | ⟨hindex, _ | _⟩⟩ := hvalues
      obtain ⟨document, rfl⟩ := Slot.takes_json hsubject
      obtain ⟨index, rfl⟩ := Datum.eq_integer hindex.1 (Slot.conforms_of_takes hindex)
      exact editing_respects _
  | deletePath =>
      cases htag
      obtain _ | ⟨hsubject, _ | ⟨hpath, _ | _⟩⟩ := hvalues
      obtain ⟨document, rfl⟩ := Slot.takes_json hsubject
      obtain ⟨steps, rfl⟩ := Slot.takes_path hpath
      exact editing_respects _
  | castText =>
      cases htag
      obtain _ | ⟨-, _ | _⟩ := hvalues
      rfl
  | castInteger | castBigint =>
      cases htag
      obtain _ | ⟨-, _ | _⟩ := hvalues
      exact (Datum.toWord_respects _).map fun _ _ => rfl
  | castNumeric =>
      cases htag
      obtain _ | ⟨-, _ | _⟩ := hvalues
      exact (Datum.toNumeric_respects _).map fun _ _ => rfl
  | castBoolean =>
      cases htag
      obtain _ | ⟨-, _ | _⟩ := hvalues
      exact (Datum.toTruth_respects _).map fun _ _ => rfl
  | eq | ne =>
      cases htag
      obtain _ | ⟨-, _ | ⟨-, _ | _⟩⟩ := hvalues
      exact (Datum.equal_respects _ _).map fun _ _ => rfl
  | not =>
      cases htag
      obtain _ | ⟨hcondition, _ | _⟩ := hvalues
      exact (Datum.truth?_respects (Slot.conforms_of_takes hcondition)).map fun _ _ =>
        Datum.conforms_ofTruth _
  | _ => cases hstrict

end Operator

/-- Results that respect the tags of the operands they belong to. -/
def Outcome.AllConform (tags : List Tag) (results : List Outcome) : Prop :=
  List.Forall₂ (fun tag result => Respects (fun datum => datum.Conforms tag) result) tags results

def Datum.AllConform (tags : List Tag) (values : List Datum) : Prop :=
  List.Forall₂ (fun tag value => value.Conforms tag) tags values

theorem Outcome.collect_respects {tags : List Tag} {results : List Outcome}
    (h : AllConform tags results) : Respects (Datum.AllConform tags) (collect results) := by
  induction h with
  | nil => exact .nil
  | cons hfirst _ ih =>
      rw [collect]
      refine hfirst.bind fun value hvalue => ?_
      exact ih.bind fun values hvalues => .cons hvalue hvalues

namespace Operator

theorem Accepts.length_eq {operator : Operator} {tags : List Tag} (h : operator.Accepts tags)
    {most : Nat} (hmost : operator.contract.most = some most) : tags.length = most :=
  (admits_iff_of_most hmost).1 h.1

theorem takes_slots {operator : Operator} {tags : List Tag} {values : List Datum}
    (haccepts : operator.Accepts tags) (hlength : tags.length = operator.contract.slots.length)
    (hvalues : Datum.AllConform tags values) (hpresent : ∀ value ∈ values, value.isNull = false) :
    List.Forall₂ Slot.Takes operator.contract.slots values := by
  have hsame := hvalues.length_eq
  refine List.forall₂_iff_get.2 ⟨hlength.symm.trans hsame, ?_⟩
  intro index hslots hindex
  have htags : index < tags.length := by omega
  have hslot : operator.contract.slotAt index = some operator.contract.slots[index] := by
    rw [Contract.slotAt, if_pos hslots, List.getElem?_eq_getElem hslots]
  have haccept := haccepts.2 index _ _ (List.getElem?_eq_getElem htags) hslot
  have hconforms := hvalues.get htags hindex
  exact Slot.takes_of_accepts haccept hconforms (hpresent _ (List.getElem_mem hindex))

theorem evaluate_strict_respects {operator : Operator} {tags : List Tag}
    {results : List Outcome} (hstrict : operator.isStrict = true)
    (haccepts : operator.Accepts tags) (hresults : Outcome.AllConform tags results) {tag : Tag}
    (hvalues : ∀ values, Datum.AllConform tags values →
      (∀ value ∈ values, value.isNull = false) →
      List.Forall₂ Slot.Takes operator.contract.slots values →
      Respects (fun datum => datum.Conforms tag) (operator.strict values))
    (operands : List Expr) :
    Respects (fun datum => datum.Conforms tag) (operator.evaluate operands results) := by
  have hlength := haccepts.length_eq (most_of_isStrict hstrict)
  rw [evaluate_of_isStrict hstrict]
  refine (Outcome.collect_respects hresults).bind fun values hall => ?_
  by_cases hnull : values.any Datum.isNull = true
  · rw [if_pos hnull]
    exact Datum.conforms_null _
  · have hpresent : ∀ value ∈ values, value.isNull = false := by
      simpa using hnull
    rw [if_neg hnull]
    exact hvalues values hall hpresent (takes_slots haccepts hlength hall hpresent)

theorem concat_respects {first other : Tag} (hsuits : Suits .concat [first, other])
    {values : List Datum} (hvalues : Datum.AllConform [first, other] values)
    (hpresent : ∀ value ∈ values, value.isNull = false) :
    Respects (fun datum => datum.Conforms first) (strict .concat values) := by
  obtain _ | @⟨_, left, _, _, hleft, _ | @⟨_, right, _, _, hright, _ | _⟩⟩ := hvalues
  have hleftPresent := hpresent left List.mem_cons_self
  have hrightPresent := hpresent right (List.mem_cons_of_mem _ List.mem_cons_self)
  have hnull : ∀ {tag : Tag} {datum : Datum}, datum.isNull = false → datum.Conforms tag →
      tag ≠ .null := by
    rintro tag datum hdatum hconforms rfl
    rw [Datum.isNull_of_conforms_null hconforms] at hdatum
    cases hdatum
  have hfirst := hnull hleftPresent hleft
  have hother := hnull hrightPresent hright
  rcases hsuits with hjson | harray
  · obtain rfl := (hjson first List.mem_cons_self).resolve_right hfirst
    obtain rfl := (hjson other (List.mem_cons_of_mem _ List.mem_cons_self)).resolve_right hother
    obtain ⟨document, rfl⟩ := Datum.eq_json hleftPresent hleft
    obtain ⟨extra, rfl⟩ := Datum.eq_json hrightPresent hright
    rfl
  · have hisArray : ∀ tag ∈ [first, other], tag ≠ .null → tag.isArray = true := by
      intro tag hmem hne
      rcases harray tag hmem with rfl | rfl | rfl
      · rfl
      · rfl
      · exact absurd rfl hne
    have hfirstArray := hisArray first List.mem_cons_self hfirst
    have hotherArray := hisArray other (List.mem_cons_of_mem _ List.mem_cons_self) hother
    obtain ⟨items, rfl⟩ := Datum.eq_array hleftPresent hfirstArray hleft
    obtain ⟨extra, rfl⟩ := Datum.eq_array hrightPresent hotherArray hright
    exact hleft

/-! ## Operators that look at one result after another -/

theorem junction_respects (decisive : Bool) {results : List Outcome}
    (h : ∀ result ∈ results, Respects (fun datum => datum.Conforms .boolean) result) :
    Respects (fun _ => True) (junction decisive results) := by
  induction results with
  | nil => trivial
  | cons result results ih =>
      obtain ⟨hfirst, hothers⟩ := List.forall_mem_cons.1 h
      rw [junction]
      refine hfirst.bind fun datum hdatum => ?_
      refine (Datum.truth?_respects hdatum).bind fun truth _ => ?_
      cases truth with
      | none => exact (ih hothers).bind fun _ _ => trivial
      | some truth =>
          dsimp only
          split
          · trivial
          · exact ih hothers

theorem firstPresent_respects {tag : Tag} {results : List Outcome}
    (h : ∀ result ∈ results, Respects (fun datum => datum.Conforms tag) result) :
    Respects (fun datum => datum.Conforms tag) (firstPresent results) := by
  induction results with
  | nil => exact Datum.conforms_null tag
  | cons result results ih =>
      obtain ⟨hfirst, hothers⟩ := List.forall_mem_cons.1 h
      rw [firstPresent]
      refine hfirst.bind fun datum hdatum => ?_
      split
      · exact ih hothers
      · exact hdatum

theorem choose_respects {condition value otherwise : Outcome} {tag : Tag}
    (hcondition : Respects (fun datum => datum.Conforms .boolean) condition)
    (hvalue : Respects (fun datum => datum.Conforms tag) value)
    (hotherwise : Respects (fun datum => datum.Conforms tag) otherwise) :
    Respects (fun datum => datum.Conforms tag) (choose [condition, value, otherwise]) := by
  rw [choose]
  refine hcondition.bind fun datum hdatum => ?_
  refine (Datum.truth?_respects hdatum).bind fun truth _ => ?_
  split
  · exact hvalue
  · exact hotherwise

theorem entries_respects (values : List Datum) :
    Respects (fun _ => True) (entries values) := by
  fun_induction entries values with
  | case1 key value rest hnull => rfl
  | case2 key value rest hnull ih => exact ih.map fun _ _ => trivial
  | case3 => trivial

theorem objectOf_respects {values : List Datum} (h : values.length % 2 = 0) :
    Respects (fun datum => datum.Conforms .json) (objectOf values) := by
  rw [objectOf, if_pos h]
  exact (entries_respects values).map fun _ _ => rfl

theorem membership_respects (declared : Option SqlType) (subject : Datum)
    (values : List Document) :
    Respects (fun _ => True) (membership declared subject values) := by
  induction values with
  | nil => trivial
  | cons value values ih =>
      have hcandidate : Respects (fun _ => True) (Datum.ofScalar declared value) := by
        cases declared with
        | none => trivial
        | some type => exact (Datum.ofTyped_respects type value).imp fun _ _ => trivial
      rw [membership]
      refine hcandidate.bind fun candidate _ => ?_
      split
      · exact ih.bind fun _ _ => trivial
      · refine (Datum.equal_respects subject candidate).bind fun same _ => ?_
        split
        · trivial
        · exact ih

theorem inAlternatives_respects {subject : Outcome} {tag : Tag}
    (hsubject : Respects (fun datum => datum.Conforms tag) subject) {alternatives : Constant}
    (hlist : alternatives.isValueList = true) :
    Respects (fun datum => datum.Conforms .boolean)
      (inAlternatives subject (.constant alternatives)) := by
  obtain ⟨literal, declared⟩ := alternatives
  cases literal with
  | list values =>
      rw [inAlternatives]
      refine hsubject.bind fun datum _ => ?_
      split
      · rfl
      · exact (membership_respects declared datum values).map fun _ _ =>
          Datum.conforms_ofTruth _
  | _ => cases hlist

theorem nullCheck_respects (operator : Operator) (expected : Bool) {tag : Tag}
    {results : List Outcome} (hresults : Outcome.AllConform [tag] results) :
    Respects (fun datum => datum.Conforms .boolean) (nullCheck operator expected results) := by
  rw [nullCheck]
  refine (Outcome.collect_respects hresults).bind fun values hvalues => ?_
  obtain _ | ⟨-, _ | _⟩ := hvalues
  rfl

/-! ## Every operator -/

theorem Accepts.conforms {operator : Operator} {tags : List Tag} (h : operator.Accepts tags)
    {expected : Tag} {name : String}
    (hslots : ∀ index, operator.contract.slotAt index = some ⟨name, [expected]⟩)
    {results : List Outcome} (hresults : Outcome.AllConform tags results) :
    ∀ result ∈ results, Respects (fun datum => datum.Conforms expected) result := by
  intro result hmem
  obtain ⟨index, hindex, rfl⟩ := List.getElem_of_mem hmem
  have htags : index < tags.length := by
    rw [hresults.length_eq]
    exact hindex
  have haccept := h.2 index _ _ (List.getElem?_eq_getElem htags) (hslots index)
  have hfits : tags[index].fits expected = true := by
    simpa [Slot.accepts] using haccept
  have hresult := hresults.get htags hindex
  exact Respects.imp hresult fun datum hdatum => hdatum.of_fits hfits

theorem slotAt_condition {operator : Operator} (h : operator = .and ∨ operator = .or)
    (index : Nat) : operator.contract.slotAt index = some .condition := by
  have hslot : ∀ contract : Contract, contract.slots = [.condition] →
      contract.isVariadic = true → contract.slotAt index = some .condition := by
    intro contract hslots hvariadic
    rw [Contract.slotAt, hslots, hvariadic]
    split
    · rename_i hindex
      obtain rfl : index = 0 := by simpa using hindex
      rfl
    · rw [List.length_singleton, Nat.mod_one]
      rfl
  rcases h with rfl | rfl <;> exact hslot _ rfl rfl

theorem evaluate_respects {operator : Operator} (hlist : operator ≠ .inList) {tags : List Tag}
    {results : List Outcome} (haccepts : operator.Accepts tags) (hsuits : operator.Suits tags)
    (hresults : Outcome.AllConform tags results) (operands : List Expr) :
    Respects (fun datum => datum.Conforms (operator.contract.resultTag tags))
      (operator.evaluate operands results) := by
  cases operator with
  | inList => exact absurd rfl hlist
  | keys => exact hsuits.elim
  | elements => exact hsuits.elim
  | and =>
      have hconditions := haccepts.conforms (slotAt_condition (.inl rfl)) hresults
      exact (junction_respects false hconditions).map fun truth _ => Datum.conforms_ofTruth truth
  | or =>
      have hconditions := haccepts.conforms (slotAt_condition (.inr rfl)) hresults
      exact (junction_respects true hconditions).map fun truth _ => Datum.conforms_ofTruth truth
  | coalesce =>
      cases hresults with
      | nil => exact absurd haccepts.1 (by decide)
      | @cons first result others results hfirst hothers =>
          have htag : Operator.coalesce.contract.resultTag (first :: others) = first := rfl
          rw [htag]
          refine firstPresent_respects (List.forall_mem_cons.2 ⟨hfirst, ?_⟩)
          intro other hmem
          obtain ⟨index, hindex, rfl⟩ := List.getElem_of_mem hmem
          have htags : index < others.length := by
            rw [hothers.length_eq]
            exact hindex
          have hresult := hothers.get htags hindex
          have hsame := hsuits _ (List.getElem_mem htags)
          exact Respects.imp hresult fun datum hdatum => hdatum.of_alternative hsame
  | caseWhen =>
      obtain ⟨condition, value, otherwise, rfl⟩ :=
        List.length_eq_three.1 (haccepts.length_eq rfl)
      obtain _ | ⟨hcondition, _ | ⟨hvalue, _ | ⟨hotherwise, _ | _⟩⟩⟩ := hresults
      have hfits : condition.fits .boolean = true := by
        simpa [Slot.accepts, Slot.condition] using haccepts.2 0 condition _ rfl rfl
      exact choose_respects (hcondition.imp fun _ h => h.of_fits hfits) hvalue
        (hotherwise.imp fun _ h => h.of_alternative hsuits)
  | isNull =>
      obtain ⟨tag, rfl⟩ := List.length_eq_one_iff.1 (haccepts.length_eq rfl)
      exact nullCheck_respects .isNull true hresults
  | isNotNull =>
      obtain ⟨tag, rfl⟩ := List.length_eq_one_iff.1 (haccepts.length_eq rfl)
      exact nullCheck_respects .isNotNull false hresults
  | buildObject =>
      refine (Outcome.collect_respects hresults).bind fun values hvalues => ?_
      have heven : values.length % 2 = 0 := by
        rw [← hvalues.length_eq]
        exact hsuits
      exact objectOf_respects heven
  | concat =>
      obtain ⟨first, other, rfl⟩ := List.length_eq_two.1 (haccepts.length_eq rfl)
      exact evaluate_strict_respects rfl haccepts hresults
        (fun values hvalues hpresent _ => concat_respects hsuits hvalues hpresent) operands
  | _ =>
      exact evaluate_strict_respects rfl haccepts hresults
        (fun values _ _ hslots => strict_respects rfl hsuits rfl hslots) operands

end Operator

/-! ## Expressions -/

namespace Expr

def isValueList : Expr → Bool
  | .constant value => value.isValueList
  | _ => false

/-- The expressions whose tags evaluation keeps: constants belong to their tags,
every operation suits its operands, and a value list stands only as the
alternatives of a membership. -/
inductive Disciplined : Expr → Prop
  | column (ref : ColumnRef) : Disciplined (.column ref)
  | constant {value : Constant} (hplain : value.Plain) : Disciplined (.constant value)
  | operation {operator : Operator} {operands : List Expr}
      (hsuits : operator.Suits (tags operands))
      (hoperands : ∀ (index : Nat) (operand : Expr), operands[index]? = some operand →
        ¬ (operator = .inList ∧ index = 1 ∧ operand.isValueList = true) → Disciplined operand) :
      Disciplined (.operation operator operands)

theorem Disciplined.of_forall {operator : Operator} {operands : List Expr}
    (hsuits : operator.Suits (tags operands))
    (h : ∀ operand ∈ operands, operand.Disciplined) :
    (Expr.operation operator operands).Disciplined :=
  .operation hsuits fun _ operand hoperand _ => h operand (List.mem_of_getElem? hoperand)

theorem accepts_of_applicationFault? {operator : Operator} {operands : List Expr}
    (h : applicationFault? operator operands = none) : operator.Accepts (tags operands) := by
  obtain ⟨hadmits, haccepts⟩ := applicationFault?_eq_none h
  rw [tags_eq_map]
  refine ⟨by rwa [List.length_map], ?_⟩
  intro index tag slot htag hslot
  rw [List.getElem?_map, Option.map_eq_some_iff] at htag
  obtain ⟨operand, hoperand, rfl⟩ := htag
  exact haccepts index operand slot hoperand hslot

theorem tag_ne_of_plain {value : Constant} (h : value.Plain) : value.tag ≠ .valueList := by
  intro htag
  rw [Constant.tag_eq_valueList] at htag
  obtain ⟨literal, declared⟩ := value
  cases literal with
  | list values => cases h
  | _ => cases htag

/-- An operation has the tag of value lists only if it passes one on, which a
membership never does. -/
theorem tag_operation_ne {operator : Operator} {operands : List Expr}
    (h : operator ≠ .inList → ∀ operand ∈ operands, operand.tag ≠ .valueList) :
    (Expr.operation operator operands).tag ≠ .valueList := by
  have hpassed : operator ≠ .inList → ∀ index : Nat,
      (tags operands)[index]?.getD .null ≠ .valueList := by
    intro hlist index
    rw [tags_eq_map, List.getElem?_map]
    cases hoperand : operands[index]? with
    | none => exact nofun
    | some operand => exact h hlist operand (List.mem_of_getElem? hoperand)
  rw [tag, Contract.resultTag]
  cases operator with
  | concat => exact hpassed (by decide) 0
  | coalesce => exact hpassed (by decide) 0
  | caseWhen => exact hpassed (by decide) 1
  | _ => exact nofun

/-- A disciplined expression is no value list and cannot pass one on. -/
theorem Disciplined.tag_ne {e : Expr} (h : e.Disciplined) : e.tag ≠ .valueList := by
  induction e with
  | column ref => exact ref.type.tag_ne_valueList
  | constant value =>
      cases h with
      | constant hplain => exact tag_ne_of_plain hplain
  | operation operator operands ih =>
      cases h with
      | operation _ hoperands =>
          refine tag_operation_ne fun hlist operand hmem => ?_
          obtain ⟨index, hoperand⟩ := List.getElem?_of_mem hmem
          exact ih operand hmem (hoperands index operand hoperand fun hin => hlist hin.1)

theorem eq_valueList_of_fits {tag : Tag} (h : tag.fits .valueList = true) : tag = .valueList := by
  cases tag with
  | valueList => rfl
  | _ => cases h

theorem Disciplined.isValueList_of_fits {e : Expr} (hfits : e.tag.fits .valueList = true)
    (h : e.isValueList = false → e.Disciplined) : ∃ value : Constant,
      e = .constant value ∧ value.isValueList = true := by
  cases hlist : e.isValueList with
  | true =>
      cases e with
      | constant value => exact ⟨value, rfl, hlist⟩
      | _ => cases hlist
  | false => exact absurd (eq_valueList_of_fits hfits) (h hlist).tag_ne

theorem evaluate_respects {e : Expr} (hwell : e.WellFormed) (hdisciplined : e.Disciplined)
    {row : Row} (hrow : ∀ ref ∈ e.columns, (row ref.path).Conforms ref.type.tag) :
    Respects (fun datum => datum.Conforms e.tag) (e.evaluate row) := by
  induction e with
  | column ref => exact hrow ref List.mem_cons_self
  | constant value =>
      cases hdisciplined with
      | constant hplain => exact Constant.datum_respects hplain
  | operation operator operands ih =>
      obtain ⟨hfault, hoperands⟩ := wellFormed_operation_iff.1 hwell
      have haccepts := accepts_of_applicationFault? hfault
      cases hdisciplined with
      | operation hsuits hinner =>
          have hresult : ∀ index operand, operands[index]? = some operand →
              ¬ (operator = .inList ∧ index = 1 ∧ operand.isValueList = true) →
              Respects (fun datum => datum.Conforms operand.tag) (operand.evaluate row) := by
            intro index operand hoperand hfree
            have hmem := List.mem_of_getElem? hoperand
            exact ih operand hmem (hoperands operand hmem) (hinner index operand hoperand hfree)
              fun ref href => hrow ref (mem_columns_operation hmem href)
          rw [evaluate, evaluateAll_eq_map]
          by_cases hlist : operator = .inList
          · subst hlist
            have hlength : operands.length = 2 := by
              rw [← List.length_map (f := tag), ← tags_eq_map]
              exact haccepts.length_eq rfl
            obtain ⟨subject, alternatives, rfl⟩ := List.length_eq_two.1 hlength
            have hfits : alternatives.tag.fits .valueList = true := by
              simpa [Slot.accepts] using haccepts.2 1 alternatives.tag _ rfl rfl
            obtain ⟨value, rfl, hvalues⟩ := Disciplined.isValueList_of_fits hfits fun hfree =>
              hinner 1 alternatives rfl fun hin => by simp [hfree] at hin
            have hsubject := hresult 0 subject rfl fun hin => by simp at hin
            exact Operator.inAlternatives_respects hsubject hvalues
          · have hresults : Outcome.AllConform (tags operands) (operands.map (evaluate row)) := by
              rw [tags_eq_map, Outcome.AllConform, List.forall₂_map_left_iff,
                List.forall₂_map_right_iff, List.forall₂_same]
              intro operand hmem
              obtain ⟨index, hoperand⟩ := List.getElem?_of_mem hmem
              exact hresult index operand hoperand fun hin => hlist hin.1
            exact Operator.evaluate_respects hlist haccepts hsuits hresults operands

/-- On a row that conforms to its columns, a well-formed and disciplined
expression yields a datum of its own tag.  If it fails, it fails because of the
values it meets, and no operator is ever given an operand of the wrong kind. -/
theorem evaluate_keeps_tag {e : Expr} (hwell : e.WellFormed) (hdisciplined : e.Disciplined)
    {row : Row} (hrow : ∀ ref ∈ e.columns, (row ref.path).Conforms ref.type.tag) :
    (∀ datum, e.evaluate row = .ok datum → datum.Conforms e.tag) ∧
      ∀ fault, e.evaluate row = .error fault →
        fault.isOfValues = true ∧ ∀ operator need actual, fault ≠ .operand operator need actual := by
  have hrespects := evaluate_respects hwell hdisciplined hrow
  constructor
  · intro datum hdatum
    rw [hdatum] at hrespects
    exact hrespects
  · intro fault hfault
    rw [hfault] at hrespects
    refine ⟨hrespects, ?_⟩
    rintro operator need actual rfl
    cases hrespects

/-- A membership that decides between two branches of one tag, of which the
chosen one falls back to a null without a type. -/
theorem evaluate_keeps_tag_fallback :
    let doc : Expr := .column ⟨none, ["doc"], .jsonb⟩
    let kind : Expr := .operation .getText [doc, .constant (.text "kind")]
    let isKnown : Expr :=
      .operation .inList [kind, .constant (.valueList [.string "a", .string "b"])]
    let length : Expr := .operation .coalesce
      [.operation .size [.operation .get [doc, .constant (.text "items")]], .constant .null]
    let e : Expr := .operation .caseWhen [isKnown, length, .constant (.integer 0)]
    let row (items : Document) : Row :=
      fun _ => .json (.object [("items", items), ("kind", .string "b")])
    (∃ datum, e.evaluate (row (.array [.null])) = .ok datum ∧ datum.Conforms .integer) ∧
      ∃ fault, e.evaluate (row .null) = .error fault ∧ fault.isOfValues = true := by
  intro doc kind isKnown length e row
  have hwell : e.WellFormed := by
    simp only [e, isKnown, length, kind, doc, wellFormed_operation_iff, List.forall_mem_cons,
      List.not_mem_nil, false_imp_iff, implies_true, and_true, wellFormed_column,
      wellFormed_constant]
    decide
  have hconstant : ∀ value : Constant, value.Plain → (Expr.constant value).Disciplined :=
    fun _ hplain => .constant hplain
  have hget : ∀ operator value, operator = .get ∨ operator = .getText →
      (Expr.operation operator [doc, .constant (.text value)]).Disciplined := by
    rintro operator value (rfl | rfl) <;>
      exact .of_forall trivial (by simpa [doc] using ⟨.column _, hconstant (.text value) trivial⟩)
  have hknown : isKnown.Disciplined := by
    refine .operation trivial fun index operand hoperand hfree => ?_
    match index, hoperand with
    | 0, hoperand =>
        obtain rfl : kind = operand := Option.some.inj hoperand
        exact hget .getText "kind" (.inr rfl)
    | 1, hoperand =>
        obtain rfl : _ = operand := Option.some.inj hoperand
        exact absurd ⟨rfl, rfl, rfl⟩ hfree
  have hlength : length.Disciplined := by
    refine .of_forall ?_ ?_
    · exact List.forall_mem_singleton.2 (.inr rfl)
    · have hitems := hget .get "items" (.inl rfl)
      have hsize : (Expr.operation .size
          [.operation .get [doc, .constant (.text "items")]]).Disciplined :=
        .of_forall trivial (List.forall_mem_singleton.2 hitems)
      simpa using ⟨hsize, hconstant .null trivial⟩
  have hdisciplined : e.Disciplined := by
    refine .of_forall ?_ ?_
    · exact .inl rfl
    · simpa using ⟨hknown, hlength, hconstant (.integer 0) trivial⟩
  have hrow : ∀ items, ∀ ref ∈ e.columns, ((row items) ref.path).Conforms ref.type.tag := by
    intro items ref href
    simp only [e, isKnown, length, kind, doc, columns, columnsAll, List.append_nil,
      List.nil_append, List.cons_append, List.mem_cons, List.not_mem_nil, or_false, or_self] at href
    subst href
    rfl
  refine ⟨⟨_, rfl, ?_⟩, _, rfl, ?_⟩
  · exact (evaluate_keeps_tag hwell hdisciplined (hrow (.array [.null]))).1 _ rfl
  · exact ((evaluate_keeps_tag hwell hdisciplined (hrow .null)).2 _ rfl).1

end Expr

end JsonbAlgebra
