import JsonbAlgebra.Template

/-!
# Dialects

How the parts of a statement are written: names, the marks of parameters, and
operations.  A dialect has a template for every operator.  Overriding a
template makes a new dialect and leaves all other templates as they are.
-/

namespace JsonbAlgebra

/-! ## Names

A name made of lower-case letters, digits, underscores and dollar signs that
starts with a letter or an underscore is written as it is.  Any other name is
put in double quotes, with the quotes inside it doubled.
-/

namespace Identifier

def isPlainStart (c : Char) : Bool :=
  c.isLower || c == '_'

def isPlain (c : Char) : Bool :=
  isPlainStart c || c.isDigit || c == '$'

def isPlainName : List Char → Bool
  | [] => false
  | c :: rest => isPlainStart c && rest.all isPlain

def doubled (c : Char) : List Char :=
  if c = '"' then ['"', '"'] else [c]

def quoteChars (name : List Char) : List Char :=
  if isPlainName name then name else '"' :: (name.flatMap doubled ++ ['"'])

def quote (name : String) : String :=
  String.ofList (quoteChars name.toList)

def qualified (names : List String) : String :=
  ".".intercalate (names.map quote)

end Identifier

/-! ## Placeholders

A parameter leaves a mark in the text of a statement: always the same one, or
one that shows its position.
-/

inductive Placeholder where
  | anonymous
  | numbered
  deriving DecidableEq, Repr

namespace Placeholder

def mark : Placeholder → Nat → String
  | .anonymous, _ => "?"
  | .numbered, position => "$" ++ toString position

def name : Placeholder → String
  | .anonymous => "anonymous"
  | .numbered => "numbered"

def named? : String → Option Placeholder
  | "anonymous" => some .anonymous
  | "numbered" => some .numbered
  | _ => none

/-- The style that a text asks for, by name or by mark, in any case of its
letters and between blanks. -/
def ofText (text : String) : Except SettingsFault Placeholder :=
  match (String.ofList (Text.trim text.toList)).toLower with
  | "anonymous" | "?" => .ok .anonymous
  | "numbered" | "$" | "$n" => .ok .numbered
  | other => .error (.unknownPlaceholder other)

theorem named?_name (style : Placeholder) : named? style.name = some style := by
  cases style <;> rfl

end Placeholder

/-! ## Operations -/

structure Dialect where
  name : String
  template : Operator → Template

namespace Dialect

def postgresTemplate : Operator → Template
  | .get => ⟨"(\x7b1\x7d -> \x7b2\x7d)", ", ", some "(\x7b1\x7d #> \x7b2\x7d)"⟩
  | .getText => ⟨"(\x7b1\x7d ->> \x7b2\x7d)", ", ", some "(\x7b1\x7d #>> \x7b2\x7d)"⟩
  | .contains => .ofPattern "(\x7b1\x7d @> \x7b2\x7d)"
  | .containsKey => .ofPattern "(\x7b1\x7d ? \x7b2\x7d)"
  | .concat => .ofPattern "(\x7b1\x7d || \x7b2\x7d)"
  | .size => .ofPattern "jsonb_array_length(\x7b1\x7d)"
  | .keys => .ofPattern "jsonb_object_keys(\x7b1\x7d)"
  | .elements => .ofPattern "jsonb_array_elements(\x7b1\x7d)"
  | .typeOf => .ofPattern "jsonb_typeof(\x7b1\x7d)"
  | .buildObject => .ofPattern "jsonb_build_object(\x7b*\x7d)"
  | .set => .ofPattern "jsonb_set(\x7b1\x7d, \x7b2\x7d, \x7b3\x7d)"
  | .deleteKey => .ofPattern "(\x7b1\x7d - \x7b2\x7d)"
  | .deleteIndex => .ofPattern "(\x7b1\x7d - \x7b2\x7d)"
  | .deletePath => .ofPattern "(\x7b1\x7d #- \x7b2\x7d)"
  | .castText => .ofPattern "(\x7b1\x7d)::text"
  | .castInteger => .ofPattern "(\x7b1\x7d)::integer"
  | .castBigint => .ofPattern "(\x7b1\x7d)::bigint"
  | .castNumeric => .ofPattern "(\x7b1\x7d)::numeric"
  | .castBoolean => .ofPattern "(\x7b1\x7d)::boolean"
  | .eq => .ofPattern "(\x7b1\x7d = \x7b2\x7d)"
  | .ne => .ofPattern "(\x7b1\x7d <> \x7b2\x7d)"
  | .and => ⟨"(\x7b*\x7d)", " AND ", none⟩
  | .or => ⟨"(\x7b*\x7d)", " OR ", none⟩
  | .not => .ofPattern "(NOT \x7b1\x7d)"
  | .isNull => .ofPattern "(\x7b1\x7d IS NULL)"
  | .isNotNull => .ofPattern "(\x7b1\x7d IS NOT NULL)"
  | .inList => .ofPattern "(\x7b1\x7d IN \x7b2\x7d)"
  | .coalesce => .ofPattern "coalesce(\x7b*\x7d)"
  | .caseWhen => .ofPattern "(CASE WHEN \x7b1\x7d THEN \x7b2\x7d ELSE \x7b3\x7d END)"

def postgres : Dialect :=
  ⟨"postgres", postgresTemplate⟩

def rename (dialect : Dialect) (name : String) : Dialect :=
  { dialect with name }

def replace (dialect : Dialect) (operator : Operator) (template : Template) : Dialect :=
  { dialect with
    template := fun other => if other = operator then template else dialect.template other }

/-- Replaces a template by one that suits its operator. -/
def override (dialect : Dialect) (operator : Operator) (template : Template) :
    Except TemplateFault Dialect :=
  (template.check operator).map fun _ => dialect.replace operator template

/-- Replaces the template of the operator with a name. -/
def overrideNamed (dialect : Dialect) (name : String) (template : Template) :
    Except Fault Dialect :=
  match Operator.named? name with
  | some operator => (dialect.override operator template).mapError .template
  | none => .error (.unknownOperator name)

end Dialect

end JsonbAlgebra
