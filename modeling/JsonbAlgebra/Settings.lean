import JsonbAlgebra.Column
import JsonbAlgebra.Dialect
import JsonbAlgebra.Toml.Parser

/-!
# Settings

The settings of a compilation: the style of placeholders, templates that
override those of the dialect, and the kinds of declared column types.  They
are read from TOML or from a document, in which every field may be missing
and unknown fields are ignored, and an environment can have the last word.
-/

namespace JsonbAlgebra

structure Settings where
  placeholder : Placeholder
  /-- Patterns by operator name. -/
  overrides : Keyed String
  kinds : ColumnKinds
  deriving DecidableEq, Repr

namespace Settings

def standard : Settings :=
  ⟨.anonymous, [], .standard⟩

/-- The dialect with the overriding patterns, taken in the order of the
names. -/
def dialect (settings : Settings) : Except Fault Dialect :=
  settings.overrides.foldlM
    (fun dialect entry => dialect.overrideNamed entry.1 (.ofPattern entry.2))
    Dialect.postgres

def toDocument (settings : Settings) : Document :=
  .object
    [("placeholder", .string settings.placeholder.name),
      ("template_overrides",
        .object (settings.overrides.map fun (name, pattern) => (name, .string pattern))),
      ("type_mappings", settings.kinds.toDocument)]

/-! ## Reading

A choice among names is written as the name, or as an object with the name as
its only key above an empty value.  Which values count as empty is for the
format to say.
-/

def readName (isEmpty : Document → Bool) : Document → Option String
  | .string name => some name
  | .object [(name, value)] => if isEmpty value then some name else none
  | _ => none

def readPlaceholder (isEmpty : Document → Bool) (document : Document) : Option Placeholder :=
  (readName isEmpty document).bind Placeholder.named?

def readOverrides : Document → Option (Keyed String)
  | .object fields => fields.mapM fun (name, pattern) => pattern.text?.map ((name, ·))
  | _ => none

/-- Kinds to register on top of the standard ones, in the order of their
names. -/
def readKinds (isEmpty : Document → Bool) : Document → Option ColumnKinds
  | .object fields => do
    let entries ← fields.mapM fun (name, kind) =>
      ((readName isEmpty kind).bind ColumnKind.named?).map ((name, ·))
    return ColumnKinds.standard.registerAll entries
  | _ => none

def optional {α : Type} (missing : α) (read : Document → Option α) :
    Option Document → Option α
  | none => some missing
  | some document => read document

def ofFields (isEmpty : Document → Bool) (placeholder overrides kinds : Option Document) :
    Option Settings := do
  let placeholder ← optional .anonymous (readPlaceholder isEmpty) placeholder
  let overrides ← optional [] readOverrides overrides
  let kinds ← optional .standard (readKinds isEmpty) kinds
  return ⟨placeholder, overrides, kinds⟩

def ofObject (isEmpty : Document → Bool) (fields : List (String × Document)) :
    Option Settings :=
  ofFields isEmpty (Keyed.find? fields "placeholder")
    (Keyed.find? fields "template_overrides") (Keyed.find? fields "type_mappings")

def isNull : Document → Bool
  | .null => true
  | _ => false

/-- Settings as an object, or as an array of the fields in their order of
which the last ones may be missing. -/
def ofDocument? : Document → Option Settings
  | .object fields => ofObject isNull fields
  | .array fields =>
    if fields.length ≤ 3 then ofFields isNull fields[0]? fields[1]? fields[2]? else none
  | _ => none

/-- An array or a table without anything in it. -/
def isEmptyContainer : Document → Bool
  | .array [] => true
  | .object [] => true
  | _ => false

def ofToml (text : String) : Except SettingsFault Settings :=
  match (Toml.parse? text).bind fun entries =>
    ofObject isEmptyContainer (Keyed.ofList (Toml.Value.entryDocuments entries)) with
  | some settings => .ok settings
  | none => .error .unreadable

/-! ## Loading -/

/-- What settings are loaded from.  A file is its bytes, if it exists. -/
structure Sources where
  file : Option ByteArray
  /-- The file that the environment names instead. -/
  named : Option (Option ByteArray)
  /-- The placeholder style that the environment asks for. -/
  placeholder : Option String

/-- The settings in a file; without a file they are the standard ones. -/
def ofFile : Option ByteArray → Except SettingsFault Settings
  | none => .ok standard
  | some bytes =>
    match String.fromUTF8? bytes with
    | some text => ofToml text
    | none => .error .unreadable

def load (sources : Sources) : Except SettingsFault Settings := do
  let settings ← ofFile (sources.named.getD sources.file)
  match sources.placeholder with
  | some text => return { settings with placeholder := ← Placeholder.ofText text }
  | none => return settings

end Settings

end JsonbAlgebra
