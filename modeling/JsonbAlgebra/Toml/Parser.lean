import JsonbAlgebra.Toml.Number
import JsonbAlgebra.Toml.Text

/-!
# Reading TOML

A TOML text is a list of lines: headers, which open tables, and assignments
to keys of the table opened last.  Arrays and inline tables nest less than 80
deep.
-/

namespace JsonbAlgebra.Toml

mutual

/-- One value.  The first number bounds the steps that are left, the second
the nesting. -/
def readValue : Nat → Nat → List Char → Option (Value × List Char)
  | 0, _, _ => none
  | steps + 1, depth, text =>
    match text with
    | '[' :: rest =>
      match depth with
      | 0 => none
      | depth + 1 => do
        let (items, rest) ← readItems steps depth rest
        return (.array items, rest)
    | '\x7b' :: rest =>
      match depth with
      | 0 => none
      | depth + 1 =>
        match skipBlanks rest with
        | '\x7d' :: rest => some (.table [], rest)
        | rest => do
          let (entries, rest) ← readEntries steps depth [] rest
          return (.table (Entries.toValues entries), rest)
    | 't' :: 'r' :: 'u' :: 'e' :: rest => some (.boolean true, rest)
    | 'f' :: 'a' :: 'l' :: 's' :: 'e' :: rest => some (.boolean false, rest)
    | c :: _ =>
      if c = '"' ∨ c = '\'' then
        (readString text).map fun (value, rest) => (.string value, rest)
      else readNumeral text
    | [] => none

/-- The rest of an array behind its opening bracket or a comma. -/
def readItems : Nat → Nat → List Char → Option (List Value × List Char)
  | 0, _, _ => none
  | steps + 1, depth, text =>
    match skipLines text.length text with
    | ']' :: rest => some ([], rest)
    | rest => do
      let (item, rest) ← readValue steps depth rest
      match skipLines rest.length rest with
      | ',' :: rest =>
        let (items, rest) ← readItems steps depth rest
        return (item :: items, rest)
      | ']' :: rest => return ([item], rest)
      | _ => none

/-- The entries of an inline table, at least one more, and the closing
brace. -/
def readEntries : Nat → Nat → Entries → List Char → Option (Entries × List Char)
  | 0, _, _, _ => none
  | steps + 1, depth, entries, text => do
    let (key, rest) ← readKey keyParts text
    let rest ← readMark '=' rest
    let (value, rest) ← readValue steps depth (skipBlanks rest)
    let entries ← Entries.assign key.dropLast (key.getLast?.getD "") value entries
    match skipBlanks rest with
    | ',' :: rest => readEntries steps depth entries rest
    | '\x7d' :: rest => return (entries, rest)
    | _ => none

end

def maxDepth : Nat :=
  79

/-- The tables read so far, and the path of the one opened last. -/
structure Progress where
  entries : Entries
  current : List String

/-- Goes on behind a header with the path of the table that it opens. -/
def Progress.header (progress : Progress)
    (openAt : List String → String → Entries → Option Entries) (path : List String) :
    Option Progress := do
  let entries ← openAt path.dropLast (path.getLast?.getD "") progress.entries
  return ⟨entries, path⟩

def Progress.assign (progress : Progress) (key : List String) (value : Value) :
    Option Progress := do
  let entries ←
    Entries.changeAt .above
      (fun _ entries => Entries.assign key.dropLast (key.getLast?.getD "") value entries)
      progress.current .header progress.entries
  return { progress with entries }

/-- One header or assignment up to the end of its line. -/
def readLine (progress : Progress) (text : List Char) : Option (Progress × List Char) :=
  match text with
  | '[' :: '[' :: rest => do
    let (path, rest) ← readKey keyParts rest
    let rest ← readMark ']' rest
    let rest ← readMark ']' rest
    let rest ← readLineEnd rest
    return (← progress.header Entries.openElement path, rest)
  | '[' :: rest => do
    let (path, rest) ← readKey keyParts rest
    let rest ← readMark ']' rest
    let rest ← readLineEnd rest
    return (← progress.header Entries.openTable path, rest)
  | _ => do
    let (key, rest) ← readKey keyParts text
    let rest ← readMark '=' rest
    let value := skipBlanks rest
    let (value, rest) ← readValue (2 * value.length + 2) maxDepth value
    let rest ← readLineEnd rest
    return (← progress.assign key value, rest)

def readAll : Nat → Progress → List Char → Option Progress
  | 0, _, _ => none
  | steps + 1, progress, text =>
    match skipBlanks text with
    | [] => some progress
    | '#' :: rest => do
      let rest ← readLineEnd ('#' :: rest)
      readAll steps progress rest
    | rest =>
      match readNewline rest with
      | some rest => readAll steps progress rest
      | none => do
        let (progress, rest) ← readLine progress rest
        readAll steps progress rest

/-- The entries of a TOML text; a byte order mark in front is skipped. -/
def parse? (text : String) : Option (List (String × Value)) :=
  let chars :=
    match text.toList with
    | '\uFEFF' :: rest => rest
    | chars => chars
  (readAll (chars.length + 2) ⟨[], []⟩ chars).map fun progress =>
    Entries.toValues progress.entries

end JsonbAlgebra.Toml
