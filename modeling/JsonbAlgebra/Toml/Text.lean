import JsonbAlgebra.Document.Parser

/-!
# Blanks, keys and quoted text in TOML

Readers of what a TOML line is made of, apart from numbers.  Each takes
something off the front of a text and leaves the rest.
-/

namespace JsonbAlgebra.Toml

def isBlank (c : Char) : Bool :=
  c == ' ' || c == '\t'

/-- Whether a character may stand in a line: no control character but the
tab. -/
def isPrintable (c : Char) : Bool :=
  c == '\t' || (0x20 ≤ c.toNat && c.toNat ≠ 0x7F)

def skipBlanks (text : List Char) : List Char :=
  text.dropWhile isBlank

/-- A line feed, alone or behind a carriage return. -/
def readNewline : List Char → Option (List Char)
  | '\n' :: rest => some rest
  | '\r' :: '\n' :: rest => some rest
  | _ => none

/-- A comment up to the end of its line, if there is one. -/
def skipComment : List Char → List Char
  | '#' :: rest => rest.dropWhile isPrintable
  | text => text

/-- Blanks and a comment, and then the end of the line or of the text. -/
def readLineEnd (text : List Char) : Option (List Char) :=
  match skipComment (skipBlanks text) with
  | [] => some []
  | rest => readNewline rest

/-- Blanks, comments and line ends, as many as there are.  The number bounds
the steps. -/
def skipLines : Nat → List Char → List Char
  | 0, text => text
  | steps + 1, text =>
    match skipBlanks text with
    | '#' :: rest =>
      match readNewline (rest.dropWhile isPrintable) with
      | some rest => skipLines steps rest
      | none => '#' :: rest
    | rest =>
      match readNewline rest with
      | some rest => skipLines steps rest
      | none => rest

/-- The characters that one letter after a backslash stands for. -/
def shortEscape? : Char → Option Char
  | '"' => some '"'
  | '\\' => some '\\'
  | 'b' => some '\x08'
  | 'f' => some '\x0c'
  | 'n' => some '\n'
  | 'r' => some '\r'
  | 't' => some '\t'
  | _ => none

/-- What stands behind a backslash: a letter, or the number of a character in
four or eight hexadecimal digits. -/
def readEscape : List Char → Option (Char × List Char)
  | 'u' :: a :: b :: c :: d :: rest => do
    let code ← Document.hexNumber? [a, b, c, d]
    return (← Document.scalar? code, rest)
  | 'U' :: a :: b :: c :: d :: e :: f :: g :: h :: rest => do
    let code ← Document.hexNumber? [a, b, c, d, e, f, g, h]
    return (← Document.scalar? code, rest)
  | letter :: rest => do return (← shortEscape? letter, rest)
  | [] => none

def readBasic : Nat → List Char → List Char → Option (String × List Char)
  | 0, _, _ => none
  | steps + 1, taken, text =>
    match text with
    | '"' :: rest => some (String.ofList taken.reverse, rest)
    | '\\' :: rest => do
      let (c, rest) ← readEscape rest
      readBasic steps (c :: taken) rest
    | c :: rest => if isPrintable c then readBasic steps (c :: taken) rest else none
    | [] => none

/-- The rest of a text between single quotes, in which nothing is escaped. -/
def readLiteral (text : List Char) : Option (String × List Char) :=
  let value := text.takeWhile fun c => isPrintable c && c != '\''
  match text.drop value.length with
  | '\'' :: rest => some (String.ofList value, rest)
  | _ => none

/-- One or two quotes that stand right behind the three that close a text
belong to the text. -/
def closeLines (mark : Char) (taken : List Char) : List Char → String × List Char
  | a :: b :: rest =>
    if a = mark ∧ b = mark then (String.ofList (mark :: mark :: taken).reverse, rest)
    else if a = mark then (String.ofList (mark :: taken).reverse, b :: rest)
    else (String.ofList taken.reverse, a :: b :: rest)
  | [a] =>
    if a = mark then (String.ofList (mark :: taken).reverse, [])
    else (String.ofList taken.reverse, [a])
  | [] => (String.ofList taken.reverse, [])

def skipSpace : Nat → List Char → List Char
  | 0, text => text
  | steps + 1, text =>
    match readNewline (skipBlanks text) with
    | some rest => skipSpace steps rest
    | none => skipBlanks text

/-- The rest of a text of several lines between threefold double quotes.  A
backslash at the end of a line takes the line end and the blanks behind it
away. -/
def readBasicLines : Nat → List Char → List Char → Option (String × List Char)
  | 0, _, _ => none
  | steps + 1, taken, text =>
    match text with
    | '"' :: '"' :: '"' :: rest => some (closeLines '"' taken rest)
    | '\\' :: rest =>
      match readNewline (skipBlanks rest) with
      | some rest => readBasicLines steps taken (skipSpace steps rest)
      | none => do
        let (c, rest) ← readEscape rest
        readBasicLines steps (c :: taken) rest
    | c :: rest =>
      if isPrintable c then readBasicLines steps (c :: taken) rest
      else do
        let rest ← readNewline (c :: rest)
        readBasicLines steps ('\n' :: taken) rest
    | [] => none

/-- The rest of a text of several lines between threefold single quotes. -/
def readLiteralLines : Nat → List Char → List Char → Option (String × List Char)
  | 0, _, _ => none
  | steps + 1, taken, text =>
    match text with
    | '\'' :: '\'' :: '\'' :: rest => some (closeLines '\'' taken rest)
    | c :: rest =>
      if isPrintable c then readLiteralLines steps (c :: taken) rest
      else do
        let rest ← readNewline (c :: rest)
        readLiteralLines steps ('\n' :: taken) rest
    | [] => none

/-- A line end right behind the opening quotes does not count. -/
def skipFirstNewline (text : List Char) : List Char :=
  (readNewline text).getD text

/-- A quoted text of any of the four forms. -/
def readString (text : List Char) : Option (String × List Char) :=
  match text with
  | '"' :: '"' :: '"' :: rest => readBasicLines (rest.length + 1) [] (skipFirstNewline rest)
  | '"' :: rest => readBasic (rest.length + 1) [] rest
  | '\'' :: '\'' :: '\'' :: rest =>
    readLiteralLines (rest.length + 1) [] (skipFirstNewline rest)
  | '\'' :: rest => readLiteral rest
  | _ => none

def isBare (c : Char) : Bool :=
  c.isAlphanum || c == '-' || c == '_'

/-- One part of a key: bare, or between quotes of either kind. -/
def readKeyPart (text : List Char) : Option (String × List Char) :=
  match text with
  | '"' :: rest => readBasic (rest.length + 1) [] rest
  | '\'' :: rest => readLiteral rest
  | _ =>
    match text.takeWhile isBare with
    | [] => none
    | name => some (String.ofList name, text.dropWhile isBare)

/-- The parts of a key with points between them, and blanks around each.  The
number bounds the parts. -/
def readKey : Nat → List Char → Option (List String × List Char)
  | 0, _ => none
  | parts + 1, text => do
    let (part, rest) ← readKeyPart (skipBlanks text)
    match skipBlanks rest with
    | '.' :: rest =>
      let (others, rest) ← readKey parts rest
      return (part :: others, rest)
    | rest => return ([part], rest)

/-- The greatest number of parts that a key may have. -/
def keyParts : Nat :=
  79

end JsonbAlgebra.Toml
