import JsonbAlgebra.Fault

/-!
# Templates

A template is SQL text with slots for the operands of one operator.  In a
pattern `{1}` stands for the first operand, `{*}` for all of them
with a separator between neighbours, and a doubled brace for a brace.  A
template may have a second pattern for operands that hold a path.
-/

namespace JsonbAlgebra

structure Template where
  pattern : String
  separator : String
  pathPattern : Option String
  deriving DecidableEq, Repr

namespace Template

inductive Piece where
  | text (value : String)
  | operand (index : Nat)
  | allOperands
  deriving DecidableEq, Repr

/-- What is wrong with a pattern, apart from the pattern itself. -/
inductive PatternFault where
  | unclosed
  | invalid (slot : String)
  | unmatched
  deriving DecidableEq, Repr

def PatternFault.inPattern (pattern : String) : PatternFault → TemplateFault
  | .unclosed => .unclosedSlot pattern
  | .invalid slot => .invalidSlot slot pattern
  | .unmatched => .unmatchedBrace pattern

/-- Collected text, held in reverse, as a piece if there is any. -/
def textPiece : List Char → List Piece
  | [] => []
  | taken => [.text (String.ofList taken.reverse)]

/-- The number in a slot, with an optional plus sign. -/
def slotNumber (slot : List Char) : Option Nat :=
  match slot with
  | '+' :: digits => Text.readNatural digits
  | digits => Text.readNatural digits

/-- The piece that a slot stands for.  Operands are numbered from one, by
numbers that an unsigned 64-bit word holds. -/
def slotPiece (slot : List Char) : Except PatternFault Piece :=
  if slot = ['*'] then .ok .allOperands
  else
    match slotNumber slot with
    | some number =>
      if 1 ≤ number ∧ number < 0x10000000000000000 then .ok (.operand (number - 1))
      else .error (.invalid (String.ofList slot))
    | none => .error (.invalid (String.ofList slot))

mutual

/-- The pieces of a pattern from a place outside its slots, where some text
is already collected in reverse. -/
def outside (taken : List Char) : List Char → Except PatternFault (List Piece)
  | '\x7b' :: '\x7b' :: rest => outside ('\x7b' :: taken) rest
  | '\x7d' :: '\x7d' :: rest => outside ('\x7d' :: taken) rest
  | '\x7b' :: rest => inside taken [] rest
  | '\x7d' :: _ => .error .unmatched
  | c :: rest => outside (c :: taken) rest
  | [] => .ok (textPiece taken)

/-- The pieces of a pattern from a place inside a slot, with the text before
the slot and the part of the slot that is read, both in reverse. -/
def inside (taken slot : List Char) : List Char → Except PatternFault (List Piece)
  | '\x7d' :: rest => do
    let piece ← slotPiece slot.reverse
    let pieces ← outside [] rest
    return textPiece taken ++ piece :: pieces
  | c :: rest => inside taken (c :: slot) rest
  | [] => .error .unclosed

end

def parse (pattern : String) : Except TemplateFault (List Piece) :=
  (outside [] pattern.toList).mapError (PatternFault.inPattern pattern)

/-- A template with a comma as separator and no pattern for paths. -/
def ofPattern (pattern : String) : Template :=
  ⟨pattern, ", ", none⟩

def hasPathForm (template : Template) : Bool :=
  template.pathPattern.isSome

/-- The pattern for operands with or without a path. -/
def chosen (template : Template) (path : Bool) : String :=
  if path then template.pathPattern.getD template.pattern else template.pattern

def pieces (template : Template) (path : Bool) : Except TemplateFault (List Piece) :=
  parse (template.chosen path)

/-- The first operand among some pieces that an operator can never have. -/
def beyond? (operator : Operator) (pattern : String) (pieces : List Piece) :
    Option TemplateFault :=
  operator.contract.most.bind fun most =>
    pieces.findSome? fun piece =>
      match piece with
      | .operand index =>
        if most ≤ index then some (.beyondContract pattern (index + 1) operator most)
        else none
      | _ => none

def checkPattern (operator : Operator) (pattern : String) : Except TemplateFault Unit := do
  let pieces ← parse pattern
  match beyond? operator pattern pieces with
  | some fault => throw fault
  | none => return ()

/-- Both patterns can be read and name only operands that the operator can
have. -/
def check (template : Template) (operator : Operator) : Except TemplateFault Unit := do
  checkPattern operator template.pattern
  match template.pathPattern with
  | some pattern => checkPattern operator pattern
  | none => return ()

end Template

end JsonbAlgebra
