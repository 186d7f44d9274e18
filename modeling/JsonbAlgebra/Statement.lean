import JsonbAlgebra.Dialect
import JsonbAlgebra.Expr.Basic

/-!
# Statements

A statement is SQL text with its parameters in the order of their marks.  It
is drafted first, as a list of texts and parameters in which the operands of
an operator are spliced into its template, and the marks are written when the
draft is finished, so their numbers follow the order of the text.
-/

namespace JsonbAlgebra

structure Statement where
  sql : String
  parameters : List Constant

def Statement.slots (statement : Statement) : Nat :=
  statement.parameters.foldr (fun constant count => constant.slots + count) 0

inductive Part where
  | sql (text : String)
  | parameter (constant : Constant)

abbrev Draft :=
  List Part

namespace Draft

/-- The marks of a constant whose first position is given.  The marks of a
value list stand in brackets. -/
def marks (style : Placeholder) (position : Nat) (constant : Constant) : String :=
  match constant.literal with
  | .list values =>
    "(" ++ ", ".intercalate ((List.range' position values.length).map style.mark) ++ ")"
  | _ => style.mark position

/-- The text of a draft, with marks from a position on. -/
def textFrom (style : Placeholder) : Nat → Draft → String
  | _, [] => ""
  | position, .sql text :: rest => text ++ textFrom style position rest
  | position, .parameter constant :: rest =>
    marks style position constant ++ textFrom style (position + constant.slots) rest

def parameters (draft : Draft) : List Constant :=
  draft.filterMap fun part =>
    match part with
    | .sql _ => none
    | .parameter constant => some constant

def finish (style : Placeholder) (draft : Draft) : Statement :=
  ⟨textFrom style 1 draft, parameters draft⟩

def separate (separator : String) : List Draft → Draft
  | [] => []
  | [draft] => draft
  | draft :: drafts => draft ++ .sql separator :: separate separator drafts

end Draft

namespace Template

/-- What one piece of a template becomes over some operands. -/
def fillPiece (template : Template) (operator : Operator) (operands : List Draft) :
    Piece → Except TemplateFault Draft
  | .text value => .ok [.sql value]
  | .operand index =>
    match operands[index]? with
    | some draft => .ok draft
    | none =>
      .error (.beyondOperands template.pattern (index + 1) operator operands.length)
  | .allOperands => .ok (Draft.separate template.separator operands)

def fill (template : Template) (operator : Operator) (path : Bool)
    (operands : List Draft) : Except TemplateFault Draft := do
  let pieces ← template.pieces path
  let drafts ← pieces.mapM (template.fillPiece operator operands)
  return drafts.flatten

end Template

namespace Dialect

def takesPath (operands : List Expr) : Bool :=
  (operands[1]?.map Expr.tag) == some .textArray

mutual

def draft (dialect : Dialect) : Expr → Except TemplateFault Draft
  | .column ref => .ok [.sql (Identifier.qualified ref.identifiers)]
  | .constant constant => .ok [.parameter constant]
  | .operation operator operands => do
    let drafts ← draftAll dialect operands
    (dialect.template operator).fill operator (takesPath operands) drafts

def draftAll (dialect : Dialect) : List Expr → Except TemplateFault (List Draft)
  | [] => .ok []
  | operand :: operands => do
    let first ← draft dialect operand
    let others ← draftAll dialect operands
    return first :: others

end

def compile (dialect : Dialect) (style : Placeholder) (e : Expr) :
    Except TemplateFault Statement :=
  (dialect.draft e).map (Draft.finish style)

end Dialect

end JsonbAlgebra
