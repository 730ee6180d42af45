import VariHist.Decimal.Style
import VariHist.Text.Quoted

/-!
# Tokens of formulas

The words of the formula language and the form in which a parse error shows them.  A minus sign is
a token of its own, since only its place tells whether it negates or subtracts.
-/

namespace VariHist.Formula

/-- A binary operator. -/
inductive Operator where
  | add | sub | mul | div
  | eq | ne | lt | le | gt | ge
  | and | or
  deriving DecidableEq, Repr

/-- How a parse error names an operator. -/
def Operator.text : Operator → String
  | .add => "Add"
  | .sub => "Sub"
  | .mul => "Mul"
  | .div => "Div"
  | .eq => "Eq"
  | .ne => "Ne"
  | .lt => "Lt"
  | .le => "Le"
  | .gt => "Gt"
  | .ge => "Ge"
  | .and => "And"
  | .or => "Or"

/-- A word of a formula. -/
inductive Token where
  | number (value : Float)
  | ident (name : String)
  /-- An operator sign.  The minus of a text is not read as one of these. -/
  | operator (op : Operator)
  | minus
  | bang
  | leftParen
  | rightParen
  | comma
  deriving Repr

/-- How a parse error shows a token. -/
def Token.text : Token → String
  | .number value => "Num(" ++ Decimal.text .token value ++ ")"
  | .ident name => "Ident(" ++ Text.quoted name ++ ")"
  | .operator op => "Op(" ++ op.text ++ ")"
  | .minus => "Minus"
  | .bang => "Bang"
  | .leftParen => "LParen"
  | .rightParen => "RParen"
  | .comma => "Comma"

/-- How a parse error shows what it found: a token, or the end of the formula. -/
def Token.foundText : Option Token → String
  | some token => "Some(" ++ token.text ++ ")"
  | none => "None"

end VariHist.Formula
