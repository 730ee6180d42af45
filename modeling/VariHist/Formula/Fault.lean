import VariHist.Formula.Token

/-!
# Faults of formulas

Why a text is not a formula.
-/

namespace VariHist.Formula

/-- Why a text is not a formula. -/
inductive Fault where
  /-- The text begins like a number and is none. -/
  | badNumber (text : String)
  /-- No token begins with this character. -/
  | badCharacter (character : Char) (source : String)
  /-- Something else stands where this token has to be. -/
  | expected (wanted : Token) (found : Option Token)
  /-- Something else stands where a number, a column, a call or a parenthesis has to be. -/
  | expectedOperand (found : Option Token)
  | unknownFunction (name : String)
  /-- The function is given another number of arguments than it takes. -/
  | arity (name : String) (takes given : Nat)
  /-- A formula is complete before the text ends. -/
  | leftover (source : String) (token : Token)

/-- The text of a fault. -/
def Fault.message : Fault → String
  | .badNumber text => s!"invalid number: '{text}'"
  | .badCharacter character source => s!"unexpected character '{character}' in '{source}'"
  | .expected wanted found => s!"expected {wanted.text}, got {Token.foundText found}"
  | .expectedOperand found => s!"expected number, column, or '(', got {Token.foundText found}"
  | .unknownFunction name => s!"unknown function: '{name}'"
  | .arity name takes given => s!"{name}() takes {takes} argument(s), got {given}"
  | .leftover source token => s!"unexpected token after expression in '{source}': {token.text}"

end VariHist.Formula
