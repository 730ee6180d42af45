import VariHist.Decimal.Reader
import VariHist.Formula.Fault

/-!
# From text to tokens

Tokens are separated by ASCII white space where they would run together otherwise.  Two-character
operators are taken before one-character ones.  A number extends over digits, points, exponent
marks and a sign right after an exponent mark, and has to be a decimal as a whole.  All letters are
ASCII: a formula that holds any other character is refused.
-/

namespace VariHist.Formula

/-- ASCII white space: space, tab, line feed, form feed and carriage return. -/
def isSpace (c : Char) : Bool :=
  c = ' ' || c = '\t' || c = '\n' || c = '\x0c' || c = '\r'

/-- The operators written with two characters. -/
def pairOperator? : Char → Char → Option Operator
  | '&', '&' => some .and
  | '|', '|' => some .or
  | '=', '=' => some .eq
  | '!', '=' => some .ne
  | '<', '=' => some .le
  | '>', '=' => some .ge
  | _, _ => none

/-- The tokens written with one character. -/
def signToken? : Char → Option Token
  | '+' => some (.operator .add)
  | '-' => some .minus
  | '*' => some (.operator .mul)
  | '/' => some (.operator .div)
  | '<' => some (.operator .lt)
  | '>' => some (.operator .gt)
  | '!' => some .bang
  | '(' => some .leftParen
  | ')' => some .rightParen
  | ',' => some .comma
  | _ => none

/-- Does a number begin with this character? -/
def startsNumber (c : Char) : Bool :=
  c.isDigit || c = '.'

/-- Does a number go on with this character, after `previous`? -/
def continuesNumber (previous c : Char) : Bool :=
  c.isDigit || c = '.' || c = 'e' || c = 'E' ||
    ((c = '+' || c = '-') && (previous = 'e' || previous = 'E'))

/-- Does a name begin with this character? -/
def startsName (c : Char) : Bool :=
  c.isAlpha || c = '_'

/-- Does a name go on with this character? -/
def continuesName (c : Char) : Bool :=
  c.isAlphanum || c = '_'

/-- The part of the text that belongs to a number whose last character is `previous`, and the rest. -/
def spanNumber (previous : Char) : List Char → List Char × List Char
  | [] => ([], [])
  | c :: cs =>
    if continuesNumber previous c then
      let (lexeme, rest) := spanNumber c cs
      (c :: lexeme, rest)
    else ([], c :: cs)

theorem spanNumber_rest_length (previous : Char) (cs : List Char) :
    (spanNumber previous cs).2.length ≤ cs.length := by
  induction cs generalizing previous with
  | nil => simp [spanNumber]
  | cons c cs ih =>
    unfold spanNumber
    split
    · exact Nat.le_succ_of_le (ih c)
    · simp

theorem length_dropWhile_le (p : Char → Bool) (cs : List Char) :
    (cs.dropWhile p).length ≤ cs.length :=
  (List.dropWhile_sublist p).length_le

/-- The first byte of the character in UTF-8, taken as a character.  A fault shows this in place of
a character that no token begins with. -/
def leadByte (c : Char) : Char :=
  let n := c.toNat
  if n < 0x80 then c
  else if n < 0x800 then Char.ofNat (0xC0 + n / 0x40)
  else if n < 0x10000 then Char.ofNat (0xE0 + n / 0x1000)
  else Char.ofNat (0xF0 + n / 0x40000)

/-- The token that begins with `c`, which is no white space, and the text after it. -/
def nextToken (source : String) (c : Char) (cs : List Char) :
    Except Fault (Token × { rest : List Char // rest.length ≤ cs.length }) :=
  match (cs.head?.bind (pairOperator? c)) with
  | some op => .ok (.operator op, ⟨cs.tail, by simp⟩)
  | none =>
    match signToken? c with
    | some token => .ok (token, ⟨cs, Nat.le_refl _⟩)
    | none =>
      if startsNumber c then
        let lexeme := c :: (spanNumber c cs).1
        match Decimal.readFloat? lexeme with
        | some value => .ok (.number value, ⟨(spanNumber c cs).2, spanNumber_rest_length c cs⟩)
        | none => .error (.badNumber (String.ofList lexeme))
      else if startsName c then
        .ok (.ident (String.ofList (c :: cs.takeWhile continuesName)),
          ⟨cs.dropWhile continuesName, length_dropWhile_le _ cs⟩)
      else .error (.badCharacter (leadByte c) source)

/-- The tokens of a text; `source` is the whole formula, for the fault. -/
def scan (source : String) : List Char → Except Fault (List Token)
  | [] => .ok []
  | c :: cs =>
    if isSpace c then scan source cs
    else do
      let (token, rest) ← nextToken source c cs
      return token :: (← scan source rest.1)
termination_by cs => cs.length
decreasing_by
  · simp
  · have := rest.2; simp only [List.length_cons]; omega

/-- The tokens of a formula. -/
def tokenize (source : String) : Except Fault (List Token) :=
  scan source source.toList

end VariHist.Formula
