import VariHist.Yaml.Token

/-!
# Scalars of YAML texts

A scalar may go over several lines.  Blanks around a break are dropped; a single break is read as a
blank, and of several breaks all but the first are kept.

The text of a scalar is gathered last character first, so that reading a character takes the same
time wherever it stands.
-/

namespace VariHist.Yaml

/-- What lies between two pieces of text of a scalar; characters are listed last first. -/
inductive Gap where
  /-- Blanks within a line. -/
  | blanks (cs : List Char)
  /-- Breaks: the first one, unless it was escaped, and the others. -/
  | breaks (first : Option Char) (others : List Char)

namespace Gap

/-- Nothing. -/
def none : Gap := .blanks []

/-- Does the gap hold a break? -/
def hasBreak : Gap → Bool
  | .blanks _ => false
  | .breaks .. => true

/-- Is there anything between the pieces? -/
def isNone : Gap → Bool
  | .blanks cs => cs.isEmpty
  | .breaks .. => false

/-- One more blank, which counts only before the first break. -/
def addBlank (c : Char) : Gap → Gap
  | .blanks cs => .blanks (c :: cs)
  | gap => gap

/-- One more break. -/
def addBreak (c : Char) : Gap → Gap
  | .blanks _ => .breaks (some c) []
  | .breaks first others => .breaks first (c :: others)

/-- The text `read`, last character first, with what the gap after it is read as. -/
def after (read : List Char) : Gap → List Char
  | .blanks cs => cs ++ read
  | .breaks .none others => others ++ read
  | .breaks (some '\n') [] => ' ' :: read
  | .breaks (some '\n') others => others ++ read
  | .breaks (some c) others => others ++ c :: read

end Gap

/-- A scalar that was read, and where reading goes on. -/
structure ScalarRead where
  text : String
  /-- Did reading end after a break? -/
  atNewLine : Bool
  position : Position
  rest : List Char

/-- The characters that end a plain scalar within a flow collection. -/
def isFlowSign (c : Char) : Bool :=
  c = ',' || c = '[' || c = ']' || c = '\x7b' || c = '\x7d'

/-- The plain scalar that ends before `gap`. -/
def ScalarRead.plain (read : List Char) (gap : Gap) (p : Position) (rest : List Char) : ScalarRead :=
  ⟨String.ofList read.reverse, gap.hasBreak, p, rest⟩

/-- Reads on in a plain scalar: `read` is what was read so far, last character first, and `gap` what
came after it.  In a block collection the scalar ends where a line is indented less than `indent`. -/
def readPlain (inFlow : Bool) (indent : Int) (read : List Char) (gap : Gap) (p : Position) :
    List Char → Option ScalarRead
  | [] => some (.plain read gap p [])
  | c :: cs =>
    if isBreak c then readPlain inFlow indent read (gap.addBreak c) p.nextLine cs
    else if isBlank c then
      if gap.hasBreak && p.column < indent && c = '\t' then none
      else readPlain inFlow indent read (gap.addBlank c) (p.past c) cs
    else if !gap.isNone &&
        ((!inFlow && p.column < indent) || marksDocument p (c :: cs) || c = '#') then
      some (.plain read gap p (c :: cs))
    else if inFlow && c = ':' && cs.head?.any (fun d => isFlowSign d || d = '?') then none
    else if (c = ':' && endsWord cs) || (inFlow && isFlowSign c) then
      some (.plain read gap p (c :: cs))
    else readPlain inFlow indent (c :: gap.after read) .none (p.past c) cs

/-- The characters of escapes that are written with one letter. -/
def escape? : Char → Option Char
  | '0' => some '\x00'
  | 'a' => some '\x07'
  | 'b' => some '\x08'
  | 't' | '\t' => some '\t'
  | 'n' => some '\n'
  | 'v' => some '\x0b'
  | 'f' => some '\x0c'
  | 'r' => some '\r'
  | 'e' => some '\x1b'
  | ' ' => some ' '
  | '"' => some '"'
  | '/' => some '/'
  | '\\' => some '\\'
  | 'N' => some '\u0085'
  | '_' => some '\u00a0'
  | 'L' => some '\u2028'
  | 'P' => some '\u2029'
  | _ => none

/-- The value of a hexadecimal digit. -/
def hexDigit? (c : Char) : Option Nat :=
  if c.isDigit then some (c.toNat - '0'.toNat)
  else if 'a' ≤ c ∧ c ≤ 'f' then some (c.toNat - 'a'.toNat + 10)
  else if 'A' ≤ c ∧ c ≤ 'F' then some (c.toNat - 'A'.toNat + 10)
  else none

/-- The character of a code number in hexadecimal digits. -/
def hexChar? (ds : List Char) : Option Char := do
  let n ← ds.foldlM (fun n c => (hexDigit? c).map (16 * n + ·)) 0
  if (0xD800 ≤ n && n ≤ 0xDFFF) || 0x10FFFF < n then none else some (Char.ofNat n)

/-- Reads on in a scalar between quotes: `read` is what was read so far, last character first, and
`gap` what came after it. -/
def readQuoted (quote : Char) (read : List Char) (gap : Gap) (p : Position) :
    List Char → Option ScalarRead
  | [] => none
  | c :: cs =>
    let before := gap.after read
    if marksDocument p (c :: cs) then none
    else if isBreak c then readQuoted quote read (gap.addBreak c) p.nextLine cs
    else if isBlank c then readQuoted quote read (gap.addBlank c) (p.past c) cs
    else if c = '\'' && quote = '\'' then
      match cs with
      | '\'' :: cs => readQuoted quote ('\'' :: before) .none (p.along 2) cs
      | cs => some ⟨String.ofList before.reverse, false, p.along 1, cs⟩
    else if c = '"' && quote = '"' then some ⟨String.ofList before.reverse, false, p.along 1, cs⟩
    else if c = '\\' && quote = '"' then
      match cs with
      | 'x' :: a :: b :: cs =>
        match hexChar? [a, b] with
        | some d => readQuoted quote (d :: before) .none (p.along 4) cs
        | none => none
      | 'u' :: a :: b :: e :: f :: cs =>
        match hexChar? [a, b, e, f] with
        | some d => readQuoted quote (d :: before) .none (p.along 6) cs
        | none => none
      | 'U' :: a :: b :: e :: f :: g :: h :: i :: j :: cs =>
        match hexChar? [a, b, e, f, g, h, i, j] with
        | some d => readQuoted quote (d :: before) .none (p.along 10) cs
        | none => none
      | d :: cs =>
        if isBreak d then readQuoted quote before (.breaks none []) (p.along 1).nextLine cs
        else match escape? d with
          | some d => readQuoted quote (d :: before) .none (p.along 2) cs
          | none => none
      | [] => none
    else readQuoted quote (c :: before) .none (p.past c) cs

end VariHist.Yaml
