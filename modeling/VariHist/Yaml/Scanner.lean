import VariHist.Decimal.Reader
import VariHist.Yaml.Scalar

/-!
# From YAML texts to tokens

A scanner walks through the text once.  Indentation is kept on a stack: a deeper line opens a block
collection, a shallower one closes the collections that are deeper.  Whether a scalar or a flow
collection is a key is known only when a colon follows it, so the scanner remembers, on each level
of flow collections, the last place where a key may have begun, and puts the key token there
afterwards.  Such a key has to lie on one line and must not be too long.
-/

namespace VariHist.Yaml

/-- A place where a key may have begun. -/
structure KeyPlace where
  /-- Must there be a key, because the line can be nothing else? -/
  required : Bool
  /-- The number of tokens before it. -/
  token : Nat
  position : Position

/-- A scanner at some place of a text. -/
structure Scanner where
  rest : List Char
  position : Position
  tokens : Array Token
  /-- The indentation of the innermost block collection; `-1` outside of all. -/
  indent : Int
  /-- The indentations of the enclosing block collections, innermost first. -/
  outer : List Int
  /-- The place where a key may have begun on the level at hand. -/
  keyPlace : Option KeyPlace
  /-- The same on the enclosing levels, one for each open flow collection. -/
  outerKeys : List (Option KeyPlace)
  /-- May a key begin here? -/
  keyAllowed : Bool

namespace Scanner

/-- A scanner at the beginning of a text. -/
def start (cs : List Char) : Scanner :=
  ⟨cs, .start, #[], -1, [], none, [], true⟩

/-- Is the scanner within a flow collection? -/
def inFlow (s : Scanner) : Bool :=
  !s.outerKeys.isEmpty

/-- Skips blanks, comments and breaks, and a byte order mark at the beginning of a line, which counts
as a column.  Where a key may begin, a tab is no blank. -/
def skip (inFlow : Bool) (keyAllowed inComment : Bool) (p : Position) :
    List Char → Bool × Position × List Char
  | [] => (keyAllowed, p, [])
  | c :: cs =>
    if isBreak c then skip inFlow (keyAllowed || !inFlow) false p.nextLine cs
    else if inComment || c = ' ' || (c = '\ufeff' && p.column = 0) ||
        (c = '\t' && (inFlow || !keyAllowed)) then
      skip inFlow keyAllowed inComment (p.past c) cs
    else if c = '#' then skip inFlow keyAllowed true (p.past c) cs
    else (keyAllowed, p, c :: cs)

/-- Goes on to the next token. -/
def toToken (s : Scanner) : Scanner :=
  let (keyAllowed, position, rest) := skip s.inFlow s.keyAllowed false s.position s.rest
  { s with keyAllowed, position, rest }

/-- Closes the block collections that are indented more than a column. -/
def closeDeeper (column : Int) (indent : Int) (outer : List Int) (tokens : Array Token) :
    Int × List Int × Array Token :=
  match outer with
  | [] => (indent, [], tokens)
  | next :: outer' =>
    if column < indent then closeDeeper column next outer' (tokens.push .blockEnd)
    else (indent, outer, tokens)

/-- Closes the block collections that end before a column. -/
def unroll (s : Scanner) (column : Int) : Scanner :=
  if s.inFlow then s
  else
    let (indent, outer, tokens) := closeDeeper column s.indent s.outer s.tokens
    { s with indent, outer, tokens }

/-- Opens a block collection at a column, if the column is deeper than the innermost one; its token
is put before the token of the given number. -/
def roll (s : Scanner) (column : Int) (index : Nat) (token : Token) : Scanner :=
  if s.inFlow || column ≤ s.indent then s
  else
    { s with
      outer := s.indent :: s.outer
      indent := column
      tokens := s.tokens.insertIdxIfInBounds index token }

/-- Gives up the place where a key may have begun; fails if there must be a key. -/
def dropKey (s : Scanner) : Option Scanner :=
  match s.keyPlace with
  | some k => if k.required then none else some { s with keyPlace := none }
  | none => some s

/-- Notes that a key may begin here, if it may. -/
def noteKey (s : Scanner) : Option Scanner :=
  if s.keyAllowed then
    s.dropKey.map fun s =>
      let required := !s.inFlow && s.indent = s.position.column
      { s with keyPlace := some ⟨required, s.tokens.size, s.position⟩ }
  else some s

/-- Takes `n` ASCII characters for a token. -/
def take (s : Scanner) (n : Nat) (token : Token) : Scanner :=
  { s with
    rest := s.rest.drop n
    position := s.position.along n
    tokens := s.tokens.push token }

/-- A token that marks the start or the end of a document. -/
def documentMark (s : Scanner) (token : Token) : Option Scanner := do
  let s ← (s.unroll (-1)).dropKey
  return { s with keyAllowed := false }.take 3 token

/-- A number of one to nine digits, and what comes after it. -/
def versionNumber? (cs : List Char) : Option (Nat × List Char) :=
  let ds := cs.takeWhile Char.isDigit
  if ds.isEmpty || 9 < ds.length then none
  else some (Decimal.natOfDigits ds, cs.dropWhile Char.isDigit)

/-- The line that tells the version, after the percent sign: a word, two numbers with a point between
them, and nothing else but a comment. -/
def versionLine? (line : List Char) : Option Token :=
  match line with
  | 'Y' :: 'A' :: 'M' :: 'L' :: cs => do
    if !endsWord cs then none
    let (major, cs) ← versionNumber? (cs.dropWhile isBlank)
    let (minor, cs) ← match cs with
      | '.' :: cs => versionNumber? cs
      | _ => none
    match cs.dropWhile isBlank with
    | [] | '#' :: _ => return .version major minor
    | _ => none
  | _ => none

/-- The line that tells the version.  It is taken with its break, so that no key may begin at the
beginning of the next line. -/
def versionMark (s : Scanner) : Option Scanner := do
  let line := s.rest.takeWhile fun c => !isBreak c
  let token ← versionLine? (line.drop 1)
  let s ← (s.unroll (-1)).dropKey
  return { s with
    rest := s.rest.drop (line.length + 1)
    position := (line.foldl Position.past s.position).nextLine
    tokens := s.tokens.push token
    keyAllowed := false }

/-- The opening bracket of a flow collection. -/
def openFlow (s : Scanner) (token : Token) : Option Scanner := do
  let s ← s.noteKey
  return { s with
    outerKeys := s.keyPlace :: s.outerKeys
    keyPlace := none
    keyAllowed := true }.take 1 token

/-- The closing bracket of a flow collection. -/
def closeFlow (s : Scanner) (token : Token) : Option Scanner := do
  let s ← s.dropKey
  let s := match s.outerKeys with
    | [] => s
    | k :: outerKeys => { s with keyPlace := k, outerKeys }
  return { s with keyAllowed := false }.take 1 token

/-- The comma between the elements of a flow collection. -/
def flowEntry (s : Scanner) : Option Scanner := do
  let s ← s.dropKey
  return { s with keyAllowed := true }.take 1 .flowEntry

/-- The dash before an element of a block sequence. -/
def entry (s : Scanner) : Option Scanner := do
  if !s.inFlow && !s.keyAllowed then none
  let s ← (s.roll s.position.column s.tokens.size .blockSequence).dropKey
  return { s with keyAllowed := true }.take 1 .entry

/-- The question mark before a key. -/
def explicitKey (s : Scanner) : Option Scanner := do
  if !s.inFlow && !s.keyAllowed then none
  let s ← (s.roll s.position.column s.tokens.size .blockMapping).dropKey
  return { s with keyAllowed := !s.inFlow }.take 1 .key

/-- The most bytes that may lie between the beginning of a key and the colon after it. -/
def maxKeyBytes : Nat := 1024

/-- The place where the key before a colon began, if it is on the same line and not too long.  Fails
if there must be a key and it is not. -/
def keyBefore (s : Scanner) : Option (Option KeyPlace) :=
  match s.keyPlace with
  | none => some none
  | some k =>
    if k.position.line < s.position.line || k.position.index + maxKeyBytes < s.position.index then
      if k.required then none else some none
    else some (some k)

/-- The colon before a value. -/
def value (s : Scanner) : Option Scanner := do
  match ← s.keyBefore with
  | some k =>
    let s := { s with tokens := s.tokens.insertIdxIfInBounds k.token .key, keyPlace := none }
    let s := s.roll k.position.column k.token .blockMapping
    return { s with keyAllowed := false }.take 1 .value
  | none =>
    if !s.inFlow && !s.keyAllowed then none
    let s := { s with keyPlace := none }.roll s.position.column s.tokens.size .blockMapping
    return { s with keyAllowed := !s.inFlow }.take 1 .value

/-- A scalar. -/
def scalar (s : Scanner) (plain : Bool) (read : Option ScalarRead) : Option Scanner := do
  let s ← s.noteKey
  let r ← read
  return { s with
    rest := r.rest
    position := r.position
    tokens := s.tokens.push (.scalar r.text plain)
    keyAllowed := r.atNewLine }

/-- May a plain scalar begin with this character? -/
def startsPlain (inFlow : Bool) (c : Char) (cs : List Char) : Bool :=
  if c = '-' then !cs.head?.any isBlank
  else if c = '?' || c = ':' then !inFlow && !endsWord cs
  else !("-?:,[]\x7b\x7d#&*!|>'\"%@`".toList.contains c || isBlank c || isBreak c)

/-- The next token. -/
def next (s : Scanner) (c : Char) (cs : List Char) : Option Scanner :=
  if c = '%' && s.position.column = 0 then s.versionMark
  else if marksDocument s.position (c :: cs) then
    s.documentMark (if c = '-' then .documentStart else .documentEnd)
  else if c = '[' then s.openFlow .flowSequence
  else if c = '\x7b' then s.openFlow .flowMapping
  else if c = ']' then s.closeFlow .flowSequenceEnd
  else if c = '\x7d' then s.closeFlow .flowMappingEnd
  else if c = ',' then s.flowEntry
  else if c = '-' && endsWord cs then s.entry
  else if c = '?' && (s.inFlow || endsWord cs) then s.explicitKey
  else if c = ':' && (s.inFlow || endsWord cs) then s.value
  else if c = '\'' || c = '"' then
    s.scalar false (readQuoted c [] .none (s.position.along 1) cs)
  else if startsPlain s.inFlow c cs then
    s.scalar true (readPlain s.inFlow (s.indent + 1) [] .none s.position (c :: cs))
  else none

/-- Scans at most `fuel` tokens.  At the end of the text all block collections are closed. -/
def run : Nat → Scanner → Option (List Token)
  | 0, _ => none
  | fuel + 1, s =>
    let s := s.toToken
    match s.rest with
    | [] => (s.unroll (-1)).dropKey.map fun s => s.tokens.toList
    | c :: cs => (s.unroll s.position.column).next c cs |>.bind (run fuel)

end Scanner

/-- The tokens of a text.  Every token takes a character at least, so there are no more tokens to
scan than characters. -/
def tokenize (source : String) : Option (List Token) := do
  let cs ← characters? source
  Scanner.run (cs.length + 1) (.start cs)

end VariHist.Yaml
