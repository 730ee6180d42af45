/-!
# Tokens of YAML texts

The part of YAML that analysis descriptions use: block and flow collections, plain and quoted
scalars, comments, and the line that tells the version.  Anchors, tags and block scalars are not part
of it.  A text is read as a list of characters in which every line ends with one break; block
structure, which the text shows by indentation, becomes tokens of its own.
-/

namespace VariHist.Yaml

/-- A token. -/
inductive Token where
  /-- The version of YAML that a document is written in. -/
  | version (major minor : Nat)
  | documentStart
  | documentEnd
  | blockSequence
  | blockMapping
  /-- The end of the innermost block collection. -/
  | blockEnd
  | flowSequence
  | flowSequenceEnd
  | flowMapping
  | flowMappingEnd
  /-- The dash before an element of a block sequence. -/
  | entry
  /-- The comma between the elements of a flow collection. -/
  | flowEntry
  | key
  | value
  /-- A scalar; `plain` tells that it stands without quotes. -/
  | scalar (text : String) (plain : Bool)
  deriving DecidableEq, Repr

/-- A place in a text. -/
structure Position where
  /-- The number of bytes before the place. -/
  index : Nat
  /-- The number of breaks before the place. -/
  line : Nat
  /-- The number of characters before the place in its line. -/
  column : Nat
  deriving Repr

namespace Position

/-- The first place of a text. -/
def start : Position := ⟨0, 0, 0⟩

/-- The place after a character of the same line. -/
def past (p : Position) (c : Char) : Position :=
  ⟨p.index + c.utf8Size, p.line, p.column + 1⟩

/-- The place `n` ASCII characters on in the same line. -/
def along (p : Position) (n : Nat) : Position :=
  ⟨p.index + n, p.line, p.column + n⟩

/-- The place after a break. -/
def nextLine (p : Position) : Position :=
  ⟨p.index + 1, p.line + 1, 0⟩

end Position

/-- Does the character end a line? -/
def isBreak (c : Char) : Bool :=
  c = '\n' || c = '\u2028' || c = '\u2029'

/-- Is the character a blank within a line? -/
def isBlank (c : Char) : Bool :=
  c = ' ' || c = '\t'

/-- Does the text end, or go on with a blank or a break? -/
def endsWord : List Char → Bool
  | [] => true
  | c :: _ => isBlank c || isBreak c

/-- Is this a line that marks the start or the end of a document, seen from its beginning? -/
def isDocumentMark (mark : Char) : List Char → Bool
  | a :: b :: c :: rest => a = mark && b = mark && c = mark && endsWord rest
  | _ => false

/-- Is this a line that marks a document? -/
def marksDocument (p : Position) (cs : List Char) : Bool :=
  p.column = 0 && (isDocumentMark '-' cs || isDocumentMark '.' cs)

/-- May the character stand in a text at all? -/
def isPrintable (c : Char) : Bool :=
  let n := c.toNat
  n = 0x09 || n = 0x0A || n = 0x0D || (0x20 ≤ n && n ≤ 0x7E) || n = 0x85 ||
    (0xA0 ≤ n && n ≤ 0xFFFD) || 0x10000 ≤ n

/-- One break at the end of each line: a carriage return, alone or before a line feed, and the
next-line character are breaks too. -/
def unifyBreaks : List Char → List Char
  | '\r' :: '\n' :: cs => '\n' :: unifyBreaks cs
  | '\r' :: cs => '\n' :: unifyBreaks cs
  | '\u0085' :: cs => '\n' :: unifyBreaks cs
  | c :: cs => c :: unifyBreaks cs
  | [] => []

/-- The characters of a text, if all of them are printable. -/
def characters? (source : String) : Option (List Char) :=
  if source.toList.all isPrintable then some (unifyBreaks source.toList) else none

end VariHist.Yaml
