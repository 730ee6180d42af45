import VariHist.Yaml.Scanner

/-!
# Nodes of YAML texts

A text holds one node: a scalar, a sequence of nodes, or a mapping from nodes to nodes.  Where a
node may be left out, an empty plain scalar stands for it.
-/

namespace VariHist.Yaml

/-- A value of a YAML text. -/
inductive Node where
  | scalar (text : String) (plain : Bool)
  | sequence (items : List Node)
  | mapping (entries : List (Node × Node))

namespace Node

/-- What stands for a node that is left out. -/
def omitted : Node := .scalar "" true

/-- The tokens after the comma before an element of a flow collection; the first one has none. -/
def afterComma (first : Bool) (tokens : List Token) : Option (List Token) :=
  if first then some tokens
  else match tokens with
    | .flowEntry :: rest => some rest
    | _ => none

/-- Is the token at the head of the list one of these? -/
def headIn (wanted : List Token) (tokens : List Token) : Bool :=
  tokens.head?.any wanted.contains

mutual

/-- A node; `block` tells whether it may be a block collection, and `indentless` whether it may be
a block sequence that is not indented. -/
def read (fuel : Nat) (block indentless : Bool) (tokens : List Token) :
    Option (Node × List Token) :=
  match fuel with
  | 0 => none
  | fuel + 1 =>
    match tokens with
    | .scalar text plain :: rest => some (.scalar text plain, rest)
    | .flowSequence :: rest =>
      (readFlowItems fuel true rest).map fun (items, rest) => (.sequence items, rest)
    | .flowMapping :: rest =>
      (readFlowEntries fuel true rest).map fun (entries, rest) => (.mapping entries, rest)
    | .entry :: rest =>
      if indentless then
        (readIndentless fuel (.entry :: rest)).map fun (items, rest) => (.sequence items, rest)
      else none
    | .blockSequence :: rest =>
      if block then (readItems fuel rest).map fun (items, rest) => (.sequence items, rest)
      else none
    | .blockMapping :: rest =>
      if block then (readEntries fuel rest).map fun (entries, rest) => (.mapping entries, rest)
      else none
    | _ => none

/-- A node, or nothing if one of the given tokens comes first. -/
def readUnless (fuel : Nat) (ends : List Token) (block indentless : Bool) (tokens : List Token) :
    Option (Node × List Token) :=
  match fuel with
  | 0 => none
  | fuel + 1 =>
    if headIn ends tokens then some (omitted, tokens) else read fuel block indentless tokens

/-- The elements of a block sequence. -/
def readItems (fuel : Nat) (tokens : List Token) : Option (List Node × List Token) :=
  match fuel with
  | 0 => none
  | fuel + 1 =>
    match tokens with
    | .entry :: rest => do
      let (item, rest) ← readUnless fuel [.entry, .blockEnd] true false rest
      let (items, rest) ← readItems fuel rest
      return (item :: items, rest)
    | .blockEnd :: rest => some ([], rest)
    | _ => none

/-- The elements of a block sequence that is not indented.  It ends before any other token. -/
def readIndentless (fuel : Nat) (tokens : List Token) : Option (List Node × List Token) :=
  match fuel with
  | 0 => none
  | fuel + 1 =>
    match tokens with
    | .entry :: rest => do
      let (item, rest) ← readUnless fuel [.entry, .key, .value, .blockEnd] true false rest
      let (items, rest) ← readIndentless fuel rest
      return (item :: items, rest)
    | tokens => some ([], tokens)

/-- The entries of a block mapping. -/
def readEntries (fuel : Nat) (tokens : List Token) :
    Option (List (Node × Node) × List Token) :=
  match fuel with
  | 0 => none
  | fuel + 1 =>
    match tokens with
    | .key :: rest => do
      let ends := [.key, .value, .blockEnd]
      let (key, rest) ← readUnless fuel ends true true rest
      let (value, rest) ← match rest with
        | .value :: rest => readUnless fuel ends true true rest
        | rest => some (omitted, rest)
      let (entries, rest) ← readEntries fuel rest
      return ((key, value) :: entries, rest)
    | .blockEnd :: rest => some ([], rest)
    | _ => none

/-- A value after its colon, or nothing, in a flow collection. -/
def readFlowValue (fuel : Nat) (close : Token) (tokens : List Token) :
    Option (Node × List Token) :=
  match fuel with
  | 0 => none
  | fuel + 1 =>
    match tokens with
    | .value :: rest => readUnless fuel [.flowEntry, close] false false rest
    | rest => some (omitted, rest)

/-- The elements of a flow sequence; an element with a colon is a mapping with one entry. -/
def readFlowItems (fuel : Nat) (first : Bool) (tokens : List Token) :
    Option (List Node × List Token) :=
  match fuel with
  | 0 => none
  | fuel + 1 =>
    match tokens with
    | .flowSequenceEnd :: rest => some ([], rest)
    | tokens => do
      match ← afterComma first tokens with
      | .flowSequenceEnd :: rest => return ([], rest)
      | .key :: rest =>
        let (key, rest) ← readUnless fuel [.value, .flowEntry, .flowSequenceEnd] false false rest
        let (value, rest) ← readFlowValue fuel .flowSequenceEnd rest
        let (items, rest) ← readFlowItems fuel false rest
        return (.mapping [(key, value)] :: items, rest)
      | tokens =>
        let (item, rest) ← read fuel false false tokens
        let (items, rest) ← readFlowItems fuel false rest
        return (item :: items, rest)

/-- The entries of a flow mapping; a key may stand without a value. -/
def readFlowEntries (fuel : Nat) (first : Bool) (tokens : List Token) :
    Option (List (Node × Node) × List Token) :=
  match fuel with
  | 0 => none
  | fuel + 1 =>
    match tokens with
    | .flowMappingEnd :: rest => some ([], rest)
    | tokens => do
      match ← afterComma first tokens with
      | .flowMappingEnd :: rest => return ([], rest)
      | .key :: rest =>
        let (key, rest) ← readUnless fuel [.value, .flowEntry, .flowMappingEnd] false false rest
        let (value, rest) ← readFlowValue fuel .flowMappingEnd rest
        let (entries, rest) ← readFlowEntries fuel false rest
        return ((key, value) :: entries, rest)
      | tokens =>
        let (key, rest) ← read fuel false false tokens
        let (entries, rest) ← readFlowEntries fuel false rest
        return ((key, omitted) :: entries, rest)

end

/-- The tokens of a document after the mark of its start, which may be left out unless the version
is told before it. -/
def body? : List Token → Option (List Token)
  | .version major minor :: .documentStart :: rest =>
    if major = 1 && (minor = 1 || minor = 2) then some rest else none
  | .documentStart :: rest => some rest
  | tokens => some tokens

/-- The node of a document, which may begin and end with a mark.  Calls that take no token are few
between those that do, which bounds the depth of the reading. -/
def ofTokens? (tokens : List Token) : Option Node := do
  let body ← body? tokens
  let (node, rest) ← read (4 * tokens.length + 8) true false body
  if rest.all (· = .documentEnd) then some node else none

/-- Reads a text that holds one node. -/
def parse? (source : String) : Option Node := do
  ofTokens? (← tokenize source)

end Node

end VariHist.Yaml
