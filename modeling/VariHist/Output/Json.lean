import VariHist.Decimal.Style
import VariHist.Text.Quoted

/-!
# JSON texts

Values and their two written forms: on one line without blanks, or one element per line with an
indentation of two blanks.  Fields are written in the order in which they are given.
-/

namespace VariHist

/-- A JSON value. -/
inductive Json where
  | null
  | natural (n : Nat)
  /-- A double; NaN and the infinities are written as `null`. -/
  | number (x : Float)
  | text (s : String)
  | list (items : List Json)
  | object (fields : List (String × Json))

namespace Json

/-- One character of a string: quotes, backslashes and control characters are escaped. -/
def escapedChar (c : Char) : String :=
  if c = '"' then "\\\""
  else if c = '\\' then "\\\\"
  else if c = '\n' then "\\n"
  else if c = '\r' then "\\r"
  else if c = '\t' then "\\t"
  else if c = '\x08' then "\\b"
  else if c = '\x0c' then "\\f"
  else if c.toNat < 0x10 then "\\u000" ++ Text.hexText c.toNat
  else if c.toNat < 0x20 then "\\u00" ++ Text.hexText c.toNat
  else String.singleton c

/-- A string between double quotes. -/
def stringText (s : String) : String :=
  "\"" ++ String.join (s.toList.map escapedChar) ++ "\""

mutual

/-- The form on one line. -/
def compact : Json → String
  | .null => "null"
  | .natural n => toString n
  | .number x => Decimal.text .json x
  | .text s => stringText s
  | .list items => "[" ++ String.intercalate "," (compactItems items) ++ "]"
  | .object fields => "\x7b" ++ String.intercalate "," (compactFields fields) ++ "\x7d"

/-- The forms of the elements of a list. -/
def compactItems : List Json → List String
  | [] => []
  | v :: rest => compact v :: compactItems rest

/-- The forms of the fields of an object. -/
def compactFields : List (String × Json) → List String
  | [] => []
  | (key, v) :: rest => (stringText key ++ ":" ++ compact v) :: compactFields rest

end

/-- The beginning of a line at some depth. -/
def newLine (depth : Nat) : String :=
  "\n" ++ String.ofList (List.replicate (2 * depth) ' ')

/-- Elements between brackets, one per line; nothing but the brackets if there are none. -/
def bracketed (left right : String) (depth : Nat) (items : List String) : String :=
  if items.isEmpty then left ++ right
  else
    left ++ newLine (depth + 1) ++ String.intercalate ("," ++ newLine (depth + 1)) items ++
      newLine depth ++ right

mutual

/-- The form with one element per line, at some depth. -/
def prettyAt (depth : Nat) : Json → String
  | .list items => bracketed "[" "]" depth (prettyItems (depth + 1) items)
  | .object fields => bracketed "\x7b" "\x7d" depth (prettyFields (depth + 1) fields)
  | .null => "null"
  | .natural n => toString n
  | .number x => Decimal.text .json x
  | .text s => stringText s

/-- The forms of the elements of a list. -/
def prettyItems (depth : Nat) : List Json → List String
  | [] => []
  | v :: rest => prettyAt depth v :: prettyItems depth rest

/-- The forms of the fields of an object. -/
def prettyFields (depth : Nat) : List (String × Json) → List String
  | [] => []
  | (key, v) :: rest => (stringText key ++ ": " ++ prettyAt depth v) :: prettyFields depth rest

end

/-- The form with one element per line. -/
def pretty (v : Json) : String :=
  prettyAt 0 v

end Json

end VariHist
