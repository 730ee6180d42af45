/-!
# Blank characters

The characters that count as white space when a name is tested for being empty: the Unicode
property `White_Space`.  A name made of blanks only is as good as no name at all.
-/

namespace VariHist.Text

/-- Does the character have the Unicode property `White_Space`? -/
def isBlank (c : Char) : Bool :=
  let n := c.toNat
  (0x09 ≤ n && n ≤ 0x0D) || n = 0x20 || n = 0x85 || n = 0xA0 || n = 0x1680 ||
    (0x2000 ≤ n && n ≤ 0x200A) || n = 0x2028 || n = 0x2029 || n = 0x202F || n = 0x205F ||
    n = 0x3000

/-- Does the text hold nothing but blanks?  The empty text does. -/
def isBlankText (s : String) : Bool :=
  s.toList.all isBlank

end VariHist.Text
