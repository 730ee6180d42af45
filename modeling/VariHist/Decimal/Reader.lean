/-!
# Reading decimals

An unsigned decimal is digits, possibly with a point among, before or after them, and possibly an
exponent: `5.`, `.5` and `1e+5` are decimals, `.` and `1e` are not.  It is read as the nearest
double, ties to even; a decimal beyond the largest double is an infinity.
-/

namespace VariHist.Decimal

/-- The number that digits spell. -/
def natOfDigits (ds : List Char) : Nat :=
  ds.foldl (fun n c => 10 * n + (c.toNat - '0'.toNat)) 0

/-- An unsigned decimal: `significand · 10 ^ exponent`. -/
structure Parsed where
  significand : Nat
  exponent : Int
  deriving DecidableEq, Repr

/-- What follows the digits of the significand: nothing, or `e` and a possibly signed number. -/
def readExponent? : List Char → Option Int
  | [] => some 0
  | e :: rest =>
    if e = 'e' ∨ e = 'E' then
      let (negative, ds) := match rest with
        | '-' :: ds => (true, ds)
        | '+' :: ds => (false, ds)
        | ds => (false, ds)
      if ds.isEmpty || !ds.all Char.isDigit then none
      else some (if negative then -(natOfDigits ds : Int) else natOfDigits ds)
    else none

/-- Reads an unsigned decimal; `none` if the text is no decimal. -/
def parse? (cs : List Char) : Option Parsed :=
  let whole := cs.takeWhile Char.isDigit
  let afterWhole := cs.dropWhile Char.isDigit
  let (fraction, rest) := match afterWhole with
    | '.' :: r => (r.takeWhile Char.isDigit, r.dropWhile Char.isDigit)
    | r => ([], r)
  if whole.isEmpty && fraction.isEmpty then none
  else (readExponent? rest).map fun e =>
    ⟨natOfDigits (whole ++ fraction), e - fraction.length⟩

/-- The nearest double.  Exponents far outside the range of doubles are settled first, so that no
power of ten gets out of hand. -/
def Parsed.toFloat (p : Parsed) : Float :=
  if p.significand = 0 then 0
  else
    let magnitude : Int := (toString p.significand).length + p.exponent
    if magnitude > 310 then 1.0 / 0.0
    else if magnitude < -330 then 0
    else Float.ofScientific p.significand (p.exponent < 0) p.exponent.natAbs

/-- Reads an unsigned decimal as a double. -/
def readFloat? (cs : List Char) : Option Float :=
  (parse? cs).map Parsed.toFloat

end VariHist.Decimal
