import VariHist.Decimal.Shortest

/-!
# Written forms of a double

A style says where positional writing ends and exponent writing begins, how an exponent is
written, and what stands for the values that are no numbers.  The digits are always the shortest
ones that read back.  Three styles are in use: the one of messages, the one of tokens in parse
errors, and the one of JSON texts.
-/

namespace VariHist.Decimal

/-- How doubles are written. -/
structure Style where
  /-- The least decimal exponent written positionally, if there is one. -/
  positionalFrom : Option Int
  /-- The first decimal exponent no longer written positionally, if there is one. -/
  positionalBelow : Option Int
  /-- What follows a whole number. -/
  wholeMark : String
  /-- What stands before a non-negative exponent. -/
  exponentSign : String
  tie : Tie
  nan : String
  infinity : String
  negativeInfinity : String

/-- Messages never use an exponent, and leave whole numbers bare. -/
def Style.message : Style := ⟨none, none, "", "", .up, "NaN", "inf", "-inf"⟩

/-- Tokens are positional from `0.0001` to below `10 ^ 16`, and show whole numbers as `1.0`. -/
def Style.token : Style := ⟨some (-4), some 16, ".0", "", .up, "NaN", "inf", "-inf"⟩

/-- JSON texts are positional from `0.00001` to below `10 ^ 16`, show whole numbers as `1.0` and
the sign of every exponent, and have no numbers for NaN and the infinities. -/
def Style.json : Style := ⟨some (-5), some 16, ".0", "+", .even, "null", "null", "null"⟩

/-- Digits `ds` with the point after the first `point` of them, zeros filled in on either side. -/
def positional (style : Style) (ds : String) (point : Int) : String :=
  let zeros (n : Nat) : String := String.ofList (List.replicate n '0')
  if point ≤ 0 then "0." ++ zeros (-point).toNat ++ ds
  else if ds.length ≤ point.toNat then ds ++ zeros (point.toNat - ds.length) ++ style.wholeMark
  else String.ofList (ds.toList.take point.toNat) ++ "." ++
    String.ofList (ds.toList.drop point.toNat)

/-- Digits `ds` as one digit, the rest after a point, and the exponent `e`. -/
def scientific (style : Style) (ds : String) (e : Int) : String :=
  let fraction := String.ofList (ds.toList.drop 1)
  String.ofList (ds.toList.take 1) ++ (if fraction.isEmpty then "" else "." ++ fraction) ++ "e" ++
    (if e < 0 then "-" else style.exponentSign) ++ toString e.natAbs

/-- A positive finite double. -/
def positiveText (style : Style) (x : Float) : String :=
  let d := ((Binary.ofFloat x).shortest style.tie).stripZeros
  let ds := toString d.digits
  let e := d.exponent + ds.length - 1
  if style.positionalFrom.all (· ≤ e) && style.positionalBelow.all (e < ·) then
    positional style ds (e + 1)
  else scientific style ds e

/-- The text of a double. -/
def text (style : Style) (x : Float) : String :=
  if x.isNaN then style.nan
  else if x.isInf then (if x < 0 then style.negativeInfinity else style.infinity)
  else
    let sign := if x.toBits ≥ 0x8000000000000000 then "-" else ""
    if x == 0 then sign ++ "0" ++ style.wholeMark else sign ++ positiveText style x.abs

end VariHist.Decimal
