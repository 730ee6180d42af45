import VariHist.Decimal.Shortest

/-!
# Lower precisions

The floating-point formats below double precision.  A double is rounded to the nearest number of the
format, a tie to the even one; from half way above the largest one on it becomes an infinity.
-/

namespace VariHist.Events

/-- A format: numbers with so many significant bits, multiples of `2 ^ lowest`, below `2 ^ top`. -/
structure Precision where
  bits : Nat
  lowest : Int
  top : Nat

namespace Precision

/-- Half precision. -/
def half : Precision :=
  ⟨11, -24, 16⟩

/-- Single precision. -/
def single : Precision :=
  ⟨24, -149, 128⟩

/-- `n / 2 ^ bits` rounded to the nearest natural number, a tie to the even one. -/
def roundShift (n bits : Nat) : Nat :=
  let unit := Nat.pow 2 bits
  let whole := n / unit
  let rest := n % unit
  if unit < 2 * rest || (2 * rest = unit && whole % 2 = 1) then whole + 1 else whole

/-- Rounds a double to a format. -/
def round (p : Precision) (x : Float) : Float :=
  let b := Decimal.Binary.ofFloat x
  if !x.isFinite || b.mantissa = 0 then x
  else
    let leading : Int := b.mantissa.log2 + b.exponent
    let last := max (leading - (p.bits - 1)) p.lowest
    let n := roundShift (b.mantissa * Nat.pow 2 (b.exponent - last).toNat) (last - b.exponent).toNat
    let above := n * Nat.pow 2 last.toNat
    let size :=
      if Nat.pow 2 p.top ≤ above then 1.0 / 0.0
      else Float.ofNat above / Float.ofNat (Nat.pow 2 (-last).toNat)
    if x < 0 then -size else size

end Precision

end VariHist.Events
