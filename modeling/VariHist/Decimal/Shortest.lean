/-!
# Shortest decimals

A finite double is `m · 2 ^ q` with natural `m`.  Among the decimals that a reader rounds back to
it, the shortest one is found in exact integer arithmetic: walk down the grids `10 ^ k`, from
coarse to fine, and stop at the first one that has a point inside the interval of numbers rounding
to the double.  Only the two grid points next to the value have to be looked at.  Of two points
inside, the nearer one is taken; what happens when they are equally near is left to the caller.
-/

namespace VariHist.Decimal

/-- Which of two equally near decimals is taken. -/
inductive Tie where
  /-- The larger one. -/
  | up
  /-- The one whose last digit is even. -/
  | even
  deriving DecidableEq, Repr

/-- The size of a finite double: `mantissa · 2 ^ exponent`. -/
structure Binary where
  mantissa : Nat
  exponent : Int
  /-- Is this a power of two, whose lower neighbour is half as far away as the upper one? -/
  narrowBelow : Bool
  deriving DecidableEq, Repr

/-- The size of a double, its sign left out; of no meaning for infinities and NaN. -/
def Binary.ofFloat (x : Float) : Binary :=
  let bits := x.toBits.toNat
  let field : Nat := bits / 0x10000000000000 % 0x800
  let fraction : Nat := bits % 0x10000000000000
  if field = 0 then ⟨fraction, -1074, false⟩
  else ⟨fraction + 0x10000000000000, Int.ofNat field - 1075, fraction = 0 && field ≠ 1⟩

/-- A decimal `digits · 10 ^ exponent`. -/
structure Digits where
  digits : Nat
  exponent : Int
  deriving DecidableEq, Repr

namespace Binary

/-- The value and the ends of its rounding interval, in units of a quarter of the last place. -/
def quarters (b : Binary) : Nat × Nat × Nat :=
  (4 * b.mantissa - (if b.narrowBelow then 1 else 2), 4 * b.mantissa, 4 * b.mantissa + 2)

/-- The factors that turn "`d · 10 ^ k` against `n` quarters of the last place" into
`d · grid` against `n · unit`. -/
def scales (b : Binary) (k : Int) : Nat × Nat :=
  let q := b.exponent - 2
  (Nat.pow 10 k.toNat * Nat.pow 2 (-q).toNat, Nat.pow 10 (-k).toNat * Nat.pow 2 q.toNat)

/-- The point of the grid `10 ^ k` to take for the value, if one lies in its rounding interval. -/
def onGrid? (tie : Tie) (b : Binary) (k : Int) : Option Nat :=
  let (lo, mid, hi) := b.quarters
  let (grid, unit) := b.scales k
  let within (d : Nat) : Bool :=
    if b.mantissa % 2 = 0 then lo * unit ≤ d * grid && d * grid ≤ hi * unit
    else lo * unit < d * grid && d * grid < hi * unit
  let below := mid * unit / grid
  let above := below + 1
  match within below, within above with
  | false, false => none
  | true, false => some below
  | false, true => some above
  | true, true =>
    let down := mid * unit - below * grid
    let up := above * grid - mid * unit
    if down < up then some below
    else if up < down then some above
    else match tie with
      | .up => some above
      | .even => if below % 2 = 0 then some below else some above

/-- The first hit among `n` grids, going down from `10 ^ k`. -/
def firstHit (tie : Tie) (b : Binary) : Nat → Int → Digits
  | 0, k => ⟨0, k⟩
  | n + 1, k =>
    match b.onGrid? tie k with
    | some d => ⟨d, k⟩
    | none => firstHit tie b n (k - 1)

/-- The shortest decimal that reads back to a positive value.  The search starts on a grid that is
too coarse and ends long before it runs out: no double needs more than seventeen digits. -/
def shortest (tie : Tie) (b : Binary) : Digits :=
  let magnitude : Int := b.mantissa.log2 + b.exponent
  firstHit tie b 24 (magnitude * 30103 / 100000 + 2)

end Binary

/-- Without zeros at the end. -/
def Digits.stripZeros (d : Digits) : Digits :=
  let rec go : Nat → Nat → Int → Digits
    | 0, n, k => ⟨n, k⟩
    | fuel + 1, n, k => if n ≠ 0 ∧ n % 10 = 0 then go fuel (n / 10) (k + 1) else ⟨n, k⟩
  go d.digits.log2 d.digits d.exponent

end VariHist.Decimal
