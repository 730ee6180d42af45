import VariHist.Formula.Token

/-!
# Terms and their values

The tree of a formula.  Its leaves name columns in some way `ι`: by name as the formula is written,
by position once the inputs are fixed.  Truth is a number: `1` or `0` as a result, and anything
greater than zero as a condition.
-/

namespace VariHist.Formula

/-- A function of one argument. -/
inductive Function₁ where
  | abs | sqrt | log | exp
  deriving DecidableEq, Repr

/-- A function of two arguments. -/
inductive Function₂ where
  | pow | min | max
  deriving DecidableEq, Repr

/-- A function together with the number of arguments it takes. -/
inductive Function where
  | one (f : Function₁)
  | two (f : Function₂)
  deriving DecidableEq, Repr

/-- The function of a name. -/
def Function.ofName? : String → Option Function
  | "abs" => some (.one .abs)
  | "sqrt" => some (.one .sqrt)
  | "log" => some (.one .log)
  | "exp" => some (.one .exp)
  | "pow" => some (.two .pow)
  | "min" => some (.two .min)
  | "max" => some (.two .max)
  | _ => none

/-- How many arguments a function takes. -/
def Function.arity : Function → Nat
  | .one _ => 1
  | .two _ => 2

/-- The tree of a formula over columns named by `ι`. -/
inductive Term (ι : Type) where
  | number (value : Float)
  | column (c : ι)
  | neg (t : Term ι)
  | not (t : Term ι)
  | binary (op : Operator) (left right : Term ι)
  | call₁ (f : Function₁) (t : Term ι)
  | call₂ (f : Function₂) (t u : Term ι)

/-- The number for a truth value. -/
def truth (b : Bool) : Float :=
  if b then 1 else 0

/-- The distance below which two numbers count as equal, `2 ^ -52`. -/
def tolerance : Float := 2.220446049250313e-16

/-- The smaller of two numbers; of a number and a NaN, the number.  Of two equal numbers, which may
be zeros of different signs, it is the second. -/
def smaller (x y : Float) : Float :=
  if y.isNaN || x < y then x else y

/-- The larger of two numbers; of a number and a NaN, the number.  Of two equal numbers, which may
be zeros of different signs, it is the second. -/
def larger (x y : Float) : Float :=
  if y.isNaN || y < x then x else y

/-- The value of a function of one argument; `log` is the natural logarithm. -/
def Function₁.apply : Function₁ → Float → Float
  | .abs, x => x.abs
  | .sqrt, x => x.sqrt
  | .log, x => x.log
  | .exp, x => x.exp

/-- The value of a function of two arguments. -/
def Function₂.apply : Function₂ → Float → Float → Float
  | .pow, x, y => x.pow y
  | .min, x, y => smaller x y
  | .max, x, y => larger x y

/-- The value of an operator.  A conjunction is settled by a left side that is not positive, a
disjunction by a left side that is positive. -/
def Operator.apply : Operator → Float → Float → Float
  | .add, l, r => l + r
  | .sub, l, r => l - r
  | .mul, l, r => l * r
  | .div, l, r => l / r
  | .eq, l, r => truth ((l - r).abs < tolerance)
  | .ne, l, r => truth (tolerance ≤ (l - r).abs)
  | .lt, l, r => truth (l < r)
  | .le, l, r => truth (l ≤ r)
  | .gt, l, r => truth (r < l)
  | .ge, l, r => truth (r ≤ l)
  | .and, l, r => if l ≤ 0 then 0 else truth (0 < r)
  | .or, l, r => if 0 < l then 1 else truth (0 < r)

namespace Term

/-- The value of a term under values of the columns. -/
def eval {ι : Type} (env : ι → Float) : Term ι → Float
  | .number value => value
  | .column c => env c
  | .neg t => -(t.eval env)
  | .not t => truth (t.eval env ≤ 0)
  | .binary op l r => op.apply (l.eval env) (r.eval env)
  | .call₁ f t => f.apply (t.eval env)
  | .call₂ f t u => f.apply (t.eval env) (u.eval env)

/-- Names the columns anew. -/
def map {ι κ : Type} (f : ι → κ) : Term ι → Term κ
  | .number value => .number value
  | .column c => .column (f c)
  | .neg t => .neg (t.map f)
  | .not t => .not (t.map f)
  | .binary op l r => .binary op (l.map f) (r.map f)
  | .call₁ g t => .call₁ g (t.map f)
  | .call₂ g t u => .call₂ g (t.map f) (u.map f)

/-- The columns in the order in which the formula mentions them, each mention counted. -/
def mentions {ι : Type} : Term ι → List ι
  | .number _ => []
  | .column c => [c]
  | .neg t | .not t | .call₁ _ t => t.mentions
  | .binary _ l r | .call₂ _ l r => l.mentions ++ r.mentions

/-- Naming the columns anew and looking the new names up gives the same value. -/
@[simp] theorem eval_map {ι κ : Type} (f : ι → κ) (env : κ → Float) (t : Term ι) :
    (t.map f).eval env = t.eval (env ∘ f) := by
  induction t <;> simp_all [map, eval]

/-- A term depends on the columns it mentions only. -/
theorem eval_congr {ι : Type} {env env' : ι → Float} (t : Term ι)
    (h : ∀ c ∈ t.mentions, env c = env' c) : t.eval env = t.eval env' := by
  induction t <;> simp_all [mentions, eval]

end Term

end VariHist.Formula
