import Mathlib.Data.Fin.Tuple.Basic
import VariHist.Formula.Compile

/-!
# The grammar of formulas

The grammar is stated apart from the reader, with its own table of signs:

    or      := and ('||' and)*
    and     := comparison ('&&' comparison)*
    comparison := sum [('==' | '!=' | '<' | '<=' | '>' | '>=') sum]
    sum     := product (('+' | '-') product)*
    product := signed (('*' | '/') signed)*
    signed  := ('-' | '!') signed | atom
    atom    := number | column | '(' or ')' | function '(' or (',' or)* ')'

A column is a name that no opening parenthesis follows, and a function is given as many arguments
as it takes.  A derivation goes from a list of tokens to what it leaves of the list, and describes
one tree; whoever derives a whole formula leaves nothing.

* `Derivation` — the derivations, as data.
* `Derivation.term` — the tree that a derivation describes.
* `Derivation.unique` — two derivations that stop where no operator goes on are the same.
-/

namespace VariHist.Formula

/-! ## Signs -/

/-- The signs of every level, with the operator that each one stands for. -/
inductive Level.Sign : Level → Token → Operator → Prop where
  | or : Sign .or (.operator .or) .or
  | and : Sign .and (.operator .and) .and
  | eq : Sign .comparison (.operator .eq) .eq
  | ne : Sign .comparison (.operator .ne) .ne
  | lt : Sign .comparison (.operator .lt) .lt
  | le : Sign .comparison (.operator .le) .le
  | gt : Sign .comparison (.operator .gt) .gt
  | ge : Sign .comparison (.operator .ge) .ge
  | plus : Sign .sum (.operator .add) .add
  | minus : Sign .sum .minus .sub
  | sub : Sign .sum (.operator .sub) .sub
  | times : Sign .product (.operator .mul) .mul
  | over : Sign .product (.operator .div) .div

/-- A sign tells its level and its operator. -/
theorem Level.Sign.unique {l l' : Level} {token : Token} {op op' : Operator}
    (h : l.Sign token op) (h' : l'.Sign token op') : l = l' ∧ op = op' := by
  cases h <;> cases h' <;> exact ⟨rfl, rfl⟩

/-! ## Derivations -/

/-- What is derived: a term of a level, a term with signs before it, or an atom. -/
inductive Nonterminal where
  | level (l : Level)
  | signed
  | atom

/-- What the operators of a level join. -/
def Level.operand : Level → Nonterminal
  | .or => .level .and
  | .and => .level .comparison
  | .comparison => .level .sum
  | .sum => .level .product
  | .product => .signed

mutual

/-- A derivation from some tokens to those that it leaves. -/
inductive Derivation : Nonterminal → List Token → List Token → Type where
  /-- An operand, and any number of signs of the level, each with an operand. -/
  | chain {l : Level} {ts us vs : List Token} (chains : l ≠ .comparison)
      (first : Derivation l.operand ts us) (more : Repetition l us vs) :
      Derivation (.level l) ts vs
  /-- A sum that is not compared. -/
  | alone {ts us : List Token} (sum : Derivation (.level .sum) ts us) :
      Derivation (.level .comparison) ts us
  /-- Two sums that are compared. -/
  | compared {ts us vs : List Token} {token : Token} (op : Operator)
      (sign : Level.comparison.Sign token op)
      (left : Derivation (.level .sum) ts (token :: us))
      (right : Derivation (.level .sum) us vs) :
      Derivation (.level .comparison) ts vs
  | neg {ts us : List Token} (signed : Derivation .signed ts us) :
      Derivation .signed (.minus :: ts) us
  | not {ts us : List Token} (signed : Derivation .signed ts us) :
      Derivation .signed (.bang :: ts) us
  | unsigned {ts us : List Token} (atom : Derivation .atom ts us) : Derivation .signed ts us
  | number {ts : List Token} (value : Float) : Derivation .atom (.number value :: ts) ts
  /-- A name that no opening parenthesis follows. -/
  | column {ts : List Token} (name : String) (plain : ts.head? ≠ some .leftParen) :
      Derivation .atom (.ident name :: ts) ts
  | parenthesis {ts us : List Token} (inner : Derivation (.level .or) ts (.rightParen :: us)) :
      Derivation .atom (.leftParen :: ts) us
  /-- A function that is known by its name, with as many arguments as it takes. -/
  | call {ts us : List Token} {name : String} (f : Function)
      (known : Function.ofName? name = some f)
      (arguments : Arguments f.arity ts (.rightParen :: us)) :
      Derivation .atom (.ident name :: .leftParen :: ts) us

/-- Any number of signs of a level, each with an operand after it. -/
inductive Repetition : Level → List Token → List Token → Type where
  | done {l : Level} {ts : List Token} : Repetition l ts ts
  | next {l : Level} {ts us vs : List Token} {token : Token} (op : Operator)
      (sign : l.Sign token op) (operand : Derivation l.operand ts us)
      (more : Repetition l us vs) : Repetition l (token :: ts) vs

/-- A given number of terms with commas between them. -/
inductive Arguments : Nat → List Token → List Token → Type where
  | last {ts us : List Token} (argument : Derivation (.level .or) ts us) : Arguments 1 ts us
  | next {n : Nat} {ts us vs : List Token} (argument : Derivation (.level .or) ts (.comma :: us))
      (more : Arguments (n + 1) us vs) : Arguments (n + 2) ts vs

end

/-! ## The tree of a derivation -/

/-- The call of a function with its arguments. -/
def Function.call : (f : Function) → (Fin f.arity → Term String) → Term String
  | .one f, ts => .call₁ f (ts ⟨0, Nat.one_pos⟩)
  | .two f, ts => .call₂ f (ts ⟨0, Nat.two_pos⟩) (ts ⟨1, Nat.one_lt_two⟩)

mutual

/-- The tree that a derivation describes. -/
def Derivation.term {s : Nonterminal} {ts us : List Token} : Derivation s ts us → Term String
  | .chain _ first more => more.join first.term
  | .alone sum => sum.term
  | .compared op _ left right => .binary op left.term right.term
  | .neg signed => .neg signed.term
  | .not signed => .not signed.term
  | .unsigned atom => atom.term
  | .number value => .number value
  | .column name _ => .column name
  | .parenthesis inner => inner.term
  | .call f _ arguments => f.call arguments.terms

/-- The tree of a chain, nested to the left: what stands on the left is the left operand of the
first sign, and that join is the left operand of the next. -/
def Repetition.join {l : Level} {ts us : List Token} :
    Repetition l ts us → Term String → Term String
  | .done, left => left
  | .next op _ operand more, left => more.join (.binary op left operand.term)

/-- The trees of the arguments, in order. -/
def Arguments.terms {n : Nat} {ts us : List Token} : Arguments n ts us → Fin n → Term String
  | .last argument => fun _ => argument.term
  | .next argument more => Fin.cons argument.term more.terms

end

/-! ## Where a derivation may stop -/

/-- No sign of the level or of a tighter one comes next. -/
def Level.Stops (l : Level) (ts : List Token) : Prop :=
  ∀ token ∈ ts.head?, ∀ l' op, l'.height ≤ l.height → ¬ Level.Sign l' token op

/-- No operator goes on with what was derived. -/
def Nonterminal.Stops : Nonterminal → List Token → Prop
  | .level l, ts => l.Stops ts
  | .signed, _ => True
  | .atom, _ => True

@[simp] theorem Level.stops_nil (l : Level) : l.Stops [] := by
  simp [Level.Stops]

@[simp] theorem Level.stops_rightParen (l : Level) (ts : List Token) :
    l.Stops (.rightParen :: ts) := by
  rintro token ⟨⟩ l' op - ⟨⟩

@[simp] theorem Level.stops_comma (l : Level) (ts : List Token) : l.Stops (.comma :: ts) := by
  rintro token ⟨⟩ l' op - ⟨⟩

theorem Level.not_stops_sign {l : Level} {token : Token} {op : Operator} {ts : List Token}
    (h : l.Sign token op) : ¬ l.Stops (token :: ts) :=
  fun stops => stops token rfl l op (Nat.le_refl _) h

/-- An operand stops wherever its level does. -/
theorem Level.Stops.operand {l : Level} {ts : List Token} (h : l.Stops ts) :
    l.operand.Stops ts := by
  cases l <;> first
    | exact fun token ht l' op hl => h token ht l' op (Nat.le_succ_of_le hl)
    | trivial

/-- An operand stops at a sign of its level. -/
theorem Level.Sign.stops_operand {l : Level} {token : Token} {op : Operator}
    (h : l.Sign token op) (ts : List Token) : l.operand.Stops (token :: ts) := by
  have looser : ∀ l' : Level, l'.height < l.height → l'.Stops (token :: ts) := by
    rintro l' hl _ ⟨⟩ l'' op' hl' h'
    obtain ⟨rfl, -⟩ := h.unique h'
    omega
  cases l <;> first
    | exact looser _ (by decide)
    | trivial

/-- An operand stops before the signs that follow it. -/
theorem Repetition.stops_operand {l : Level} {ts us : List Token} (r : Repetition l ts us)
    (h : l.Stops us) : l.operand.Stops ts := by
  cases r with
  | done => exact h.operand
  | next op sign operand more => exact sign.stops_operand _

/-! ## A formula has one derivation -/

mutual

/-- Two derivations from the same tokens that stop where no operator goes on leave the same tokens
and are the same. -/
theorem Derivation.unique {us' : List Token} :
    ∀ {s : Nonterminal} {ts us : List Token} (d : Derivation s ts us) (d' : Derivation s ts us'),
      s.Stops us → s.Stops us' → (⟨us, d⟩ : Σ us, Derivation s ts us) = ⟨us', d'⟩
  | .level l, _, _, .chain chains first more, d', h, h' => by
    cases d' with
    | chain chains' first' more' =>
      cases first.unique first' (more.stops_operand h) (more'.stops_operand h')
      cases more.unique more' h h'
      rfl
    | alone sum' => exact absurd rfl chains
    | compared op' sign' left' right' => exact absurd rfl chains
  | _, _, _, .alone sum, d', h, h' => by
    cases d' with
    | chain chains' first' more' => exact absurd rfl chains'
    | alone sum' =>
      cases sum.unique sum' (Level.Stops.operand h) (Level.Stops.operand h')
      rfl
    | compared op' sign' left' right' =>
      cases sum.unique left' (Level.Stops.operand h) (sign'.stops_operand _)
      exact absurd h (Level.not_stops_sign sign')
  | _, _, _, .compared op sign left right, d', h, h' => by
    cases d' with
    | chain chains' first' more' => exact absurd rfl chains'
    | alone sum' =>
      cases left.unique sum' (sign.stops_operand _) (Level.Stops.operand h')
      exact absurd h' (Level.not_stops_sign sign)
    | compared op' sign' left' right' =>
      cases left.unique left' (sign.stops_operand _) (sign'.stops_operand _)
      obtain ⟨-, rfl⟩ := sign.unique sign'
      cases right.unique right' (Level.Stops.operand h) (Level.Stops.operand h')
      rfl
  | _, _, _, .neg signed, d', h, h' => by
    cases d' with
    | neg signed' =>
      cases signed.unique signed' trivial trivial
      rfl
    | unsigned atom' => nomatch atom'
  | _, _, _, .not signed, d', h, h' => by
    cases d' with
    | not signed' =>
      cases signed.unique signed' trivial trivial
      rfl
    | unsigned atom' => nomatch atom'
  | _, _, _, .unsigned atom, d', h, h' => by
    cases d' with
    | neg signed' => nomatch atom
    | not signed' => nomatch atom
    | unsigned atom' =>
      cases atom.unique atom' trivial trivial
      rfl
  | _, _, _, .number value, d', h, h' => by
    cases d' with
    | number => rfl
  | _, _, _, .column name plain, d', h, h' => by
    cases d' with
    | column _ plain' => rfl
    | call f' known' arguments' => exact absurd rfl plain
  | _, _, _, .parenthesis inner, d', h, h' => by
    cases d' with
    | parenthesis inner' =>
      cases inner.unique inner' (Level.stops_rightParen _ _) (Level.stops_rightParen _ _)
      rfl
  | _, _, _, .call f known arguments, d', h, h' => by
    cases d' with
    | column _ plain' => exact absurd rfl plain'
    | call f' known' arguments' =>
      obtain rfl : f = f' := Option.some.inj (known.symm.trans known')
      cases arguments.unique arguments' (Level.stops_rightParen _ _) (Level.stops_rightParen _ _)
      rfl

/-- Two repetitions from the same tokens that stop where no operator goes on are the same. -/
theorem Repetition.unique {us' : List Token} :
    ∀ {l : Level} {ts us : List Token} (r : Repetition l ts us) (r' : Repetition l ts us'),
      l.Stops us → l.Stops us' → (⟨us, r⟩ : Σ us, Repetition l ts us) = ⟨us', r'⟩
  | _, _, _, .done, r', h, h' => by
    cases r' with
    | done => rfl
    | next op' sign' operand' more' => exact absurd h (Level.not_stops_sign sign')
  | _, _, _, .next op sign operand more, r', h, h' => by
    cases r' with
    | done => exact absurd h' (Level.not_stops_sign sign)
    | next op' sign' operand' more' =>
      obtain ⟨-, rfl⟩ := sign.unique sign'
      cases operand.unique operand' (more.stops_operand h) (more'.stops_operand h')
      cases more.unique more' h h'
      rfl

/-- Two lists of equally many arguments from the same tokens that stop where no operator goes on
are the same. -/
theorem Arguments.unique {us' : List Token} :
    ∀ {n : Nat} {ts us : List Token} (a : Arguments n ts us) (a' : Arguments n ts us'),
      Level.or.Stops us → Level.or.Stops us' → (⟨us, a⟩ : Σ us, Arguments n ts us) = ⟨us', a'⟩
  | _, _, _, .last argument, a', h, h' => by
    cases a' with
    | last argument' =>
      cases argument.unique argument' h h'
      rfl
  | _, _, _, .next argument more, a', h, h' => by
    cases a' with
    | next argument' more' =>
      cases argument.unique argument' (Level.stops_comma _ _) (Level.stops_comma _ _)
      cases more.unique more' h h'
      rfl

end

/-- A list of tokens has at most one derivation as a whole formula. -/
instance (tokens : List Token) : Subsingleton (Derivation (.level .or) tokens []) where
  allEq d d' := by
    cases d.unique d' (Level.stops_nil _) (Level.stops_nil _)
    rfl

end VariHist.Formula
