import VariHist.Formula.Fault
import VariHist.Formula.Term

/-!
# From tokens to terms

Five levels of binary operators bind more and more tightly: `||`, `&&`, the comparisons, sums and
products.  Every level chains to the left, but a comparison takes one operator only.  Below the
products stand the signs `-` and `!`, and below them numbers, columns, calls and parentheses.
Every function returns what it has not read together with the fact that it is shorter than what it
was given.
-/

namespace VariHist.Formula

/-- A level of binary operators. -/
inductive Level where
  | or | and | comparison | sum | product
  deriving DecidableEq, Repr

namespace Level

/-- The operator of a level that a token stands for. -/
def operator? : Level → Token → Option Operator
  | .or, .operator .or => some .or
  | .and, .operator .and => some .and
  | .comparison, .operator op =>
    if op ∈ [.eq, .ne, .lt, .le, .gt, .ge] then some op else none
  | .sum, .operator op => if op ∈ [.add, .sub] then some op else none
  | .sum, .minus => some .sub
  | .product, .operator op => if op ∈ [.mul, .div] then some op else none
  | _, _ => none

/-- May operators of the level follow one another? -/
def chains : Level → Bool
  | .comparison => false
  | _ => true

/-- The level whose terms are the operands of this one; `none` if those are signed terms. -/
def tighter? : Level → Option Level
  | .or => some .and
  | .and => some .comparison
  | .comparison => some .sum
  | .sum => some .product
  | .product => none

/-- How many levels are as tight as this one or tighter. -/
def height : Level → Nat
  | .or => 5
  | .and => 4
  | .comparison => 3
  | .sum => 2
  | .product => 1

theorem height_tighter {l l' : Level} (h : l.tighter? = some l') : l'.height < l.height := by
  cases l <;> simp [tighter?] at h <;> subst h <;> decide

end Level

/-- Something read, and the tokens after it, which are fewer than there were. -/
abbrev Reading (α : Type) (tokens : List Token) : Type :=
  Except Fault (α × { rest : List Token // rest.length < tokens.length })

/-- The tokens after a closing parenthesis. -/
def closeParen (tokens : List Token) :
    Except Fault { rest : List Token // rest.length < tokens.length } :=
  match tokens with
  | .rightParen :: rest => .ok ⟨rest, by simp⟩
  | tokens => .error (.expected .rightParen tokens.head?)

/-- The call of a function, once its arguments are read. -/
def callTerm (name : String) (f : Function) (arguments : List (Term String)) :
    Except Fault (Term String) :=
  match f, arguments with
  | .one f, [t] => .ok (.call₁ f t)
  | .two f, [t, u] => .ok (.call₂ f t u)
  | f, arguments => .error (.arity name f.arity arguments.length)

mutual

/-- A term of a level: its operands, joined by its operators. -/
def readLevel (l : Level) (tokens : List Token) : Reading (Term String) tokens := do
  let (left, rest) ← readOperand l tokens
  let (term, rest') ← readChain l left rest.1
  return (term, ⟨rest'.1, by have := rest.2; have := rest'.2; omega⟩)
termination_by 16 * tokens.length + 2 * l.height + 3
decreasing_by
  · simp
  · have := rest.2; omega

/-- An operand of a level. -/
def readOperand (l : Level) (tokens : List Token) : Reading (Term String) tokens :=
  match _h : l.tighter? with
  | some l' => readLevel l' tokens
  | none => readSigned tokens
termination_by 16 * tokens.length + 2 * l.height + 2
decreasing_by
  · have := Level.height_tighter ‹_›; omega
  · omega

/-- The operators of a level and their right operands, after the left operand. -/
def readChain (l : Level) (left : Term String) (tokens : List Token) :
    Except Fault (Term String × { rest : List Token // rest.length ≤ tokens.length }) :=
  match tokens with
  | [] => .ok (left, ⟨[], Nat.le_refl _⟩)
  | token :: rest =>
    match l.operator? token with
    | none => .ok (left, ⟨token :: rest, Nat.le_refl _⟩)
    | some op => do
      let (right, rest') ← readOperand l rest
      let joined := Term.binary op left right
      if l.chains then
        let (term, rest'') ← readChain l joined rest'.1
        return (term, ⟨rest''.1, by
          have := rest'.2; have := rest''.2; simp only [List.length_cons]; omega⟩)
      else return (joined, ⟨rest'.1, by have := rest'.2; simp only [List.length_cons]; omega⟩)
termination_by 16 * tokens.length
decreasing_by
  · have : l.height ≤ 5 := by cases l <;> decide
    simp only [List.length_cons]; omega
  · have := rest'.2; simp only [List.length_cons]; omega

/-- A term with any number of signs before it. -/
def readSigned (tokens : List Token) : Reading (Term String) tokens :=
  match tokens with
  | .minus :: rest => do
    let (term, rest') ← readSigned rest
    return (.neg term, ⟨rest'.1, by have := rest'.2; simp only [List.length_cons]; omega⟩)
  | .bang :: rest => do
    let (term, rest') ← readSigned rest
    return (.not term, ⟨rest'.1, by have := rest'.2; simp only [List.length_cons]; omega⟩)
  | tokens => readAtom tokens
termination_by 16 * tokens.length + 1
decreasing_by
  · simp only [List.length_cons]; omega
  · simp only [List.length_cons]; omega
  · omega

/-- A number, a column, a call or a term in parentheses. -/
def readAtom (tokens : List Token) : Reading (Term String) tokens :=
  match tokens with
  | .number value :: rest => .ok (.number value, ⟨rest, by simp⟩)
  | .leftParen :: rest => do
    let (term, rest') ← readLevel .or rest
    let rest'' ← closeParen rest'.1
    return (term, ⟨rest''.1, by
      have := rest'.2; have := rest''.2; simp only [List.length_cons]; omega⟩)
  | .ident name :: .leftParen :: rest =>
    match Function.ofName? name with
    | none => .error (.unknownFunction name)
    | some f => do
      let (arguments, rest') ← readArguments rest
      let rest'' ← closeParen rest'.1
      let term ← callTerm name f arguments
      return (term, ⟨rest''.1, by
        have := rest'.2; have := rest''.2; simp only [List.length_cons]; omega⟩)
  | .ident name :: rest => .ok (.column name, ⟨rest, by simp⟩)
  | tokens => .error (.expectedOperand tokens.head?)
termination_by 16 * tokens.length
decreasing_by
  · simp only [List.length_cons, Level.height]; omega
  · simp only [List.length_cons]; omega

/-- One argument or more, with commas between them. -/
def readArguments (tokens : List Token) : Reading (List (Term String)) tokens := do
  let (term, rest) ← readLevel .or tokens
  match h : rest.1 with
  | .comma :: rest' =>
    let (terms, rest'') ← readArguments rest'
    return (term :: terms, ⟨rest''.1, by
      have := rest.2; have := rest''.2; rw [h, List.length_cons] at *; omega⟩)
  | _ => return ([term], rest)
termination_by 16 * tokens.length + 14
decreasing_by
  · simp [Level.height]
  · have := rest.2; rw [h, List.length_cons] at this; omega

end

end VariHist.Formula
