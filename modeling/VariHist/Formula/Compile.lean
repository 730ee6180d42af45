import VariHist.Formula.Lexer
import VariHist.Formula.Reader
import VariHist.Table.Kernel

/-!
# Formulas as kernels

A formula is a term over the positions of its inputs.  The inputs are the columns that it mentions,
each once, in the order of first mention; a kernel receives their values in this order.
-/

namespace VariHist

/-- A formula ready to be evaluated. -/
structure Formula where
  /-- The columns it reads, each once, in the order of first mention. -/
  inputs : List String
  /-- Its tree over positions in `inputs`. -/
  term : Formula.Term Nat

namespace Formula

/-- The columns of a term, each once, in the order of first mention. -/
def Term.columns (t : Term String) : List String :=
  t.mentions.eraseDups

/-- Numbers the columns of a term. -/
def ofTerm (t : Term String) : Formula :=
  let inputs := t.columns
  ⟨inputs, t.map fun name => inputs.idxOf name⟩

/-- Reads tokens to their end as a term over column names; `source` is the whole formula, for the
fault. -/
def readTokens (source : String) (tokens : List Token) : Except Fault (Term String) := do
  let (term, rest) ← readLevel .or tokens
  match rest.1 with
  | [] => return term
  | token :: _ => throw (.leftover source token)

/-- Reads a whole formula as a term over column names. -/
def parse (source : String) : Except Fault (Term String) := do
  readTokens source (← tokenize source)

/-- Reads a whole formula. -/
def compile (source : String) : Except Fault Formula :=
  (parse source).map ofTerm

/-- The value of a formula for the values of its inputs, in order. -/
def eval (f : Formula) (values : List Float) : Float :=
  f.term.eval fun i => values.getD i 0

/-- The kernel of a formula. -/
def kernel (f : Formula) : Kernel :=
  .scalar f.eval

end Formula

end VariHist
