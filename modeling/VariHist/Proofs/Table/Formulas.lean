import Mathlib
import VariHist.Proofs.Formula.Inputs
import VariHist.Proofs.Table.Denotation
import VariHist.Table.Recorder

/-!
# Columns made of formulas

A column that is defined by a formula is a column with a kernel: the formula, given the values of
its inputs as a list.  What it holds on a row is nevertheless what the text says: the value of the
tree, with every name standing for the column of that name.

* `hasValue_of_defineFormula` — the value of a column made of a formula.
* `meaning_of_compiled` — from the tokens of a formula to the values of its column.
-/

namespace VariHist

namespace EventTable

variable {α : Type} {t t' : EventTable α} {name : String} {row : Nat} {v : ColumnValue}

/-- A column with a scalar kernel holds on a row what the kernel makes of the numbers that its
inputs had on the row before the column was there. -/
theorem hasValue_of_defineColumn [Aggregation α] (ht : t.Reachable) {f : List Float → Float}
    {inputs : List String} (h : t.defineColumn name (.scalar f) inputs = .ok t')
    (hrow : row < t.rows) :
    t'.HasValue row name v ↔ v = .scalar (f (inputs.map (t.numberOn row))) := by
  have hadded := added_of_defineColumn (d := ⟨name, .scalar f, inputs⟩) h
  have hdef := hadded.defines _ List.mem_cons_self
  have hwf := (ht.defineColumn _ _ _ h).wellFormed
  have hinputs : inputs.map (t'.numberOn row) = inputs.map (t.numberOn row) :=
    List.map_congr_left fun c hc => numberOn_of_keepsColumns hadded.ext.toKeepsColumns
      ht.wellFormed.inputs hwf.inputs (kindOf?_of_defineColumn h hc)
  rw [hasValue_scalar_iff hwf (hadded.ext.rows ▸ hrow) hdef.kindOf?,
    numberOn_of_evaluate (hdef.evaluate hwf.inputs row), hinputs]

/-! ## Formulas -/

theorem compile_eq_ok_iff {source : String} {f : Formula} :
    Formula.compile source = .ok f ↔
      ∃ tree, Formula.parse source = .ok tree ∧ Formula.ofTerm tree = f := by
  unfold Formula.compile
  cases Formula.parse source with
  | error fault => simp [Except.map]
  | ok tree => simp [Except.map]

theorem added_of_defineFormula {source : String} (h : t.defineFormula name source = .ok t') :
    ∃ f, Formula.compile source = .ok f ∧ t.Added [⟨name, f.kernel, f.inputs⟩] t' := by
  obtain ⟨f, hf, hdef⟩ := exists_of_defineFormula h
  exact ⟨f, hf, added_of_defineColumn (d := ⟨name, f.kernel, f.inputs⟩) hdef⟩

/-- A column made of a formula holds on a row the value of the tree, with every name standing for
the number of its column. -/
theorem hasValue_of_defineFormula [Aggregation α] (ht : t.Reachable) {source : String}
    {tree : Formula.Term String} (hparse : Formula.parse source = .ok tree)
    (h : t.defineFormula name source = .ok t') (hrow : row < t.rows) :
    t'.HasValue row name v ↔ v = .scalar (tree.eval (t.numberOn row)) := by
  obtain ⟨f, hf, hdef⟩ := exists_of_defineFormula h
  obtain ⟨tree', hparse', rfl⟩ := compile_eq_ok_iff.1 hf
  rw [hparse] at hparse'
  cases hparse'
  rw [hasValue_of_defineColumn ht hdef hrow, Formula.eval_ofTerm]

end EventTable

open EventTable Formula

/-- A formula means what its names say.  Its inputs are the names that are not used as functions,
each once, in the order of first mention, and the positions in its tree were handed out in this
order.  A call that is read has the arguments that its function reads, and no look-up of an
evaluation goes beyond the values of the inputs.  The value is the one that the tree has with its
names looked up, so that a column of the formula holds on every row what the tree makes of the
columns of these names. -/
theorem meaning_of_compiled {source : String} {f : Formula} (h : compile source = .ok f) :
    ∃ tokens tree, tokenize source = .ok tokens ∧ readTokens source tokens = .ok tree ∧
      FirstMentions f.inputs (columnNames tokens) ∧
      (tree.numbered [] = (f.term, f.inputs) ∧ ∀ i ∈ f.term.mentions, i < f.inputs.length) ∧
      (∀ name g args node, callTerm name g args = .ok node → ∀ env, args.length = g.arity ∧
        g.applyTo? (args.map (Term.eval env)) = some (node.eval env)) ∧
      (∀ values, values.length = f.inputs.length → f.term.eval? values = some (f.eval values)) ∧
      (∀ env, f.eval (f.inputs.map env) = tree.eval env) ∧
      ∀ (α : Type) [Aggregation α] (t t' : EventTable α) (name : String), t.Reachable →
        t.defineFormula name source = .ok t' → ∀ row < t.rows, ∃ env,
          (∀ c ∈ f.inputs, ∀ v, t.HasValue row c v ↔ v = .scalar (env c)) ∧
          ∀ v, t'.HasValue row name v ↔ v = .scalar (tree.eval env) := by
  obtain ⟨tree, hparse, rfl⟩ := compile_eq_ok_iff.1 h
  obtain ⟨tokens, htokens, htree⟩ := bind_except_eq_ok_iff.1 hparse
  have hinputs : (ofTerm tree).inputs = (columnNames tokens).eraseDups := by
    rw [← mentions_of_readTokens htree]
    rfl
  refine ⟨tokens, tree, htokens, htree, ?_, ⟨tree.numbered_nil, ?_⟩, ?_, ?_, eval_ofTerm tree, ?_⟩
  · rw [hinputs]
    exact firstMentions_eraseDups _
  · intro i hi
    exact lt_of_mem_mentions hi
  · intro name g args node hnode env
    exact applyTo?_of_callTerm hnode env
  · intro values hlength
    exact Term.eval?_eq_some fun i hi => hlength ▸ lt_of_mem_mentions hi
  · intro α _ t t' name ht hdefine row hrow
    obtain ⟨f, hf, hdef⟩ := exists_of_defineFormula hdefine
    rw [h] at hf
    cases hf
    have hinput : ∀ c ∈ (ofTerm tree).inputs, ∀ v,
        t.HasValue row c v ↔ v = .scalar (t.numberOn row c) := fun c hc v =>
      hasValue_scalar_iff ht.wellFormed hrow (kindOf?_of_defineColumn hdef hc)
    exact ⟨t.numberOn row, hinput, fun v => hasValue_of_defineFormula ht hparse hdefine hrow⟩

/-- One event with two numbers. -/
def twoNumbers : EventTable Recorder :=
  ⟨1, 0, #[⟨"x", .stored #[3]⟩, ⟨"w", .stored #[2]⟩], [], [], [], 0⟩

theorem twoNumbers_reachable : twoNumbers.Reachable := by
  have hx : (⟨1, 0, #[⟨"x", .stored #[3]⟩], [], [], [], 0⟩ : EventTable Recorder).Reachable :=
    (Reachable.ofRows 1).addColumn "x" #[3] (addColumn_eq_ok_iff.2 ⟨rfl, by decide +kernel, rfl⟩)
  exact hx.addColumn "w" #[2] (addColumn_eq_ok_iff.2 ⟨rfl, by decide +kernel, rfl⟩)

/-- A function, and columns that are mentioned twice. -/
theorem meaning_of_compiled_max :
    ∃ f t', compile "max(w, x) * x + w" = .ok f ∧ f.inputs = ["w", "x"] ∧
      f.term.eval? [2, 3] = some 11 ∧ f.term.eval? [2] = none ∧
      twoNumbers.defineFormula "y" "max(w, x) * x + w" = .ok t' ∧
      t'.HasValue 0 "y" (.scalar 11) := by
  have hcompile : compile "max(w, x) * x + w" = .ok ⟨["w", "x"], .binary .add (.binary .mul
      (.call₂ .max (.column 0) (.column 1)) (.column 1)) (.column 0)⟩ := by cbv
  obtain ⟨tokens, tree, -, -, -, -, -, heval, hnames, hcolumn⟩ := meaning_of_compiled hcompile
  obtain ⟨t', hdefine⟩ : ∃ t', twoNumbers.defineFormula "y" "max(w, x) * x + w" = .ok t' := by
    rw [defineFormula, hcompile]
    exact ⟨_, defineColumn_eq_ok_iff.2 ⟨by decide +kernel, [1, 0],
      .cons (idOfKind_eq_ok_iff.2 ⟨by decide +kernel, by decide +kernel⟩)
        (.cons (idOfKind_eq_ok_iff.2 ⟨by decide +kernel, by decide +kernel⟩) .nil), rfl⟩⟩
  obtain ⟨env, henv, hvalue⟩ := hcolumn Recorder _ _ "y" twoNumbers_reachable hdefine 0 (by decide)
  have hw : ColumnValue.scalar 2 = .scalar (env "w") :=
    (henv "w" (by simp) _).1 (.stored ⟨1, by decide +kernel, rfl⟩ rfl)
  have hx : ColumnValue.scalar 3 = .scalar (env "x") :=
    (henv "x" (by simp) _).1 (.stored ⟨0, by decide +kernel, rfl⟩ rfl)
  rw [ColumnValue.scalar.injEq] at hw hx
  have htree : 11 = tree.eval env := by
    rw [← hnames env, List.map_cons, List.map_cons, List.map_nil, ← hw, ← hx]
    decide +kernel
  refine ⟨_, _, hcompile, rfl, ?_, rfl, hdefine, (hvalue _).2 (htree ▸ rfl)⟩
  rw [heval [2, 3] rfl]
  decide +kernel

end VariHist
