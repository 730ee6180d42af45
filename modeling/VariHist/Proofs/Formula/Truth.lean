import Mathlib
import VariHist.Formula.Compile
import VariHist.Proofs.Double

/-!
# Conditions in formulas

A value counts as true if it is greater than zero.  The operators do not all ask this question: a
conjunction is settled by a left side that is at most zero, and a negation asks the same of its
operand.  For a number that is the opposite question.  What is not a number is neither greater than
zero nor at most zero, and there the answers differ.

* `apply_or`, `apply_and`, `eval_not` — what the operators make of any two values.
* `Term.pos_eval_iff` — a formula is greater than zero exactly when it holds by the rule, if nothing
  that is asked to be at most zero fails to be a number.
-/

namespace VariHist.Formula

variable {ι : Type} {env : ι → Float}

@[simp] theorem pos_truth_iff {b : Bool} : 0 < truth b ↔ b = true := by
  cases b <;> decide +kernel

/-! ## One operator -/

/-- A disjunction is one if a side is greater than zero, and zero otherwise. -/
theorem apply_or (x y : Float) : Operator.or.apply x y = truth (0 < x ∨ 0 < y) := by
  change (if 0 < x then 1 else truth (0 < y)) = _
  by_cases hx : 0 < x
  · simp [hx, truth]
  · simp [hx]

/-- A conjunction is one if the right side is greater than zero and the left side is so or is not a
number, and zero otherwise. -/
theorem apply_and (x y : Float) :
    Operator.and.apply x y = truth ((0 < x ∨ x.isNaN = true) ∧ 0 < y) := by
  change (if x ≤ 0 then 0 else truth (0 < y)) = _
  have hleft : x ≤ 0 ↔ ¬ (0 < x ∨ x.isNaN = true) := by
    rw [Double.le_zero_iff, not_or, Bool.not_eq_true]
  by_cases hx : x ≤ 0
  · rw [if_pos hx]
    simp only [hleft.1 hx, false_and]
    rfl
  · rw [if_neg hx]
    simp only [not_not.1 (mt hleft.2 hx), true_and]

theorem apply_and_of_number {x y : Float} (hx : x.isNaN = false) :
    Operator.and.apply x y = truth (0 < x ∧ 0 < y) := by
  rw [apply_and]
  simp only [hx, Bool.false_eq_true, or_false]

/-- A negation is one if its operand is a number that is not greater than zero, and zero
otherwise. -/
theorem eval_not (t : Term ι) :
    t.not.eval env = truth (¬ 0 < t.eval env ∧ (t.eval env).isNaN = false) := by
  change truth (t.eval env ≤ 0) = _
  rw [decide_eq_decide.2 (Double.le_zero_iff _)]

theorem eval_not_of_number {t : Term ι} (ht : (t.eval env).isNaN = false) :
    t.not.eval env = truth (¬ 0 < t.eval env) := by
  rw [eval_not]
  simp only [ht, and_true]

/-! ## All operators -/

namespace Term

/-- Does the formula hold?  Conjunctions, disjunctions and negations are read as such, and what
they are made of holds if it is greater than zero. -/
def Holds (env : ι → Float) : Term ι → Prop
  | .not t => ¬ t.Holds env
  | .binary .and l r => l.Holds env ∧ r.Holds env
  | .binary .or l r => l.Holds env ∨ r.Holds env
  | t => 0 < t.eval env

/-- The parts whose values are asked to be at most zero. -/
def tested : Term ι → List (Term ι)
  | .not t => t :: t.tested
  | .binary .and l r => l :: (l.tested ++ r.tested)
  | .binary .or l r => l.tested ++ r.tested
  | _ => []

/-- Whether a formula is greater than zero is worked out by the rule, however conjunctions,
disjunctions and negations are nested. -/
theorem pos_eval_iff {t : Term ι} (h : ∀ s ∈ t.tested, (s.eval env).isNaN = false) :
    0 < t.eval env ↔ t.Holds env := by
  induction t with
  | not t ih =>
    have ht : (t.eval env).isNaN = false := h t List.mem_cons_self
    have htrue := ih fun s hs => h s (List.mem_cons_of_mem _ hs)
    rw [eval_not_of_number ht, pos_truth_iff, decide_eq_true_iff, htrue, Holds]
  | binary op l r ihl ihr =>
    cases op with
    | and =>
      have hl : (l.eval env).isNaN = false := h l List.mem_cons_self
      have hltrue := ihl fun s hs => h s (List.mem_cons_of_mem _ (List.mem_append_left _ hs))
      have hrtrue := ihr fun s hs => h s (List.mem_cons_of_mem _ (List.mem_append_right _ hs))
      rw [eval, apply_and_of_number hl, pos_truth_iff, decide_eq_true_iff, hltrue, hrtrue, Holds]
    | or =>
      have hltrue := ihl fun s hs => h s (List.mem_append_left _ hs)
      have hrtrue := ihr fun s hs => h s (List.mem_append_right _ hs)
      rw [eval, apply_or, pos_truth_iff, decide_eq_true_iff, hltrue, hrtrue, Holds]
    | add | sub | mul | div | eq | ne | lt | le | gt | ge => exact Iff.rfl
  | number | column | neg | call₁ | call₂ => exact Iff.rfl

end Term

end VariHist.Formula
