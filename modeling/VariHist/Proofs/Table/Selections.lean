import Mathlib
import VariHist.Proofs.Formula.Truth
import VariHist.Proofs.Table.Formulas

/-!
# Rows selected by filters and by formulas

Rows can be selected by one filter after another, or by one filter on a formula that puts the
conditions together.  A filter asks whether a column is greater than zero.  A conjunction asks this
of its right side only, so the two selections agree on every row on which the left side is a
number.

* `keeps_of_filterRows` — what a filter keeps.
* `keeps_of_formula` — what a filter on the column of a formula keeps.
* `truth_of_conditions` — conditions in formulas and the rows that they select.
-/

namespace VariHist

open Formula

namespace EventTable

variable {α : Type} {t t' u : EventTable α} {name source : String} {row : Nat} {x : Float}

theorem numberOn_of_hasValue (ht : t.WellFormed) (h : t.HasValue row name (.scalar x)) :
    t.numberOn row name = x :=
  numberOn_of_evaluate (h.evaluate ht)

/-! ## Filters -/

theorem exists_filterRows (h : t.kindOf? name = some .scalar) :
    ∃ t', t.filterRows name = .ok t' := by
  obtain ⟨id, hid⟩ := kindOf?_eq_some_iff.1 h
  exact ⟨_, filterRows_eq_ok_iff.2 ⟨id, hid, rfl⟩⟩

theorem keepsColumns_of_filterRows (h : t.filterRows name = .ok t') : t.KeepsColumns t' := by
  obtain ⟨id, -, rfl⟩ := filterRows_eq_ok_iff.1 h
  exact ⟨fun _ _ h => h, fun _ _ h => h⟩

theorem rows_of_filterRows (h : t.filterRows name = .ok t') : t'.rows = t.rows := by
  obtain ⟨id, -, rfl⟩ := filterRows_eq_ok_iff.1 h
  rfl

/-- A filter keeps those of the rows that were kept on which its column is greater than zero. -/
theorem keeps_of_filterRows (ht : t.WellFormed) (h : t.filterRows name = .ok t')
    (hrow : row < t.rows) : t'.Keeps row ↔ t.Keeps row ∧ 0 < t.numberOn row name := by
  have ht' := ht.filterRows h
  have hrow' : row < t'.rows := (rows_of_filterRows h).symm ▸ hrow
  obtain ⟨id, hid, rfl⟩ := filterRows_eq_ok_iff.1 h
  rw [← passesOn_iff ht' hrow', ← passesOn_iff ht hrow, numberOn_of_idOfKind ht.inputs hid]
  simp [passesOn]

/-- Two filters keep the rows on which both columns are greater than zero. -/
theorem keeps_of_two_filters {a b : String} (ht : t.WellFormed) (ha : t.filterRows a = .ok t')
    (hb : t'.filterRows b = .ok u) (hkind : t.kindOf? b = some .scalar) (hrow : row < t.rows) :
    u.Keeps row ↔ t.Keeps row ∧ 0 < t.numberOn row a ∧ 0 < t.numberOn row b := by
  have ht' := ht.filterRows ha
  have hrow' : row < t'.rows := (rows_of_filterRows ha).symm ▸ hrow
  have hnumber : t'.numberOn row b = t.numberOn row b :=
    numberOn_of_keepsColumns (keepsColumns_of_filterRows ha) ht.inputs ht'.inputs hkind
  rw [keeps_of_filterRows ht' hb hrow', keeps_of_filterRows ht ha hrow, hnumber, and_assoc]

/-- Columns that are added change nothing about the rows that are kept. -/
theorem keeps_of_keepsColumns (h : t.KeepsColumns t') (hrows : t'.rows = t.rows)
    (hfilters : t'.filters = t.filters) (ht : t.WellFormed) (ht' : t'.WellFormed)
    (hrow : row < t.rows) : t'.Keeps row ↔ t.Keeps row := by
  have hrow' : row < t'.rows := hrows.symm ▸ hrow
  rw [← passesOn_iff ht' hrow', ← passesOn_iff ht hrow, hfilters, h.passesOn ht.inputs ht.filters]

/-! ## Filters on formulas -/

/-- The column of a formula can be made if its name is free and the formula mentions scalar columns
only. -/
theorem exists_defineFormula {tree : Formula.Term String} (hparse : Formula.parse source = .ok tree)
    (hname : t.idOf? name = none) (hc : ∀ c ∈ tree.mentions, t.kindOf? c = some .scalar) :
    ∃ t', t.defineFormula name source = .ok t' := by
  have hcompile : compile source = .ok (ofTerm tree) := compile_eq_ok_iff.2 ⟨tree, hparse, rfl⟩
  obtain ⟨t', hdef, -⟩ := defineColumn_added (d := ⟨name, (ofTerm tree).kernel, tree.columns⟩)
    hname fun c hmem => hc c (List.mem_eraseDups.1 hmem)
  refine ⟨t', ?_⟩
  rw [defineFormula, hcompile]
  exact hdef

/-- A filter on the column of a formula keeps those of the rows that were kept on which the formula
is greater than zero. -/
theorem keeps_of_formula [Aggregation α] (ht : t.Reachable) {tree : Formula.Term String}
    (hparse : Formula.parse source = .ok tree) (hdef : t.defineFormula name source = .ok t')
    (hfilter : t'.filterRows name = .ok u) (hrow : row < t.rows) :
    u.Keeps row ↔ t.Keeps row ∧ 0 < tree.eval (t.numberOn row) := by
  obtain ⟨f, -, hadded⟩ := added_of_defineFormula hdef
  have ht' := (hadded.reachable ht).wellFormed
  have hrow' : row < t'.rows := hadded.ext.rows.symm ▸ hrow
  have hvalue := (hasValue_of_defineFormula ht hparse hdef hrow).2 rfl
  rw [keeps_of_filterRows ht' hfilter hrow', numberOn_of_hasValue ht' hvalue,
    keeps_of_keepsColumns hadded.ext.toKeepsColumns hadded.ext.rows hadded.filters ht.wellFormed
      ht' hrow]

theorem kindOf?_of_defineFormula (h : t.defineFormula name source = .ok t') :
    t'.kindOf? name = some .scalar := by
  obtain ⟨f, -, hadded⟩ := added_of_defineFormula h
  exact (hadded.defines _ List.mem_cons_self).kindOf?

/-- A filter on a conjunction of two columns keeps the rows on which the second is greater than zero
and the first is so or is not a number. -/
theorem keeps_of_conjunction [Aggregation α] (ht : t.Reachable) {a b : String}
    (hparse : Formula.parse source = .ok (.binary .and (.column a) (.column b)))
    (hdef : t.defineFormula name source = .ok t') (hfilter : t'.filterRows name = .ok u)
    (hrow : row < t.rows) : u.Keeps row ↔ t.Keeps row ∧
      (0 < t.numberOn row a ∨ (t.numberOn row a).isNaN = true) ∧ 0 < t.numberOn row b := by
  rw [keeps_of_formula ht hparse hdef hfilter hrow, Term.eval, apply_and, pos_truth_iff,
    decide_eq_true_iff]
  rfl

/-- Rows can be selected by two scalar columns in both ways. -/
theorem exists_selections {a b : String} (ha : t.kindOf? a = some .scalar)
    (hb : t.kindOf? b = some .scalar) (hname : t.idOf? name = none)
    (hparse : Formula.parse source = .ok (.binary .and (.column a) (.column b))) :
    ∃ u v w z, t.filterRows a = .ok u ∧ u.filterRows b = .ok v ∧
      t.defineFormula name source = .ok w ∧ w.filterRows name = .ok z := by
  have hmentions : ∀ c ∈ (Term.binary .and (.column a) (.column b)).mentions,
      t.kindOf? c = some .scalar := by
    intro c hc
    rcases List.mem_cons.1 hc with rfl | hc
    · exact ha
    · rw [List.mem_singleton.1 hc]
      exact hb
  obtain ⟨u, hu⟩ := exists_filterRows ha
  obtain ⟨v, hv⟩ := exists_filterRows ((keepsColumns_of_filterRows hu).kindOf? hb)
  obtain ⟨w, hw⟩ := exists_defineFormula hparse hname hmentions
  obtain ⟨z, hz⟩ := exists_filterRows (kindOf?_of_defineFormula hw)
  exact ⟨u, v, w, z, hu, hv, hw, hz⟩

end EventTable

open EventTable

/-- Conditions in formulas.  A disjunction follows the rule that what is greater than zero is true.
So do a conjunction and a negation if the left side or the operand is a number: what is not a number
counts as true on the left of a conjunction, and as true under a negation.  Nested conditions follow
the rule if everything that is asked to be at most zero is a number.  Filtering on two columns, one
after the other, and filtering on their conjunction can both be done, and select the same rows among
those on which the first column is a number. -/
theorem truth_of_conditions {ι : Type} (env : ι → Float) (l r : Term ι) :
    ((Term.binary .or l r).eval env = truth (0 < l.eval env ∨ 0 < r.eval env) ∧
      (Term.binary .and l r).eval env =
        truth ((0 < l.eval env ∨ (l.eval env).isNaN = true) ∧ 0 < r.eval env) ∧
      l.not.eval env = truth (¬ 0 < l.eval env ∧ (l.eval env).isNaN = false)) ∧
    ((l.eval env).isNaN = false →
      (Term.binary .and l r).eval env = truth (0 < l.eval env ∧ 0 < r.eval env) ∧
      l.not.eval env = truth (¬ 0 < l.eval env)) ∧
    ((∀ s ∈ l.tested, (s.eval env).isNaN = false) → (0 < l.eval env ↔ l.Holds env)) ∧
    ∀ (α : Type) [Aggregation α] (t : EventTable α) (a b name source : String), t.Reachable →
      t.kindOf? a = some .scalar → t.kindOf? b = some .scalar → t.idOf? name = none →
      parse source = .ok (.binary .and (.column a) (.column b)) →
      ∃ u v w z, t.filterRows a = .ok u ∧ u.filterRows b = .ok v ∧
        t.defineFormula name source = .ok w ∧ w.filterRows name = .ok z ∧
        ∀ row < t.rows, ∀ x y, t.HasValue row a (.scalar x) → t.HasValue row b (.scalar y) →
          (v.Keeps row ↔ t.Keeps row ∧ 0 < x ∧ 0 < y) ∧
          (z.Keeps row ↔ t.Keeps row ∧ (0 < x ∨ x.isNaN = true) ∧ 0 < y) ∧
          (x.isNaN = false → (v.Keeps row ↔ z.Keeps row)) := by
  refine ⟨⟨apply_or _ _, apply_and _ _, eval_not l⟩,
    fun hl => ⟨apply_and_of_number hl, eval_not_of_number hl⟩, Term.pos_eval_iff, ?_⟩
  intro α _ t a b name source ht ha hb hname hparse
  obtain ⟨u, v, w, z, hu, hv, hw, hz⟩ := exists_selections ha hb hname hparse
  refine ⟨u, v, w, z, hu, hv, hw, hz, fun row hrow x y hx hy => ?_⟩
  have hfilters := keeps_of_two_filters ht.wellFormed hu hv hb hrow
  have hformula := keeps_of_conjunction ht hparse hw hz hrow
  rw [numberOn_of_hasValue ht.wellFormed hx, numberOn_of_hasValue ht.wellFormed hy]
    at hfilters hformula
  refine ⟨hfilters, hformula, fun hnumber => ?_⟩
  rw [hfilters, hformula]
  simp only [hnumber, Bool.false_eq_true, or_false]

/-- Two rows.  On the first one, `a` is not a number. -/
def eventsWithNaN : EventTable Recorder :=
  ⟨2, 0, #[⟨"a", .stored #[0 / 0, 1]⟩, ⟨"b", .stored #[1, 1]⟩], [], [], [], 0⟩

theorem eventsWithNaN_reachable : eventsWithNaN.Reachable := by
  have ha : (⟨2, 0, #[⟨"a", .stored #[0 / 0, 1]⟩], [], [], [], 0⟩ :
      EventTable Recorder).Reachable :=
    (Reachable.ofRows 2).addColumn "a" #[0 / 0, 1]
      (addColumn_eq_ok_iff.2 ⟨rfl, by decide +kernel, rfl⟩)
  exact ha.addColumn "b" #[1, 1] (addColumn_eq_ok_iff.2 ⟨rfl, by decide +kernel, rfl⟩)

theorem keeps_eventsWithNaN (row : Nat) : eventsWithNaN.Keeps row := by
  rintro name ⟨id, hid, -⟩
  cases hid

theorem parse_conjunction :
    parse "a && b" = .ok (.binary .and (.column "a") (.column "b")) := by cbv

/-- What is not a number is true on the left of a conjunction, and its negation is false.  A row
that a filter rejects for it is kept by a filter on a conjunction. -/
theorem nan_counts_as_true :
    (∃ env : String → Float, ¬ 0 < env "a" ∧
      (Term.binary .and (.column "a") (.column "b")).eval env = 1 ∧
      (Term.column "a").not.eval env = 0) ∧
    ∃ u v w z, eventsWithNaN.filterRows "a" = .ok u ∧ u.filterRows "b" = .ok v ∧
      eventsWithNaN.defineFormula "both" "a && b" = .ok w ∧ w.filterRows "both" = .ok z ∧
      ¬ v.Keeps 0 ∧ z.Keeps 0 := by
  have ht := eventsWithNaN_reachable
  have hrow : 0 < eventsWithNaN.rows := by decide
  have hname : eventsWithNaN.idOf? "both" = none := by decide +kernel
  have hb : eventsWithNaN.kindOf? "b" = some .scalar := by decide +kernel
  have hx : eventsWithNaN.HasValue 0 "a" (.scalar (0 / 0)) :=
    .stored ⟨0, by decide +kernel, rfl⟩ rfl
  have hy : eventsWithNaN.HasValue 0 "b" (.scalar 1) := .stored ⟨1, by decide +kernel, rfl⟩ rfl
  obtain ⟨u, v, w, z, hu, hv, hw, hz⟩ :=
    exists_selections (by decide +kernel) hb hname parse_conjunction
  have hfilters := keeps_of_two_filters ht.wellFormed hu hv hb hrow
  have hformula := keeps_of_conjunction ht parse_conjunction hw hz hrow
  rw [numberOn_of_hasValue ht.wellFormed hx, numberOn_of_hasValue ht.wellFormed hy]
    at hfilters hformula
  refine ⟨⟨fun name => if name = "a" then 0 / 0 else 1, ?_⟩, u, v, w, z, hu, hv, hw, hz, ?_, ?_⟩
  · decide +kernel
  · rw [hfilters]
    exact fun h => absurd h.2.1 (by decide +kernel)
  · rw [hformula]
    exact ⟨keeps_eventsWithNaN 0, by decide +kernel⟩

/-- On the second row, everything is a number. -/
theorem truth_of_conditions_second_row :
    ∃ t u v w z : EventTable Recorder, t.Reachable ∧ t.filterRows "a" = .ok u ∧
      u.filterRows "b" = .ok v ∧ t.defineFormula "both" "a && b" = .ok w ∧
      w.filterRows "both" = .ok z ∧ v.Keeps 1 ∧ z.Keeps 1 ∧
      (Term.binary .and (.column "a") (.column "b")).eval (t.numberOn 1) = 1 ∧
      ¬ (Term.column "a").not.Holds (t.numberOn 1) := by
  have hwf := eventsWithNaN_reachable.wellFormed
  have hx : eventsWithNaN.HasValue 1 "a" (.scalar 1) := .stored ⟨0, by decide +kernel, rfl⟩ rfl
  have hy : eventsWithNaN.HasValue 1 "b" (.scalar 1) := .stored ⟨1, by decide +kernel, rfl⟩ rfl
  have ha : (Term.column "a").eval (eventsWithNaN.numberOn 1) = 1 := numberOn_of_hasValue hwf hx
  have hb : (Term.column "b").eval (eventsWithNaN.numberOn 1) = 1 := numberOn_of_hasValue hwf hy
  have hnumber : ((Term.column "a").eval (eventsWithNaN.numberOn 1)).isNaN = false := by
    rw [ha]
    decide +kernel
  obtain ⟨-, hlaws, -, hrows⟩ :=
    truth_of_conditions (eventsWithNaN.numberOn 1) (.column "a") (.column "b")
  obtain ⟨-, -, htrees, -⟩ :=
    truth_of_conditions (eventsWithNaN.numberOn 1) (Term.column "a").not (.column "b")
  obtain ⟨hconjunction, hnegation⟩ := hlaws hnumber
  rw [ha, hb] at hconjunction
  rw [ha] at hnegation
  obtain ⟨u, v, w, z, hu, hv, hw, hz, hkeeps⟩ := hrows Recorder eventsWithNaN "a" "b" "both"
    "a && b" eventsWithNaN_reachable (by decide +kernel) (by decide +kernel) (by decide +kernel)
    parse_conjunction
  obtain ⟨hfilters, -, hsame⟩ := hkeeps 1 (by decide) 1 1 hx hy
  have hkept : v.Keeps 1 := hfilters.2 ⟨keeps_eventsWithNaN 1, by decide +kernel⟩
  refine ⟨eventsWithNaN, u, v, w, z, eventsWithNaN_reachable, hu, hv, hw, hz, hkept,
    (hsame (by decide +kernel)).1 hkept, hconjunction.trans (by decide +kernel), ?_⟩
  rw [← htrees fun s hs => (List.mem_singleton.1 hs) ▸ hnumber, hnegation]
  decide +kernel

end VariHist
