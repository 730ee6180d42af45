import Mathlib
import VariHist.Proofs.Systematics.Operations
import VariHist.Table.Recorder

/-!
# Every affected column has copies of its own

Names of copies are put together from texts, so the copies of two columns may ask for one name:
`x_b` under `C` and `x` under `b_C` both want `x_b_CUp`.  Every name that an operation makes has to
be free before anything is defined, and this keeps the copies apart.

* `HasOwnCopies` — affected columns have copies of their kind, and no column is the copy of two.
* `HasOwnCopies.announce` — what a definition and a catalog have in common: new columns, and then
  one of them registered.
* `HasOwnCopies.carryOut`, `hasOwnCopies_kept` — one operation, and every sequence of them.
-/

namespace VariHist.VariedTable

variable {α β : Type} {v : VariedTable α}

/-- Every affected column has copies of its kind under the shifts that affect it, and no column is
a copy of two different columns, or of one column under two systematics. -/
structure HasOwnCopies (v : VariedTable α) : Prop where
  consistent : v.Consistent
  distinct : ∀ s c s' c' d d', v.registry.affects s c = true → v.registry.affects s' c' = true →
    variationColumn c s d = variationColumn c' s' d' → s = s' ∧ c = c'

theorem Consistent.extend (h : v.Consistent) {t : EventTable α} (ht : v.table.Extends t) :
    Consistent ⟨t, v.registry⟩ := by
  intro s c hc
  obtain ⟨kind, hk, hcopies⟩ := h s c hc
  exact ⟨kind, ht.kindOf? hk, fun d => ht.kindOf? (hcopies d)⟩

theorem HasOwnCopies.extend (h : v.HasOwnCopies) {t : EventTable α} (ht : v.table.Extends t) :
    HasOwnCopies ⟨t, v.registry⟩ where
  consistent := h.consistent.extend ht
  distinct := h.distinct

/-- A new column with new copies of its kind under some systematics can be registered for them. -/
theorem HasOwnCopies.announce (h : v.HasOwnCopies) {t : EventTable α} (ht : v.table.Extends t)
    {systematics : List String} {name : String} {kind : ColumnKind}
    (hkind : t.kindOf? name = some kind)
    (hcopies : ∀ s ∈ systematics, ∀ d, t.kindOf? (variationColumn name s d) = some kind)
    (hfree : ∀ s ∈ systematics, ∀ d, v.table.idOf? (variationColumn name s d) = none) :
    HasOwnCopies ⟨t, systematics.foldl (fun r s => r.register s [name]) v.registry⟩ := by
  have haffects : ∀ {s c}, (systematics.foldl (fun r s => r.register s [name]) v.registry).affects
      s c = true → v.registry.affects s c = true ∨ s ∈ systematics ∧ c = name := by
    intro s c hc
    rw [Registry.affects_foldl_register, List.mem_singleton] at hc
    exact hc
  -- the copies of a column that was affected before exist, those of the new column did not
  have hclash : ∀ {s c s' d d'}, v.registry.affects s c = true → s' ∈ systematics →
      variationColumn c s d ≠ variationColumn name s' d' := by
    intro s c s' d d' hc hs' heq
    obtain ⟨kind, -, hold⟩ := h.consistent s c hc
    exact idOf?_ne_none_of_kindOf? (hold d) (heq ▸ hfree s' hs' d')
  refine ⟨?_, ?_⟩
  · intro s c hc
    rcases haffects hc with hold | ⟨hs, rfl⟩
    · exact h.consistent.extend ht s c hold
    · exact ⟨kind, hkind, hcopies s hs⟩
  · intro s c s' c' d d' hc hc' heq
    rcases haffects hc with hold | ⟨hs, rfl⟩
    · rcases haffects hc' with hold' | ⟨hs', rfl⟩
      · exact h.distinct s c s' c' d d' hold hold' heq
      · exact absurd heq (hclash hold hs')
    · rcases haffects hc' with hold' | ⟨hs', rfl⟩
      · exact absurd heq.symm (hclash hold' hs)
      · exact ⟨(variationColumn_inj.1 heq).1, rfl⟩

/-! ## One operation -/

/-- A step that leaves every affected column with copies of its own, whether it succeeds or not. -/
def KeepsOwnCopies (step : Step (VariedTable α) β) : Prop :=
  ∀ v : VariedTable α, v.HasOwnCopies → (step.stateAfter v).HasOwnCopies

theorem KeepsOwnCopies.bind {γ : Type} {step : Step (VariedTable α) β}
    {rest : β → Step (VariedTable α) γ} (h : KeepsOwnCopies step)
    (hrest : ∀ b, KeepsOwnCopies (rest b)) : KeepsOwnCopies (step >>= rest) := by
  intro v hv
  have hstep := h v hv
  rw [stateAfter_bind]
  unfold Step.stateAfter at hstep
  cases hres : step v with
  | ok b v' =>
    rw [hres] at hstep
    exact hrest b v' hstep
  | error e v' =>
    rw [hres] at hstep
    exact hstep

theorem keepsOwnCopies_pure (b : β) : KeepsOwnCopies (pure b : Step (VariedTable α) β) :=
  fun _ hv => hv

theorem keepsOwnCopies_throw (e : Error) : KeepsOwnCopies (throw e : Step (VariedTable α) β) :=
  fun _ hv => hv

theorem keepsOwnCopies_attempt {f : EventTable α → Except Error (EventTable α)}
    (hf : ∀ t t', f t = .ok t' → t.Extends t') :
    KeepsOwnCopies (onTable (Step.attempt f)) := by
  intro v hv
  rw [stateAfter_onTable]
  unfold Step.stateAfter Step.attempt
  cases ht : f v.table with
  | error e => exact hv
  | ok t => exact hv.extend (hf _ t ht)

theorem keepsOwnCopies_keepWhere (name : String) :
    KeepsOwnCopies (keepWhere name : Step (VariedTable α) Unit) := by
  refine keepsOwnCopies_attempt fun t t' ht => ?_
  obtain ⟨id, -, rfl⟩ := EventTable.filterRows_eq_ok_iff.1 ht
  exact ⟨⟨fun _ _ h => h, fun _ _ h => h⟩, rfl, rfl, rfl, rfl, rfl⟩

theorem keepsOwnCopies_defineConstant (name : String) (value : Float) :
    KeepsOwnCopies (defineConstant name value : Step (VariedTable α) Unit) := by
  refine keepsOwnCopies_attempt fun t t' ht => ?_
  obtain ⟨-, ids, -, rfl⟩ := EventTable.defineColumn_eq_ok_iff.1 ht
  exact .push _

theorem keepsOwnCopies_define (name : String) (kernel : Kernel) (inputs : List String) :
    KeepsOwnCopies (define name kernel inputs : Step (VariedTable α) (List String)) := by
  intro v hv
  unfold Step.stateAfter
  obtain ⟨t, hp, ht, hdef⟩ | ⟨fault, -, hdef⟩ :=
    define_eq v.registry.nodup_systematics ⟨name, kernel, inputs⟩
  · have hmem : ∀ s ∈ v.affectingAny inputs, ∀ d,
        v.copyOf ⟨name, kernel, inputs⟩ (s, d) ∈ v.withCopies ⟨name, kernel, inputs⟩ :=
      fun s hs d => List.mem_cons_of_mem _ (List.mem_map_of_mem (mem_shiftsOf.2 hs))
    rw [hdef]
    exact hv.announce ht.ext (ht.defines _ List.mem_cons_self).kindOf?
      (fun s hs d => (ht.defines _ (hmem s hs d)).kindOf?) fun s hs d => hp.free _ (hmem s hs d)
  · rw [hdef]
    exact hv

theorem keepsOwnCopies_defineFormula (name source : String) :
    KeepsOwnCopies (defineFormula name source : Step (VariedTable α) (List String)) := by
  unfold defineFormula
  cases Formula.compile source with
  | error fault => exact keepsOwnCopies_throw _
  | ok formula => exact keepsOwnCopies_define name formula.kernel formula.inputs

theorem keepsOwnCopies_buildCatalog (base : String) :
    KeepsOwnCopies (buildCatalog base : Step (VariedTable α) (List String)) := by
  intro v hv
  unfold Step.stateAfter
  obtain ⟨t, hfree, ht, hcat⟩ | ⟨fault, -, hcat⟩ := buildCatalog_eq v.registry.nodup_systematics base
  · rw [hcat]
    exact hv.announce ht.ext (kindOf?_of_mem_indexColumns ht List.mem_cons_self)
      (fun s hs d => kindOf?_of_mem_indexColumns ht (variationColumn_mem_indexColumns hs d))
      fun s hs d => hfree _ (variationColumn_mem_indexColumns hs d)
  · rw [hcat]
    exact hv

/-- Each operation leaves every affected column with copies of its own.  A filter that fails on a
vector column has defined the column and registered it, and so it has its copies. -/
theorem HasOwnCopies.carryOut (h : v.HasOwnCopies) (op : Operation) :
    (op.carryOut v).HasOwnCopies := by
  cases op with
  | define name kernel inputs => exact keepsOwnCopies_define name kernel inputs v h
  | defineFormula name source => exact keepsOwnCopies_defineFormula name source v h
  | defineConstant name value => exact keepsOwnCopies_defineConstant name value v h
  | filter name kernel inputs =>
    exact (keepsOwnCopies_define name kernel inputs).bind (fun affecting =>
      (keepsOwnCopies_keepWhere name).bind fun _ => keepsOwnCopies_pure affecting) v h
  | filterFormula name source =>
    exact (keepsOwnCopies_defineFormula name source).bind (fun affecting =>
      (keepsOwnCopies_keepWhere name).bind fun _ => keepsOwnCopies_pure affecting) v h
  | buildCatalog base => exact keepsOwnCopies_buildCatalog base v h

theorem HasOwnCopies.afterAll (h : v.HasOwnCopies) (ops : List Operation) :
    (v.afterAll ops).HasOwnCopies := by
  induction ops generalizing v with
  | nil => exact h
  | cons op ops ih => exact ih (h.carryOut op)

/-- Affected columns have copies of their own after each operation, whatever its names, kernel and
inputs are and whether it succeeds or not, and so they have after every sequence of operations. -/
theorem hasOwnCopies_kept (h : v.HasOwnCopies) :
    (∀ op : Operation, (op.carryOut v).HasOwnCopies) ∧
      ∀ ops : List Operation, (v.afterAll ops).HasOwnCopies :=
  ⟨h.carryOut, h.afterAll⟩

/-- `x` has copies under `C` and under `b_C`.  The column `x_a` gets copies under both, and then a
column `x_a_b` that wants `x_a_b_CUp` for a copy is refused; a filter on a vector column fails after
it has registered the column. -/
theorem hasOwnCopies_of_clash :
    ∃ start : VariedTable Recorder, start.HasOwnCopies ∧ ∃ ops : List Operation,
      (start.afterAll ops).registry.affects "b_C" "x_a" = true ∧
      (start.afterAll ops).registry.affects "C" "x_a_b" = false ∧
      (start.afterAll ops).registry.affects "C" "v" = true ∧
      (start.afterAll ops).HasOwnCopies := by
  have hstart : HasOwnCopies (⟨⟨1, 0, #[⟨"x", .stored #[1]⟩, ⟨"x_CUp", .stored #[2]⟩,
      ⟨"x_CDown", .stored #[0]⟩, ⟨"x_b_CUp", .stored #[3]⟩, ⟨"x_b_CDown", .stored #[4]⟩],
      [], [], [], 0⟩, (Registry.empty.register "C" ["x"]).register "b_C" ["x"]⟩ :
        VariedTable Recorder) := by
    have haffects : ∀ {s c}, ((Registry.empty.register "C" ["x"]).register "b_C" ["x"]).affects
        s c = true → (s = "C" ∨ s = "b_C") ∧ c = "x" := by
      intro s c hc
      rw [Registry.affects_register, Registry.affects_register, List.mem_singleton] at hc
      rcases hc with (hempty | ⟨rfl, rfl⟩) | ⟨rfl, rfl⟩
      · cases hempty
      · exact ⟨Or.inl rfl, rfl⟩
      · exact ⟨Or.inr rfl, rfl⟩
    refine ⟨?_, ?_⟩
    · intro s c hc
      obtain ⟨rfl | rfl, rfl⟩ := haffects hc
      · refine ⟨.scalar, by decide +kernel, fun d => ?_⟩
        cases d <;> decide +kernel
      · refine ⟨.scalar, by decide +kernel, fun d => ?_⟩
        cases d <;> decide +kernel
    · intro s c s' c' d d' hc hc' heq
      obtain ⟨-, rfl⟩ := haffects hc
      obtain ⟨-, rfl⟩ := haffects hc'
      exact ⟨(variationColumn_inj.1 heq).1, rfl⟩
  refine ⟨_, hstart, [.define "x_a" (.scalar List.sum) ["x"],
    .define "x_a_b" (.scalar List.sum) ["x"], .filter "v" .concat ["x"]],
    by decide +kernel, by decide +kernel, by decide +kernel, ?_⟩
  exact (hasOwnCopies_kept hstart).2 _

end VariHist.VariedTable
