import Mathlib
import VariHist.Analysis.Run
import VariHist.Proofs.Booking.Book
import VariHist.Proofs.Systematics.Operations

/-!
# What an analysis makes before it books

* `VariedTable.Advances` — the steps of an analysis add columns and filters, and leave the list of
  systematics as it is; `Advances.forM` is a loop of such steps.
* `Analysis.propagated` — the table and the registry that the histograms are booked on.
* `Propagated` — what is known of them: the index columns hold the positions of the shifts, and the
  filters keep the rows on which every selection is greater than zero.
-/

namespace VariHist

variable {α β : Type}

namespace VariedTable

variable {v v' v'' : VariedTable α} {filtered more : List String} {name : String}

/-- Columns are added, and filters over columns of some names.  The list of systematics is left as
it is. -/
structure Advances (v v' : VariedTable α) (filtered : List String) : Prop where
  ext : v.table.Extends v'.table
  systematics : v'.registry.systematics = v.registry.systematics
  filters : ∃ ids, v'.table.filters = v.table.filters ++ ids ∧
    List.Forall₂ (fun c i => v'.table.idOfKind .scalar c = .ok i) filtered ids
  reachable : ∀ [Aggregation α], v.table.Reachable → v'.table.Reachable

theorem Advances.refl (v : VariedTable α) : v.Advances v [] :=
  ⟨.refl _, rfl, ⟨[], (List.append_nil _).symm, .nil⟩, fun h => h⟩

theorem Advances.trans (h : v.Advances v' filtered) (h' : v'.Advances v'' more) :
    v.Advances v'' (filtered ++ more) where
  ext := h.ext.trans h'.ext
  systematics := h'.systematics.trans h.systematics
  filters := by
    obtain ⟨ids, hids, hall⟩ := h.filters
    obtain ⟨ids', hids', hall'⟩ := h'.filters
    refine ⟨ids ++ ids', by rw [hids', hids, List.append_assoc], List.rel_append ?_ hall'⟩
    exact hall.imp fun _ _ hi => h'.ext.idOfKind hi
  reachable ht := h'.reachable (h.reachable ht)

/-- A loop of steps each of which leaves the systematics distinct. -/
theorem Advances.forM {step : β → Step (VariedTable α) Unit} {names : β → List String}
    (hstep : ∀ d (u u' : VariedTable α), u.registry.systematics.Nodup → step d u = .ok () u' →
      u.Advances u' (names d)) {l : List β} (hnd : v.registry.systematics.Nodup)
    (h : l.forM step v = .ok () v') : v.Advances v' (l.flatMap names) := by
  induction l generalizing v with
  | nil =>
    cases h
    exact .refl _
  | cons d l ih =>
    obtain ⟨⟨⟩, u, hfirst, hrest⟩ := Step.bind_eq_ok_iff.1 h
    have hd := hstep d v u hnd hfirst
    exact hd.trans (ih (hd.systematics ▸ hnd) hrest)

theorem Advances.of_added {ds : List Definition} {t : EventTable α} {r : Registry}
    (h : v.table.Added ds t) (hr : r.systematics = v.registry.systematics) :
    v.Advances ⟨t, r⟩ [] :=
  ⟨h.ext, hr, ⟨[], by rw [h.filters, List.append_nil], .nil⟩, h.reachable⟩

theorem Advances.define {kernel : Kernel} {inputs affecting : List String}
    (hnd : v.registry.systematics.Nodup)
    (h : VariedTable.define name kernel inputs v = .ok affecting v') : v.Advances v' [] := by
  obtain ⟨t, -, hadded, hdefine⟩ | ⟨fault, -, hdefine⟩ := define_eq hnd ⟨name, kernel, inputs⟩
  · rw [h] at hdefine
    cases hdefine
    refine .of_added hadded (Registry.systematics_foldl_register fun s hs => ?_)
    exact (List.mem_filter.1 hs).1
  · rw [h] at hdefine
    cases hdefine

theorem Advances.defineFormula {source : String} {affecting : List String}
    (hnd : v.registry.systematics.Nodup)
    (h : VariedTable.defineFormula name source v = .ok affecting v') : v.Advances v' [] := by
  unfold VariedTable.defineFormula at h
  cases hc : Formula.compile source with
  | error fault => rw [hc] at h; cases h
  | ok formula => rw [hc] at h; exact .define hnd h

theorem Advances.defineConstant {value : Float}
    (h : VariedTable.defineConstant name value v = .ok () v') : v.Advances v' [] := by
  obtain ⟨t, hdefine, rfl⟩ := onTable_attempt_eq_ok_iff.1 h
  obtain ⟨hname, ids, hids, heq⟩ := EventTable.defineColumn_eq_ok_iff.1 hdefine
  refine ⟨heq ▸ .push _, rfl, ⟨[], by rw [heq, List.append_nil], .nil⟩, ?_⟩
  exact fun ht => ht.defineColumn _ _ _ hdefine

theorem Advances.keepWhere (h : VariedTable.keepWhere name v = .ok () v') :
    v.Advances v' [name] := by
  obtain ⟨t, hfilter, rfl⟩ := onTable_attempt_eq_ok_iff.1 h
  obtain ⟨id, hid, heq⟩ := EventTable.filterRows_eq_ok_iff.1 hfilter
  have hext : v.table.Extends t := by
    rw [heq]
    exact ⟨⟨fun _ _ h => h, fun _ _ h => h⟩, rfl, rfl, rfl, rfl, rfl⟩
  exact ⟨hext, rfl, ⟨[id], by rw [heq], .cons (hext.idOfKind hid) .nil⟩,
    fun ht => ht.filterRows _ hfilter⟩

theorem Advances.filterFormula {source : String} {affecting : List String}
    (hnd : v.registry.systematics.Nodup)
    (h : VariedTable.filterFormula name source v = .ok affecting v') : v.Advances v' [name] := by
  obtain ⟨l, u, hdefine, hrest⟩ := Step.bind_eq_ok_iff.1 h
  obtain ⟨⟨⟩, u', hkeep, hanswer⟩ := Step.bind_eq_ok_iff.1 hrest
  cases hanswer
  exact (Advances.defineFormula hnd hdefine).trans (.keepWhere hkeep)

end VariedTable

/-! ## The table and the registry of an analysis -/

open VariedTable

variable {a : Analysis} {t : EventTable α} {v v' : VariedTable α} {catalog : List String}

theorem Registry.under_of_affects {r : Registry} {base : String}
    (h : ∀ s ∈ r.systematics, r.affects s base = true) :
    r.shifts.map (fun shift => r.under shift base) =
      base :: (shiftsOf r.systematics).map fun shift => variationColumn base shift.1 shift.2 := by
  rw [shifts, List.map_cons, List.map_map]
  refine congrArg (List.cons _) (List.map_congr_left fun shift hshift => ?_)
  exact if_pos (h shift.1 (mem_shiftsOf.1 hshift))

namespace Analysis

theorem advances_define {d : DefineEntry} (hnd : v.registry.systematics.Nodup)
    (h : define d v = .ok () v') : v.Advances v' [] := by
  obtain ⟨name, formula, value⟩ := d
  rcases formula with _ | formula
  · rcases value with _ | value
    · cases h
    · exact .defineConstant h
  · obtain ⟨l, u, hdefine, hanswer⟩ := Step.bind_eq_ok_iff.1 h
    cases hanswer
    exact .defineFormula hnd hdefine

/-- The table and the registry on which the histograms of an analysis are booked. -/
def propagated (a : Analysis) (t : EventTable α) : VariedTable α :=
  a.propagate.stateAfter ⟨t, a.registry t⟩

end Analysis

/-- What is known of the table and the registry on which the histograms are booked. -/
structure Propagated (a : Analysis) (v v' : VariedTable α) : Prop extends
    v.Advances v' (a.filters.map FilterEntry.name) where
  nodup : v'.registry.systematics.Nodup
  base : ∀ s ∈ v'.registry.systematics, v'.registry.affects s a.variationIndex = true
  indices : ∀ (k : Nat) (shift : Shift), v'.registry.shifts[k]? = some shift → v'.table.Defines
    ⟨v'.registry.under shift a.variationIndex, .constant k.toUInt64.toFloat, []⟩

theorem indices_of_added {base : String} {r : Registry}
    (hr : r.systematics = v.registry.systematics)
    (hbase : ∀ s ∈ r.systematics, r.affects s base = true)
    (h : v.table.Added (v.indexDefinitions base) t) {k : Nat} {shift : Shift}
    (hk : r.shifts[k]? = some shift) :
    t.Defines ⟨r.under shift base, .constant k.toUInt64.toFloat, []⟩ := by
  have hcolumns : v.indexColumns base = r.shifts.map fun shift => r.under shift base := by
    rw [Registry.under_of_affects hbase, indexColumns_eq, hr]
  have hcolumn : (v.indexColumns base)[k]? = some (r.under shift base) := by
    rw [hcolumns, List.getElem?_map, hk, Option.map_some]
  refine h.defines _ (List.mem_map.2 ⟨(r.under shift base, k), ?_, rfl⟩)
  exact List.mem_zipIdx_iff_getElem?.2 hcolumn

/-- The catalog is built of all systematics. -/
theorem Analysis.propagate_eq_ok (hnd : v.registry.systematics.Nodup)
    (h : a.propagate v = .ok catalog v') :
    Propagated a v v' ∧ catalog = variationLabels v'.registry.systematics := by
  obtain ⟨⟨⟩, u, hdefines, hrest⟩ := Step.bind_eq_ok_iff.1 h
  obtain ⟨⟨⟩, u', hfilters, hcatalog⟩ := Step.bind_eq_ok_iff.1 hrest
  have hu : v.Advances u [] := by
    have hall : v.Advances u (a.defines.flatMap fun _ => []) :=
      Advances.forM (fun _ _ _ => advances_define) hnd hdefines
    rwa [List.flatMap_eq_nil_iff.2 fun _ _ => rfl] at hall
  have hu' : u.Advances u' (a.filters.map FilterEntry.name) := by
    rw [List.map_eq_flatMap]
    refine Advances.forM (fun f w w' hn hw => ?_) (hu.systematics ▸ hnd) hfilters
    obtain ⟨l, w₁, hfilter, hanswer⟩ := Step.bind_eq_ok_iff.1 hw
    cases hanswer
    exact .filterFormula hn hfilter
  have hv := hu.trans hu'
  have hnd' : u'.registry.systematics.Nodup := hv.systematics ▸ hnd
  obtain ⟨t, -, hadded, heq⟩ | ⟨fault, -, heq⟩ := buildCatalog_eq hnd' a.variationIndex
  · rw [hcatalog] at heq
    cases heq
    have hsame : Registry.systematics (u'.registry.systematics.foldl
        (fun r s => r.register s [a.variationIndex]) u'.registry) = u'.registry.systematics :=
      Registry.systematics_foldl_register fun s hs => hs
    have hbase : ∀ s ∈ u'.registry.systematics, Registry.affects
        (u'.registry.systematics.foldl (fun r s => r.register s [a.variationIndex]) u'.registry) s
          a.variationIndex = true :=
      fun s hs => Registry.affects_foldl_register.2 (.inr ⟨hs, List.mem_singleton.2 rfl⟩)
    have hall := hv.trans (.of_added hadded hsame)
    rw [List.nil_append, List.append_nil] at hall
    refine ⟨⟨hall, ?_, ?_, fun k shift hk => ?_⟩, ?_⟩
    · rwa [hsame]
    · rwa [hsame]
    · exact indices_of_added hsame (hsame.symm ▸ hbase) hadded hk
    · rw [hsame]
  · rw [hcatalog] at heq
    cases heq

end VariHist
