import Mathlib
import VariHist.Proofs.Histogram.Accumulation
import VariHist.Proofs.Table.Outcome

/-!
# Histograms that an event loop fills

* `LawfulHistograms` — aggregations that treat the histograms among them as histograms.
* `SlotsFilled.driven_slots` — the calls of an event loop, slot after slot, keep the invariant.
* `result_of_driven_slots` — after the event loop, a histogram is the sum of what its slots are
  filled with.
-/

namespace VariHist

open HoldsHistograms

/-- Aggregations that treat the histograms among them as histograms. -/
class LawfulHistograms (α : Type) (ν : outParam Type) [FillNumber ν] [Aggregation α]
    [HoldsHistograms α ν] : Prop where
  histogram?_ofHistogram : ∀ s : SlottedHistogram ν, histogram? (ofHistogram s : α) = some s
  histogram?_prepare : ∀ (n : Nat) (a : α) (s : SlottedHistogram ν), histogram? a = some s →
    histogram? (Aggregation.prepare n a) = some (s.prepare n)
  histogram?_perform : ∀ (slot : Nat) (c : SlotCall) (a : α) (s : SlottedHistogram ν),
    histogram? a = some s → histogram? (c.perform slot a) = some (c.perform slot s)
  histogram?_finish : ∀ (a : α) (s : SlottedHistogram ν), histogram? a = some s →
    histogram? (Aggregation.finish a) = some s.finish

variable {ν : Type} [FillNumber ν]

instance : LawfulHistograms (SlottedHistogram ν) ν where
  histogram?_ofHistogram _ := rfl
  histogram?_prepare n _ _ h := congrArg (fun o => o.map (SlottedHistogram.prepare n)) h
  histogram?_perform slot c _ _ h := congrArg (fun o => o.map (c.perform slot)) h
  histogram?_finish _ _ h := congrArg (fun o => o.map SlottedHistogram.finish) h

instance {α β : Type} [Aggregation α] [Aggregation β] [HoldsHistograms β ν]
    [LawfulHistograms β ν] : LawfulHistograms (α ⊕ β) ν where
  histogram?_ofHistogram s := LawfulHistograms.histogram?_ofHistogram (α := β) s
  histogram?_prepare n a s h := by
    cases a with
    | inl a => cases h
    | inr b => exact LawfulHistograms.histogram?_prepare n b s h
  histogram?_perform slot c a s h := by
    cases a with
    | inl a => cases h
    | inr b =>
      rw [SlotCall.perform_inr]
      exact LawfulHistograms.histogram?_perform slot c b s h
  histogram?_finish a s h := by
    cases a with
    | inl a => cases h
    | inr b => exact LawfulHistograms.histogram?_finish b s h

theorem LawfulHistograms.histogram?_driven {α : Type} [Aggregation α] [HoldsHistograms α ν]
    [LawfulHistograms α ν] {a : α} {s : SlottedHistogram ν} (h : histogram? a = some s)
    (calls : List (Nat × SlotCall)) : histogram? (driven a calls) = some (driven s calls) := by
  induction calls generalizing a s with
  | nil => exact h
  | cons c calls ih => exact ih (histogram?_perform c.1 c.2 a s h)

namespace SlottedHistogram

variable [LawfulFillNumber ν] {name : String} {axes : List Axis} {points slots : Nat}
  {log : List (Nat × WeightedPoint Float)} {s : SlottedHistogram ν}

/-- The calls that open a slot and fill it with some rows. -/
def slotCalls (slot : Nat) (rows : List (List (WeightedPoint Float))) : List (Nat × SlotCall) :=
  (slot, .openSlot) :: rows.map fun row => (slot, .fill (SlottedCall.buffer row))

/-- Does each row have the right number of points, over the right number of axes? -/
def RowsFit (dim points : Nat) (rows : List (List (WeightedPoint Float))) : Prop :=
  ∀ row ∈ rows, row.length = points ∧ ∀ p ∈ row, p.coords.length = dim

theorem SlotsFilled.driven_fills (h : SlotsFilled name axes points slots log s) {slot : Nat}
    (hslot : slot < slots) {rows : List (List (WeightedPoint Float))}
    (hrows : RowsFit axes.length points rows) :
    SlotsFilled name axes points slots (log ++ rows.flatMap fun row => row.map fun p => (slot, p))
      (driven s (rows.map fun row => (slot, .fill (SlottedCall.buffer row)))) := by
  induction rows generalizing s log with
  | nil => simpa [driven] using h
  | cons row rows ih =>
    obtain ⟨⟨hlen, hcoords⟩, hrest⟩ := List.forall_mem_cons.1 hrows
    have hstep := ih (h.fill hslot hlen hcoords) hrest
    rw [List.append_assoc] at hstep
    exact hstep

/-- The calls of an event loop, slot after slot. -/
theorem SlotsFilled.driven_slots (h : SlotsFilled name axes points slots log s) {order : List Nat}
    (horder : ∀ slot ∈ order, slot < slots) {rowsOf : Nat → List (List (WeightedPoint Float))}
    (hrows : ∀ slot, RowsFit axes.length points (rowsOf slot)) :
    SlotsFilled name axes points slots
      (log ++ order.flatMap fun slot => (rowsOf slot).flatMap fun row => row.map fun p => (slot, p))
      (driven s (order.flatMap fun slot => slotCalls slot (rowsOf slot))) := by
  induction order generalizing s log with
  | nil => simpa [driven] using h
  | cons slot order ih =>
    rw [List.forall_mem_cons] at horder
    have hstep := ih (h.driven_fills horder.1 (hrows slot)) horder.2
    rw [List.append_assoc] at hstep
    rw [List.flatMap_cons, List.flatMap_cons, slotCalls, driven, List.foldl_append]
    exact hstep

omit [LawfulFillNumber ν] in
theorem result_driven (s : SlottedHistogram ν) (calls : List (Nat × SlotCall)) :
    (driven s calls).result = s.result := by
  induction calls generalizing s with
  | nil => rfl
  | cons c calls ih =>
    obtain ⟨slot, call⟩ := c
    refine (ih _).trans ?_
    cases call with
    | openSlot => rfl
    | fill values => rfl

omit [FillNumber ν] [LawfulFillNumber ν] in
theorem flatMap_range_ite {β : Type} {n i : Nat} (hi : i < n) (l : List β) :
    ((List.range n).flatMap fun j => if j = i then l else []) = l := by
  induction n with
  | zero => cases hi
  | succ n ih =>
    rw [List.range_succ, List.flatMap_append, List.flatMap_singleton]
    rcases Nat.lt_succ_iff_lt_or_eq.1 hi with hlt | rfl
    · rw [ih hlt, if_neg hlt.ne', List.append_nil]
    · rw [List.flatMap_eq_nil_iff.2 fun j hj => if_neg (List.mem_range.1 hj).ne, if_pos rfl,
        List.nil_append]

omit [LawfulFillNumber ν] in
/-- A slot is given the points of its own rows. -/
theorem weighted_ofSlot {slot : Nat} (hslot : slot < slots)
    (rowsOf : Nat → List (List (WeightedPoint Float))) :
    (weighted (ofSlot ((List.range slots).flatMap fun slot =>
        (rowsOf slot).flatMap fun row => row.map fun p => (slot, p)) slot) :
          List (WeightedPoint ν)) =
      ((rowsOf slot).flatten.filter fun p => !(p.weight == 0)).map .read := by
  have hpoints : ∀ i, (rowsOf i).flatMap (fun row => row.map fun p => (i, p)) =
      (rowsOf i).flatten.map fun p => (i, p) := fun i => by
    rw [List.map_flatten, List.flatMap_def]
  have hpart : ∀ i, ((rowsOf i).flatMap fun row => row.map fun p => (i, p)).filter
      (fun e => e.1 = slot) = if i = slot then (rowsOf slot).flatten.map fun p => (slot, p) else [] := by
    intro i
    rw [hpoints]
    split_ifs with hi
    · rw [hi]
      exact List.filter_eq_self.2 (List.forall_mem_map.2 fun _ _ => decide_eq_true rfl)
    · exact List.filter_eq_nil_iff.2 (List.forall_mem_map.2 fun _ _ => by simpa using hi)
  rw [ofSlot, List.filter_flatMap, List.flatMap_congr fun i _ => hpart i, flatMap_range_ite hslot,
    weighted_map_slot]

/-- What one event loop makes of a histogram: the sum, in order, of what each slot is filled
with. -/
theorem result_of_driven_slots {α : Type} [Aggregation α] [HoldsHistograms α ν]
    [LawfulHistograms α ν] {a : α} (ha : histogram? a = some s) {made : Nat}
    (hs : SlotsFilled name axes points made [] s) (hresult : s.result = none) (slots : Nat)
    {rowsOf : Nat → List (List (WeightedPoint Float))}
    (hrows : ∀ slot, RowsFit axes.length points (rowsOf slot)) :
    (histogram? (Aggregation.finish (driven (Aggregation.prepare slots a)
        ((List.range slots).flatMap fun slot => slotCalls slot (rowsOf slot))))).bind result =
      some ((SparseHistogram.blank name axes).absorbAll
        (((List.range slots).map fun slot =>
          ((rowsOf slot).flatten.filter fun p => !(p.weight == 0)).map .read).map
            (SparseHistogram.blank name axes).fillAll)) := by
  have hrange : ∀ slot ∈ List.range slots, slot < slots := fun slot => List.mem_range.1
  have hfilled := (hs.prepare slots).driven_slots hrange hrows
  rw [List.nil_append] at hfilled
  have hparts : (List.range slots).map (fun slot => weighted (ν := ν) (ofSlot
      ((List.range slots).flatMap fun slot =>
        (rowsOf slot).flatMap fun row => row.map fun p => (slot, p)) slot)) =
      (List.range slots).map fun slot =>
        ((rowsOf slot).flatten.filter fun p => !(p.weight == 0)).map .read :=
    List.map_congr_left fun slot hslot => weighted_ofSlot (hrange slot hslot) rowsOf
  rw [LawfulHistograms.histogram?_finish _ _ (LawfulHistograms.histogram?_driven
      (LawfulHistograms.histogram?_prepare slots _ s ha) _), Option.bind_some, finish,
    result_driven, show (s.prepare slots).result = none from hresult, ← hparts, ← hfilled.toList,
    ← hfilled.template]
  dsimp only
  rw [merged, ← Array.foldl_toList, SparseHistogram.absorbAll]

end SlottedHistogram

end VariHist
