import Mathlib
import VariHist.Proofs.Histogram.Content

/-!
# Accumulation slot by slot

A slotted histogram is driven by calls: it is made ready for a number of slots, slots are filled
with rows of weighted points, and it is finished.  Whatever the calls, it holds what one histogram
holds that is filled with the points one after another.

* `SlotsFilled` — the invariant: each slot holds the points of weight other than zero that it was
  given since the slots were last made.  `SlotsFilled.perform` is one call, `SlotsFilled.performAll`
  a history of calls.
* `slotted_accumulation` — the sum of the slots against the serial fill, the slots in any order,
  and the result that is kept by the first finish.
* `nan_bound_never_added` — histograms over an axis with a bound that is not a number are not
  added, not even to a histogram over the same axis.
-/

namespace VariHist

variable {ν : Type} [FillNumber ν]

/-! ## Calls -/

/-- The same point in another arithmetic. -/
def WeightedPoint.read (p : WeightedPoint Float) : WeightedPoint ν :=
  ⟨p.coords.map FillNumber.ofFloat, FillNumber.ofFloat p.weight⟩

/-- A call of a slotted histogram. -/
inductive SlottedCall where
  /-- Makes ready for a number of slots. -/
  | prepare (slots : Nat)
  /-- Fills a slot with a row of points. -/
  | fill (slot : Nat) (row : List (WeightedPoint Float))
  /-- Puts the slots together. -/
  | finish

namespace SlottedCall

/-- The values of a row, lined up point by point, the weight of each point last. -/
def buffer (row : List (WeightedPoint Float)) : List Float :=
  row.flatMap fun p => p.coords ++ [p.weight]

/-- The number of slots after a call. -/
def slotsAfter (slots : Nat) : SlottedCall → Nat
  | prepare n => n
  | fill _ _ | finish => slots

/-- Is the call allowed for a histogram with `dim` axes, `points` points a row and so many slots? -/
def Allowed (dim points slots : Nat) : SlottedCall → Prop
  | prepare _ | finish => True
  | fill slot row => slot < slots ∧ row.length = points ∧ ∀ p ∈ row, p.coords.length = dim

/-- Is every call of a history allowed when its turn comes? -/
def AllAllowed (dim points : Nat) : Nat → List SlottedCall → Prop
  | _, [] => True
  | slots, c :: calls => c.Allowed dim points slots ∧
      AllAllowed dim points (c.slotsAfter slots) calls

/-- What was filled since the slots were last made, with the slot, after one more call. -/
def logAfter (log : List (Nat × WeightedPoint Float)) :
    SlottedCall → List (Nat × WeightedPoint Float)
  | prepare _ => []
  | fill slot row => log ++ row.map fun p => (slot, p)
  | finish => log

/-- What a history of calls filled since the slots were last made, with the slot. -/
def logOf (calls : List SlottedCall) : List (Nat × WeightedPoint Float) :=
  calls.foldl logAfter []

end SlottedCall

/-- The points of a log whose weight is not zero. -/
def weighted (log : List (Nat × WeightedPoint Float)) : List (WeightedPoint ν) :=
  (log.filter fun e => !(e.2.weight == 0)).map fun e => e.2.read

namespace SlottedHistogram

/-- Carries out a call. -/
def perform (s : SlottedHistogram ν) : SlottedCall → SlottedHistogram ν
  | .prepare slots => s.prepare slots
  | .fill slot row => s.fill slot (SlottedCall.buffer row)
  | .finish => s.finish

/-- Carries out calls one after another. -/
def performAll (s : SlottedHistogram ν) (calls : List SlottedCall) : SlottedHistogram ν :=
  calls.foldl perform s

end SlottedHistogram

/-! ## Rows of points -/

namespace SparseHistogram

/-- A point of weight zero leaves no trace, every other point is filled. -/
theorem fillPoint_read [LawfulFillNumber ν] (h : SparseHistogram ν) (p : WeightedPoint Float)
    (hp : p.coords.length = h.dim) :
    h.fillPoint ((p.coords ++ [p.weight]).map FillNumber.ofFloat) =
      if p.weight == 0 then h
      else h.fill (p.read : WeightedPoint ν).coords (p.read : WeightedPoint ν).weight := by
  have hlen : (p.coords.map (FillNumber.ofFloat (ν := ν))).length = h.dim := by
    rw [List.length_map, hp]
  rw [fillPoint, List.map_append, List.map_singleton, ← hlen, List.getElem?_concat_length,
    List.take_left]
  simp only [LawfulFillNumber.isZero_ofFloat]
  rfl

omit [FillNumber ν] in
theorem pieces_buffer {width : Nat} (p : WeightedPoint Float) (row : List (WeightedPoint Float))
    (hp : p.coords.length + 1 = width) (f : Float → ν) :
    pieces width (p :: row).length ((SlottedCall.buffer (p :: row)).map f) =
      (p.coords ++ [p.weight]).map f ::
        pieces width row.length ((SlottedCall.buffer row).map f) := by
  have hlen : ((p.coords ++ [p.weight]).map f).length = width := by simp [← hp]
  have hsplit : (SlottedCall.buffer (p :: row)).map f =
      (p.coords ++ [p.weight]).map f ++ (SlottedCall.buffer row).map f := by
    simp [SlottedCall.buffer]
  rw [List.length_cons, pieces, hsplit, if_neg (by rw [List.length_append]; omega),
    List.take_left' hlen, List.drop_left' hlen]

/-- A row fills its points of weight other than zero, in order. -/
theorem fillRow_buffer [LawfulFillNumber ν] (h : SparseHistogram ν)
    (row : List (WeightedPoint Float)) (hrow : ∀ p ∈ row, p.coords.length = h.dim) :
    h.fillRow row.length ((SlottedCall.buffer row).map FillNumber.ofFloat) =
      h.fillAll ((row.filter fun p => !(p.weight == 0)).map WeightedPoint.read) := by
  induction row generalizing h with
  | nil => rfl
  | cons p row ih =>
    have hp : p.coords.length = h.dim := hrow p List.mem_cons_self
    have hrest : ∀ r ∈ row, r.coords.length = h.dim := fun r hr =>
      hrow r (List.mem_cons_of_mem _ hr)
    rw [fillRow, pieces_buffer p row (by rw [hp]), List.foldl_cons, fillPoint_read h p hp,
      List.filter_cons]
    cases p.weight == 0 with
    | true => exact ih h hrest
    | false => exact ih (h.fill p.read.coords p.read.weight) hrest

end SparseHistogram

/-! ## The invariant -/

theorem weighted_append (log more : List (Nat × WeightedPoint Float)) :
    (weighted (log ++ more) : List (WeightedPoint ν)) = weighted log ++ weighted more := by
  simp [weighted]

theorem weighted_map_slot (slot : Nat) (row : List (WeightedPoint Float)) :
    (weighted (row.map fun p => (slot, p)) : List (WeightedPoint ν)) =
      (row.filter fun p => !(p.weight == 0)).map WeightedPoint.read := by
  rw [weighted, List.filter_map, List.map_map]
  rfl

/-- Sharing things out by their numbers loses none and doubles none. -/
theorem flatMap_filter_perm {β : Type} (number : β → Nat) (l : List β) {n : Nat}
    (hl : ∀ a ∈ l, number a < n) :
    ((List.range n).flatMap fun i => l.filter fun a => number a = i).Perm l := by
  have hpart : ∀ n, ((List.range n).flatMap fun i => l.filter fun a => number a = i).Perm
      (l.filter fun a => number a < n) := by
    intro n
    induction n with
    | zero => simp
    | succ n ih =>
      rw [List.range_succ, List.flatMap_append, List.flatMap_singleton]
      refine (ih.append_right _).trans ?_
      refine List.Perm.trans ?_
        (List.filter_append_perm (fun a => decide (number a < n))
          (l.filter fun a => number a < n + 1))
      rw [List.filter_filter, List.filter_filter]
      refine List.Perm.of_eq (congrArg₂ _ ?_ ?_)
      · refine List.filter_congr fun a _ => ?_
        simp only [← Bool.decide_and, decide_eq_decide]
        omega
      · refine List.filter_congr fun a _ => ?_
        simp only [← decide_not, ← Bool.decide_and, decide_eq_decide]
        omega
  refine (hpart n).trans (List.Perm.of_eq (List.filter_eq_self.2 fun a ha => ?_))
  simpa using hl a ha

/-- A sum may be taken number by number. -/
theorem sum_map_eq_sum_filter {β M : Type} [AddCommMonoid M] (number : β → Nat) (l : List β)
    {n : Nat} (hl : ∀ a ∈ l, number a < n) (f : β → M) :
    (l.map f).sum =
      ((List.range n).map fun i => ((l.filter fun a => number a = i).map f).sum).sum := by
  rw [← ((flatMap_filter_perm number l hl).map f).sum_eq, List.flatMap_def, List.map_flatten,
    List.sum_flatten, List.map_map, List.map_map]
  rfl

/-- The points of one slot. -/
def ofSlot (log : List (Nat × WeightedPoint Float)) (slot : Nat) :
    List (Nat × WeightedPoint Float) :=
  log.filter fun e => e.1 = slot

namespace SlottedHistogram

/-- Each slot holds the points of weight other than zero that it was given since the slots were
last made. -/
structure SlotsFilled (name : String) (axes : List Axis) (points slots : Nat)
    (log : List (Nat × WeightedPoint Float)) (s : SlottedHistogram ν) : Prop where
  template : s.template = .blank name axes
  points : s.points = points
  size : s.slots.size = slots
  inRange : ∀ e ∈ log, e.1 < slots
  filled : ∀ i < slots, s.slots[i]? =
    some ((SparseHistogram.blank name axes).fillAll (weighted (ofSlot log i)))

variable {name : String} {axes : List Axis} {points slots : Nat}
  {log : List (Nat × WeightedPoint Float)} {s : SlottedHistogram ν}

theorem SlotsFilled.prepare (h : SlotsFilled name axes points slots log s) (n : Nat) :
    SlotsFilled name axes points n [] (s.prepare n) where
  template := h.template
  points := h.points
  size := Array.size_replicate
  inRange := by simp
  filled i hi := by
    rw [SlottedHistogram.prepare, Array.getElem?_replicate, if_pos hi, h.template]
    rfl

theorem SlotsFilled.finish (h : SlotsFilled name axes points slots log s) :
    SlotsFilled name axes points slots log s.finish := by
  unfold SlottedHistogram.finish
  cases s.result with
  | none => exact ⟨h.template, h.points, h.size, h.inRange, h.filled⟩
  | some _ => exact h

theorem SlotsFilled.fill [LawfulFillNumber ν] (h : SlotsFilled name axes points slots log s)
    {slot : Nat} {row : List (WeightedPoint Float)} (hslot : slot < slots) (hrow : row.length = points)
    (hcoords : ∀ p ∈ row, p.coords.length = axes.length) :
    SlotsFilled name axes points slots (log ++ row.map fun p => (slot, p))
      (s.fill slot (SlottedCall.buffer row)) where
  template := h.template
  points := h.points
  size := by rw [SlottedHistogram.fill, Array.size_modify, h.size]
  inRange e he := by
    rcases List.mem_append.1 he with he | he
    · exact h.inRange e he
    · obtain ⟨p, -, rfl⟩ := List.mem_map.1 he
      exact hslot
  filled i hi := by
    rw [SlottedHistogram.fill, Array.getElem?_modify, ofSlot, List.filter_append, ← ofSlot,
      weighted_append, SparseHistogram.fillAll_append]
    by_cases hs : slot = i
    · subst hs
      have hall : (row.map fun p => (slot, p)).filter (fun e => e.1 = slot) =
          row.map fun p => (slot, p) := List.filter_eq_self.2 (by simp)
      rw [if_pos rfl, h.filled slot hi, Option.map_some, hall, h.points, ← hrow,
        SparseHistogram.fillRow_buffer _ _ fun p hp => by
          rw [SparseHistogram.dim, SparseHistogram.axes_fillAll]; exact hcoords p hp]
      rw [weighted_map_slot]
    · have hnone : (row.map fun p => (slot, p)).filter (fun e => e.1 = i) = [] :=
        List.filter_eq_nil_iff.2 (by simp [hs])
      rw [if_neg hs, h.filled i hi, hnone]
      rfl

/-- One call keeps the invariant. -/
theorem SlotsFilled.perform [LawfulFillNumber ν] (h : SlotsFilled name axes points slots log s)
    (c : SlottedCall) (hc : c.Allowed axes.length points slots) :
    SlotsFilled name axes points (c.slotsAfter slots) (c.logAfter log) (s.perform c) := by
  cases c with
  | prepare n => exact h.prepare n
  | fill slot row => exact h.fill hc.1 hc.2.1 hc.2.2
  | finish => exact h.finish

/-- A history of calls keeps the invariant. -/
theorem SlotsFilled.performAll [LawfulFillNumber ν] (h : SlotsFilled name axes points slots log s)
    (calls : List SlottedCall) (hc : SlottedCall.AllAllowed axes.length points slots calls) :
    SlotsFilled name axes points (calls.foldl SlottedCall.slotsAfter slots)
      (calls.foldl SlottedCall.logAfter log) (s.performAll calls) := by
  induction calls generalizing s slots log with
  | nil => exact h
  | cons c calls ih => exact ih (h.perform c hc.1) hc.2

theorem SlotsFilled.make {s : SlottedHistogram ν}
    (hm : SlottedHistogram.make name axes points slots = .ok s) :
    SlotsFilled name axes points slots [] s ∧ s.result = none := by
  unfold SlottedHistogram.make at hm
  cases ht : (SparseHistogram.make name axes : Except ConfigFault (SparseHistogram ν)) with
  | error e => rw [ht] at hm; cases hm
  | ok template =>
    rw [ht] at hm
    cases hm
    rw [SparseHistogram.make_eq_ok ht]
    have hstart : SlotsFilled name axes points 0 []
        (⟨name, .blank name axes, points, #[], none⟩ : SlottedHistogram ν) :=
      ⟨rfl, rfl, rfl, by simp, by simp⟩
    exact ⟨hstart.prepare slots, rfl⟩

/-- The slots, one after another. -/
theorem SlotsFilled.toList (h : SlotsFilled name axes points slots log s) :
    s.slots.toList = ((List.range slots).map fun i => weighted (ofSlot log i)).map
      (SparseHistogram.blank name axes).fillAll := by
  refine List.ext_getElem? fun i => ?_
  rw [Array.getElem?_toList, List.getElem?_map, List.getElem?_map]
  by_cases hi : i < slots
  · rw [h.filled i hi, List.getElem?_range hi]
    rfl
  · rw [Array.getElem?_eq_none (by rw [h.size]; omega), List.getElem?_eq_none (by simpa using hi)]
    rfl

/-- The sum of the slots holds what one histogram holds that is filled with all points, in any
order. -/
theorem SlotsFilled.merged (h : SlotsFilled name axes points slots log s) {M : Type}
    [AddCommMonoid M] {q : BinContent ν → M} (hq : BinContent.IsAdditive q)
    {order : List (WeightedPoint ν)} (ho : order.Perm (weighted log)) :
    SparseHistogram.AgreeOn q s.merged ((SparseHistogram.blank name axes).fillAll order) := by
  have hparts : (((List.range slots).map fun i => weighted (ν := ν) (ofSlot log i)).flatten).Perm
      (weighted log) := by
    rw [← List.flatMap_def]
    have hperm : ((List.range slots).flatMap (ofSlot log)).Perm log :=
      flatMap_filter_perm Prod.fst log h.inRange
    have := (hperm.filter fun e => !(e.2.weight == 0)).map
      fun e => (e.2.read : WeightedPoint ν)
    simpa [weighted, List.map_flatMap, List.filter_flatMap, Function.comp_def] using this
  rw [SlottedHistogram.merged, ← Array.foldl_toList, h.template, h.toList]
  exact (SparseHistogram.absorbAll_map_fillAll hq name axes _).trans
    (SparseHistogram.fillAll_perm hq _ (hparts.trans ho.symm))

/-! ## The result that is kept -/

theorem result_perform_of_some {r : SparseHistogram ν} (hs : s.result = some r)
    (c : SlottedCall) : (s.perform c).result = some r := by
  cases c with
  | prepare n => exact hs
  | fill slot row => exact hs
  | finish =>
    rw [perform, SlottedHistogram.finish, hs]
    exact hs

/-- A result is never replaced. -/
theorem result_performAll_of_some {r : SparseHistogram ν} (calls : List SlottedCall)
    (hs : s.result = some r) : (s.performAll calls).result = some r := by
  induction calls generalizing s with
  | nil => exact hs
  | cons c calls ih => exact ih (result_perform_of_some hs c)

/-- Before the first finish there is no result. -/
theorem result_performAll_of_not_mem (calls : List SlottedCall) (hs : s.result = none)
    (hf : SlottedCall.finish ∉ calls) : (s.performAll calls).result = none := by
  induction calls generalizing s with
  | nil => exact hs
  | cons c calls ih =>
    rw [List.mem_cons, not_or] at hf
    refine ih ?_ hf.2
    cases c with
    | prepare n => exact hs
    | fill slot row => exact hs
    | finish => exact absurd rfl hf.1

end SlottedHistogram

/-! ## Adding histograms -/

/-- Does every axis have bounds that are numbers? -/
def BoundsAreNumbers (axes : List Axis) : Prop :=
  ∀ a ∈ axes, a.lo.isNaN = false ∧ a.hi.isNaN = false

theorem Axis.beq_self (a : Axis) : (a == a) = (!a.lo.isNaN && !a.hi.isNaN) := by
  change (a.bins == a.bins && (a.lo == a.lo && a.hi == a.hi)) = _
  rw [Double.beq_self, Double.beq_self, beq_self_eq_true, Bool.true_and]

/-- Axes equal themselves exactly when all bounds are numbers. -/
theorem axes_beq_self_iff (axes : List Axis) : (axes == axes) = true ↔ BoundsAreNumbers axes := by
  induction axes with
  | nil => simp [BoundsAreNumbers]
  | cons a axes ih =>
    rw [List.cons_beq_cons, Bool.and_eq_true, ih, Axis.beq_self]
    simp [BoundsAreNumbers]

namespace SparseHistogram

variable {name : String}

theorem foldlM_add_of_axes {axes : List Axis} (ha : (axes == axes) = true)
    (order : List (SparseHistogram ν)) (ho : ∀ o ∈ order, o.axes = axes)
    (h : SparseHistogram ν) (hh : h.axes = axes) :
    order.foldlM add h = .ok (h.absorbAll order) := by
  induction order generalizing h with
  | nil => rfl
  | cons o order ih =>
    have hstep : h.add o = .ok (h.absorb o) := by
      rw [add, hh, ho o List.mem_cons_self, if_pos ha]
    rw [List.foldlM_cons, hstep]
    exact ih (fun p hp => ho p (List.mem_cons_of_mem _ hp)) (h.absorb o) hh

theorem foldlM_add_of_axes_ne {axes : List Axis} (ha : ¬(axes == axes) = true)
    {order : List (SparseHistogram ν)} (ho : ∀ o ∈ order, o.axes = axes ∧ o.name = name)
    (hne : order ≠ []) :
    order.foldlM add (blank name axes) = .error (.axesDiffer name name) := by
  cases order with
  | nil => exact absurd rfl hne
  | cons o order =>
    obtain ⟨hax, hname⟩ := ho o List.mem_cons_self
    have hstep : (blank name axes).add o = .error (.axesDiffer name name) := by
      rw [add, hax, hname]
      exact if_neg ha
    rw [List.foldlM_cons, hstep]
    rfl

end SparseHistogram

namespace SlottedHistogram

variable {name : String} {axes : List Axis} {points slots : Nat}
  {log : List (Nat × WeightedPoint Float)} {s : SlottedHistogram ν}

theorem SlotsFilled.of_mem_toList (h : SlotsFilled name axes points slots log s)
    {o : SparseHistogram ν} (ho : o ∈ s.slots.toList) : o.axes = axes ∧ o.name = name := by
  rw [h.toList] at ho
  obtain ⟨points, -, rfl⟩ := List.mem_map.1 ho
  exact ⟨SparseHistogram.axes_fillAll _ _, SparseHistogram.name_fillAll _ _⟩

/-- Adding the slots to a histogram without fills, in any order of slots, gives what the sum in
order gives. -/
theorem SlotsFilled.foldlM_add (h : SlotsFilled name axes points slots log s)
    (hb : BoundsAreNumbers axes) {order : List (SparseHistogram ν)}
    (ho : order.Perm s.slots.toList) :
    ∃ sum, order.foldlM SparseHistogram.add (.blank name axes) = .ok sum ∧
      ∀ {M : Type} [AddCommMonoid M] {q : BinContent ν → M}, BinContent.IsAdditive q →
        SparseHistogram.AgreeOn q sum s.merged := by
  refine ⟨_, SparseHistogram.foldlM_add_of_axes ((axes_beq_self_iff axes).2 hb) order
    (fun o hmem => (h.of_mem_toList (ho.mem_iff.1 hmem)).1) _ rfl, fun hq => ?_⟩
  rw [SlottedHistogram.merged, ← Array.foldl_toList, h.template]
  exact SparseHistogram.absorbAll_perm hq _ ho

/-- However a slotted histogram is made ready, filled and finished:

* its sum holds what one histogram holds that is filled with the points of weight other than zero
  since the slots were last made, in any order;
* so does the sum of its slots in any order, unless a bound of an axis is not a number, in which
  case slots are never added;
* a slot holds the points it was given, those of weight zero left out;
* there is no result before the first finish, and from then on it is the sum at the first finish.
-/
theorem slotted_accumulation [LawfulFillNumber ν] {start : SlottedHistogram ν}
    (hmake : make name axes points slots = .ok start) {calls : List SlottedCall}
    (hcalls : SlottedCall.AllAllowed axes.length points slots calls) :
    (∀ order : List (WeightedPoint ν), order.Perm (weighted (SlottedCall.logOf calls)) →
      (start.performAll calls).merged.SameCounts ((SparseHistogram.blank name axes).fillAll order) ∧
      ∀ _ : ExactAddition ν, (start.performAll calls).merged.SameContent
        ((SparseHistogram.blank name axes).fillAll order)) ∧
    (∀ order, order.Perm (start.performAll calls).slots.toList →
      (BoundsAreNumbers axes →
        ∃ sum, order.foldlM SparseHistogram.add (.blank name axes) = .ok sum ∧
          sum.SameCounts (start.performAll calls).merged ∧
          ∀ _ : ExactAddition ν, sum.SameContent (start.performAll calls).merged) ∧
      (¬BoundsAreNumbers axes → order ≠ [] →
        order.foldlM SparseHistogram.add (.blank name axes) = .error (.axesDiffer name name))) ∧
    (start.performAll calls).slots.toList =
      ((List.range (calls.foldl SlottedCall.slotsAfter slots)).map fun slot =>
        weighted (ofSlot (SlottedCall.logOf calls) slot)).map
          (SparseHistogram.blank name axes).fillAll ∧
    (SlottedCall.finish ∉ calls → (start.performAll calls).result = none) ∧
    ∀ before after, calls = before ++ .finish :: after → SlottedCall.finish ∉ before →
      (start.performAll calls).result = some (start.performAll before).merged := by
  obtain ⟨hstart, hnone⟩ := SlotsFilled.make hmake
  have h := hstart.performAll calls hcalls
  rw [← SlottedCall.logOf] at h
  refine ⟨fun order ho => ?_, fun order ho => ⟨fun hb => ?_, fun hb hne => ?_⟩, h.toList, ?_, ?_⟩
  · exact ⟨h.merged BinContent.additive_entries ho, fun _ => h.merged BinContent.additive_id ho⟩
  · obtain ⟨sum, hsum, hagree⟩ := h.foldlM_add hb ho
    exact ⟨sum, hsum, hagree BinContent.additive_entries,
      fun _ => hagree BinContent.additive_id⟩
  · exact SparseHistogram.foldlM_add_of_axes_ne (mt (axes_beq_self_iff axes).1 hb)
      (fun o hmem => h.of_mem_toList (ho.mem_iff.1 hmem)) hne
  · exact result_performAll_of_not_mem calls hnone
  · rintro before after rfl hbefore
    have hfirst := result_performAll_of_not_mem before hnone hbefore
    rw [performAll, List.foldl_append, List.foldl_cons]
    refine result_performAll_of_some after ?_
    change ((start.performAll before).finish).result = _
    rw [finish, hfirst]

/-- Two points in one bin, filled into two slots, and one of weight zero. -/
theorem slotted_accumulation_two_slots :
    ∃ start : SlottedHistogram Rat, make "h" [⟨2, 0, 2⟩] 1 2 = .ok start ∧
      (start.performAll [.fill 1 [⟨[0.5], 2⟩], .fill 0 [⟨[1.5], -0.0⟩], .fill 0 [⟨[0.5], 1⟩],
        .finish]).merged.SameContent
          ((SparseHistogram.blank "h" [⟨2, 0, 2⟩]).fillAll
            [WeightedPoint.read ⟨[0.5], 1⟩, WeightedPoint.read ⟨[0.5], 2⟩]) := by
  have hmake : ∃ start : SlottedHistogram Rat, make "h" [⟨2, 0, 2⟩] 1 2 = .ok start := ⟨_, rfl⟩
  obtain ⟨start, hmake⟩ := hmake
  refine ⟨start, hmake, ((slotted_accumulation hmake ?_).1 _ ?_).2 inferInstance⟩
  · refine ⟨⟨by decide, rfl, ?_⟩, ⟨by decide, rfl, ?_⟩, ⟨by decide, rfl, ?_⟩, trivial, trivial⟩ <;>
      simp
  · have hzero : ((-0.0 : Float) == 0) = true := by decide +kernel
    have hone : ((1 : Float) == 0) = false := by decide +kernel
    have htwo : ((2 : Float) == 0) = false := by decide +kernel
    simp only [SlottedCall.logOf, SlottedCall.logAfter, weighted, List.foldl_cons, List.foldl_nil,
      List.map_cons, List.map_nil, List.nil_append, List.cons_append, List.filter_cons,
      List.filter_nil, hzero, hone, htwo]
    exact List.Perm.swap _ _ _

/-- Histograms over an axis with a bound that is not a number are not added. -/
theorem nan_bound_never_added :
    ∃ start : SlottedHistogram Float, make "h" [⟨1, 0 / 0, 1⟩] 1 1 = .ok start ∧
      SlottedCall.AllAllowed 1 1 1 [.fill 0 [⟨[0.5], 1⟩]] ∧
      ¬∃ sum, (start.performAll [.fill 0 [⟨[0.5], 1⟩]]).slots.toList.foldlM SparseHistogram.add
        (.blank "h" [⟨1, 0 / 0, 1⟩]) = .ok sum := by
  have hmake : ∃ start : SlottedHistogram Float, make "h" [⟨1, 0 / 0, 1⟩] 1 1 = .ok start :=
    ⟨_, rfl⟩
  obtain ⟨start, hmake⟩ := hmake
  have hcalls : SlottedCall.AllAllowed 1 1 1 [.fill 0 [⟨[0.5], 1⟩]] :=
    ⟨⟨by decide, rfl, by simp⟩, trivial⟩
  have h := (SlotsFilled.make hmake).1.performAll _ hcalls
  have hnan : ¬(([⟨1, 0 / 0, 1⟩] : List Axis) == [⟨1, 0 / 0, 1⟩]) = true := by decide +kernel
  refine ⟨start, hmake, hcalls, ?_⟩
  rintro ⟨sum, hsum⟩
  rw [SparseHistogram.foldlM_add_of_axes_ne hnan (fun o => h.of_mem_toList)
    (by rw [h.toList]; simp [SlottedCall.slotsAfter])] at hsum
  cases hsum

end SlottedHistogram

end VariHist
