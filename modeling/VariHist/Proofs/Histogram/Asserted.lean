import Mathlib
import VariHist.Proofs.Histogram.Accumulation
import VariHist.Proofs.Table.Traced

/-!
# Histograms with assertions

A histogram takes for granted that a buffer holds as many values as the points of a row need, that a
point has a coordinate for each axis, and that what is added up has the same axes.  Here all of this
is asserted before it is made use of, and an assertion that does not hold ends everything.

* `SparseHistogram.assertedFill`, `assertedFillRow` and `assertedAbsorb` — the places of the
  assertions; `SlottedHistogram.assertedPerform` is a call with assertions.
* `SlottedHistogram.Over` — the invariant: what the slots start from and all slots have the axes
  that the histogram was made with.
* `SlottedHistogram.Over.assertedAll` — no assertion fails as long as all buffers have the right
  length, and adding up takes axes that are equal to themselves.
-/

namespace VariHist

variable {ν : Type} [FillNumber ν]

/-! ## The assertions -/

namespace SparseHistogram

/-- Adds a weight at a point, which must have a coordinate for each axis. -/
def assertedFill (h : SparseHistogram ν) (point : List ν) (w : ν) : Option (SparseHistogram ν) :=
  if point.length = h.dim then some (h.fill point w) else none

/-- Adds a point, given by its coordinates and then its weight, unless the weight is zero. -/
def assertedFillPoint (h : SparseHistogram ν) (point : List ν) : Option (SparseHistogram ν) :=
  match point[h.dim]? with
  | none => some h
  | some w =>
    if FillNumber.isZero w then some h else h.assertedFill (point.take h.dim) w

/-- Adds the points of a row, which must be as long as they all are together. -/
def assertedFillRow (h : SparseHistogram ν) (points : Nat) (values : List ν) :
    Option (SparseHistogram ν) :=
  if values.length = points * (h.dim + 1) then
    (pieces (h.dim + 1) points values).foldlM assertedFillPoint h
  else none

/-- Adds the contents of a histogram, which must be over equal axes. -/
def assertedAbsorb (h other : SparseHistogram ν) : Option (SparseHistogram ν) :=
  if h.axes == other.axes then some (h.absorb other) else none

end SparseHistogram

namespace SlottedHistogram

/-- Adds the values of a row to a slot. -/
def assertedFill (slot : Nat) (values : List Float) (s : SlottedHistogram ν) :
    Option (SlottedHistogram ν) :=
  match s.slots[slot]? with
  | none => some s
  | some h => (h.assertedFillRow s.points (values.map FillNumber.ofFloat)).map fun filled =>
    { s with slots := s.slots.modify slot fun _ => filled }

/-- The sum of the slots, in order. -/
def assertedMerged (s : SlottedHistogram ν) : Option (SparseHistogram ν) :=
  s.slots.toList.foldlM SparseHistogram.assertedAbsorb s.template

/-- Adds up the slots, and keeps the sum if none is kept yet. -/
def assertedFinish (s : SlottedHistogram ν) : Option (SlottedHistogram ν) :=
  s.assertedMerged.map fun sum =>
    match s.result with
    | none => { s with result := some sum }
    | some _ => s

/-- Carries out a call. -/
def assertedPerform (s : SlottedHistogram ν) : ActionCall → Option (SlottedHistogram ν)
  | .prepare slots => some (s.prepare slots)
  | .toSlot _ .openSlot => some s
  | .toSlot slot (.fill values) => s.assertedFill slot values
  | .finish => s.assertedFinish

/-- Carries out calls one after another. -/
def assertedAll (s : SlottedHistogram ν) (calls : List ActionCall) : Option (SlottedHistogram ν) :=
  calls.foldlM assertedPerform s

end SlottedHistogram

/-! ## Rows -/

omit [FillNumber ν] in
theorem length_of_mem_pieces {width count : Nat} {values piece : List ν}
    (h : piece ∈ pieces width count values) : piece.length = width := by
  induction count generalizing values with
  | zero => cases h
  | succ count ih =>
    rw [pieces] at h
    split_ifs at h with hshort
    · cases h
    · rcases List.mem_cons.1 h with rfl | h
      · rw [List.length_take, Nat.min_eq_left (not_lt.1 hshort)]
      · exact ih h

namespace SparseHistogram

variable {h : SparseHistogram ν}

theorem axes_fillPoint (h : SparseHistogram ν) (point : List ν) :
    (h.fillPoint point).axes = h.axes := by
  unfold fillPoint
  split
  · rfl
  · split_ifs
    · rfl
    · rfl

/-- A piece of the right length has a coordinate for each axis. -/
theorem assertedFillPoint_eq {point : List ν} (hp : point.length = h.dim + 1) :
    h.assertedFillPoint point = some (h.fillPoint point) := by
  have hw : point[h.dim]? = some point[h.dim] := List.getElem?_eq_getElem (by omega)
  have hcoords : (point.take h.dim).length = h.dim := by
    rw [List.length_take, hp]
    omega
  rw [assertedFillPoint, fillPoint, hw]
  dsimp only
  rw [assertedFill, if_pos hcoords, apply_ite some]

theorem foldlM_assertedFillPoint {l : List (List ν)} (hl : ∀ p ∈ l, p.length = h.dim + 1) :
    l.foldlM assertedFillPoint h = some (l.foldl fillPoint h) := by
  induction l generalizing h with
  | nil => rfl
  | cons p l ih =>
    obtain ⟨hp, hrest⟩ := List.forall_mem_cons.1 hl
    rw [List.foldlM_cons, assertedFillPoint_eq hp, List.foldl_cons]
    refine ih ?_
    rwa [dim, axes_fillPoint]

/-- A buffer of the right length is filled. -/
theorem assertedFillRow_eq {points : Nat} {values : List ν}
    (hlen : values.length = points * (h.dim + 1)) :
    h.assertedFillRow points values = some (h.fillRow points values) := by
  rw [assertedFillRow, if_pos hlen]
  exact foldlM_assertedFillPoint fun _ => length_of_mem_pieces

theorem axes_fillRow (h : SparseHistogram ν) (points : Nat) (values : List ν) :
    (h.fillRow points values).axes = h.axes := by
  rw [fillRow]
  generalize pieces (h.dim + 1) points values = l
  induction l generalizing h with
  | nil => rfl
  | cons p l ih => rw [List.foldl_cons, ih, axes_fillPoint]

/-- Histograms over axes that are equal to themselves can be added up. -/
theorem foldlM_assertedAbsorb {axes : List Axis} (haxes : (axes == axes) = true)
    {l : List (SparseHistogram ν)} (hl : ∀ g ∈ l, g.axes = axes) (hh : h.axes = axes) :
    l.foldlM assertedAbsorb h = some (l.foldl absorb h) := by
  induction l generalizing h with
  | nil => rfl
  | cons g l ih =>
    obtain ⟨hg, hrest⟩ := List.forall_mem_cons.1 hl
    have habsorb : h.assertedAbsorb g = some (h.absorb g) := by
      rw [assertedAbsorb, hg, hh, if_pos haxes]
    rw [List.foldlM_cons, habsorb, List.foldl_cons]
    exact ih hrest hh

end SparseHistogram

/-! ## Calls -/

theorem modify_of_getElem?_eq_none {β : Type} {xs : Array β} {i : Nat} (h : xs[i]? = none)
    (f : β → β) : xs.modify i f = xs := by
  refine Array.ext_getElem? fun j => ?_
  rw [Array.getElem?_modify]
  split_ifs with hj
  · rw [← hj, h, Option.map_none]
  · rfl

/-- Only the element that is there matters. -/
theorem modify_of_getElem?_eq_some {β : Type} {xs : Array β} {i : Nat} {x : β}
    (h : xs[i]? = some x) (f : β → β) : xs.modify i f = xs.modify i fun _ => f x := by
  refine Array.ext_getElem? fun j => ?_
  rw [Array.getElem?_modify, Array.getElem?_modify]
  split_ifs with hj
  · rw [← hj, h, Option.map_some, Option.map_some]
  · rfl

/-- Does the call hand over as many values as are expected, if it hands over a buffer? -/
def ActionCall.Fits (length : Nat) : ActionCall → Prop
  | toSlot _ (.fill values) => values.length = length
  | _ => True

namespace SlottedHistogram

variable {axes : List Axis} {points slots : Nat} {name : String} {s : SlottedHistogram ν}

/-- What the slots start from and the slots themselves are over the axes. -/
structure Over (axes : List Axis) (points : Nat) (s : SlottedHistogram ν) : Prop where
  template : s.template.axes = axes
  points : s.points = points
  slots : ∀ h ∈ s.slots.toList, h.axes = axes

theorem Over.make (h : SlottedHistogram.make name axes points slots = .ok s) :
    s.Over axes points := by
  obtain ⟨hstart, -⟩ := SlotsFilled.make h
  refine ⟨?_, hstart.points, fun g hg => (hstart.of_mem_toList hg).1⟩
  rw [hstart.template]
  rfl

omit [FillNumber ν] in
theorem Over.prepare (h : s.Over axes points) (n : Nat) : (s.prepare n).Over axes points := by
  refine ⟨h.template, h.points, fun g hg => ?_⟩
  rw [SlottedHistogram.prepare, Array.toList_replicate] at hg
  rw [List.eq_of_mem_replicate hg, h.template]

theorem Over.fill (h : s.Over axes points) (slot : Nat) (values : List Float) :
    (s.fill slot values).Over axes points := by
  refine ⟨h.template, h.points, fun g hg => ?_⟩
  obtain ⟨i, hi⟩ := List.mem_iff_getElem?.1 hg
  rw [Array.getElem?_toList, SlottedHistogram.fill, Array.getElem?_modify] at hi
  split_ifs at hi
  · obtain ⟨g', hg', rfl⟩ := Option.map_eq_some_iff.1 hi
    rw [SparseHistogram.axes_fillRow]
    exact h.slots g' (List.mem_of_getElem? (by rwa [Array.getElem?_toList]))
  · exact h.slots g (List.mem_of_getElem? (by rwa [Array.getElem?_toList]))

theorem Over.finish (h : s.Over axes points) : s.finish.Over axes points := by
  unfold SlottedHistogram.finish
  cases s.result with
  | none => exact ⟨h.template, h.points, h.slots⟩
  | some _ => exact h

/-- A buffer of the right length can be filled into every slot. -/
theorem Over.assertedFill (h : s.Over axes points) (slot : Nat) {values : List Float}
    (hlen : values.length = points * (axes.length + 1)) :
    s.assertedFill slot values = some (s.fill slot values) := by
  unfold SlottedHistogram.assertedFill SlottedHistogram.fill
  cases hslot : s.slots[slot]? with
  | none => rw [modify_of_getElem?_eq_none hslot]
  | some g =>
    have hg : g.axes = axes :=
      h.slots g (List.mem_of_getElem? (by rwa [Array.getElem?_toList]))
    have hrow : g.assertedFillRow s.points (values.map FillNumber.ofFloat) =
        some (g.fillRow s.points (values.map FillNumber.ofFloat)) :=
      SparseHistogram.assertedFillRow_eq (by
        rw [List.length_map, hlen, h.points, SparseHistogram.dim, hg])
    dsimp only
    rw [hrow, Option.map_some, modify_of_getElem?_eq_some hslot
      fun g => g.fillRow s.points (values.map FillNumber.ofFloat)]

/-- Slots over axes that are equal to themselves can be added up. -/
theorem Over.assertedFinish (h : s.Over axes points) (haxes : BoundsAreNumbers axes) :
    s.assertedFinish = some s.finish := by
  have hsum : s.assertedMerged = some s.merged := by
    rw [assertedMerged, merged, ← Array.foldl_toList]
    exact SparseHistogram.foldlM_assertedAbsorb ((axes_beq_self_iff axes).2 haxes) h.slots
      h.template
  rw [SlottedHistogram.assertedFinish, hsum, Option.map_some]
  rfl

/-- One call: no assertion fails, and the invariant is kept. -/
theorem Over.perform (h : s.Over axes points) (c : ActionCall)
    (hc : c.Fits (points * (axes.length + 1))) (hfinish : c = .finish → BoundsAreNumbers axes) :
    s.assertedPerform c = some (c.perform s) ∧ (c.perform s).Over axes points := by
  cases c with
  | prepare n => exact ⟨rfl, h.prepare n⟩
  | toSlot slot call =>
    cases call with
    | openSlot => exact ⟨rfl, h⟩
    | fill values => exact ⟨h.assertedFill slot hc, h.fill slot values⟩
  | finish => exact ⟨h.assertedFinish (hfinish rfl), h.finish⟩

/-- A history of calls: no assertion fails. -/
theorem Over.assertedAll (h : s.Over axes points) {calls : List ActionCall}
    (hcalls : ∀ c ∈ calls, c.Fits (points * (axes.length + 1)))
    (hfinish : .finish ∈ calls → BoundsAreNumbers axes) :
    s.assertedAll calls = some (calls.foldl (fun s c => c.perform s) s) := by
  induction calls generalizing s with
  | nil => rfl
  | cons c calls ih =>
    obtain ⟨hc, hrest⟩ := List.forall_mem_cons.1 hcalls
    obtain ⟨hstep, hover⟩ := h.perform c hc fun heq => hfinish (heq ▸ List.mem_cons_self)
    rw [SlottedHistogram.assertedAll, List.foldlM_cons, hstep, List.foldl_cons]
    exact ih hover hrest fun hmem => hfinish (List.mem_cons_of_mem c hmem)

end SlottedHistogram

end VariHist
