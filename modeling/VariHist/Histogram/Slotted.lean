import VariHist.Histogram.Sparse
import VariHist.Table.Aggregation

/-!
# Histograms filled slot by slot

An aggregation with one private histogram per slot.  The values of a row are a number of points,
each given by its coordinates and its weight; a point of weight zero leaves no trace.  When the
event loop is over, the slots are added up in order, and the first sum made is kept for good.
-/

namespace VariHist

variable {ν : Type} [FillNumber ν]

/-- Up to `count` pieces of `width` numbers each; numbers that do not make a piece are left out. -/
def pieces {β : Type} (width : Nat) : Nat → List β → List (List β)
  | 0, _ => []
  | count + 1, values =>
    if values.length < width then [] else values.take width :: pieces width count (values.drop width)

/-- A histogram with one part per slot. -/
structure SlottedHistogram (ν : Type) where
  name : String
  /-- What every slot starts from. -/
  template : SparseHistogram ν
  /-- The number of points per row. -/
  points : Nat
  slots : Array (SparseHistogram ν)
  /-- The sum of the slots when they were first put together. -/
  result : Option (SparseHistogram ν)

/-- Adds a point, given by its coordinates and then its weight, unless the weight is zero. -/
def SparseHistogram.fillPoint (h : SparseHistogram ν) (point : List ν) : SparseHistogram ν :=
  match point[h.dim]? with
  | none => h
  | some w => if FillNumber.isZero w then h else h.fill (point.take h.dim) w

/-- Adds the points of a row. -/
def SparseHistogram.fillRow (h : SparseHistogram ν) (points : Nat) (values : List ν) :
    SparseHistogram ν :=
  (pieces (h.dim + 1) points values).foldl SparseHistogram.fillPoint h

namespace SlottedHistogram

/-- Starts over with a number of slots. -/
def prepare (slots : Nat) (s : SlottedHistogram ν) : SlottedHistogram ν :=
  { s with slots := Array.replicate slots s.template }

/-- A histogram with empty slots. -/
def make (name : String) (axes : List Axis) (points slots : Nat) :
    Except ConfigFault (SlottedHistogram ν) := do
  let template ← SparseHistogram.make name axes
  return prepare slots ⟨name, template, points, #[], none⟩

/-- Adds the values of a row to a slot. -/
def fill (slot : Nat) (values : List Float) (s : SlottedHistogram ν) : SlottedHistogram ν :=
  { s with
    slots := s.slots.modify slot fun h => h.fillRow s.points (values.map FillNumber.ofFloat) }

/-- The sum of the slots, in order. -/
def merged (s : SlottedHistogram ν) : SparseHistogram ν :=
  s.slots.foldl SparseHistogram.absorb s.template

/-- Keeps the sum of the slots, if none is kept yet. -/
def finish (s : SlottedHistogram ν) : SlottedHistogram ν :=
  match s.result with
  | none => { s with result := some s.merged }
  | some _ => s

instance : Aggregation (SlottedHistogram ν) where
  name := SlottedHistogram.name
  prepare := prepare
  slotCount s := s.slots.size
  openSlot _ s := s
  fill := fill
  finish := finish

end SlottedHistogram

/-- Aggregations among which there are slotted histograms. -/
class HoldsHistograms (α : Type) (ν : outParam Type) where
  ofHistogram : SlottedHistogram ν → α
  histogram? : α → Option (SlottedHistogram ν)

instance : HoldsHistograms (SlottedHistogram ν) ν where
  ofHistogram := id
  histogram? := some

instance {α β : Type} [HoldsHistograms β ν] : HoldsHistograms (α ⊕ β) ν where
  ofHistogram h := .inr (HoldsHistograms.ofHistogram h)
  histogram? := Sum.elim (fun _ => none) HoldsHistograms.histogram?

end VariHist
