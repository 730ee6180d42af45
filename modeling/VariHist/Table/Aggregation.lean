/-!
# Aggregations

An aggregation collects the values of a vector column during an event loop.  It keeps one state per
slot, so that the slots can work side by side: it is asked to prepare a number of slots, each slot
is opened once and then filled with the values of its rows, and after all slots are done the
aggregation is finished.  An operation on one slot must leave the others alone.
-/

namespace VariHist

/-- Types whose values collect columns slot by slot. -/
class Aggregation (α : Type) where
  /-- The name used in messages. -/
  name : α → String
  /-- Makes ready for a number of slots, forgetting what the slots held. -/
  prepare : Nat → α → α
  /-- The number of slots it is ready for. -/
  slotCount : α → Nat
  /-- Opens a slot. -/
  openSlot : Nat → α → α
  /-- Adds the values of one row to a slot. -/
  fill : Nat → List Float → α → α
  /-- Puts the slots together. -/
  finish : α → α

namespace Aggregation

/-- Aggregations of two types side by side. -/
instance {α β : Type} [Aggregation α] [Aggregation β] : Aggregation (α ⊕ β) where
  name := Sum.elim name name
  prepare n := Sum.map (prepare n) (prepare n)
  slotCount := Sum.elim slotCount slotCount
  openSlot i := Sum.map (openSlot i) (openSlot i)
  fill i values := Sum.map (fill i values) (fill i values)
  finish := Sum.map finish finish

end Aggregation

end VariHist
