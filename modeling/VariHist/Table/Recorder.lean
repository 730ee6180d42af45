import VariHist.Table.Aggregation

/-!
# The recording aggregation

A recorder keeps every call that the event loop makes: which numbers of slots it was asked for, how
often each slot was opened, what each slot was filled with, and how often it was finished.  It can
be told to hold back some of the slots that it is asked for, which makes the event loop refuse to
start.
-/

namespace VariHist

/-- What happened to one slot. -/
structure SlotRecord where
  /-- How often it was opened. -/
  opened : Nat
  /-- What it was filled with, oldest first. -/
  fills : Array (List Float)
  deriving Inhabited

/-- An aggregation that keeps the calls made to it. -/
structure Recorder where
  name : String
  /-- How many of the slots asked for are not made. -/
  heldBack : Nat
  /-- The numbers of slots asked for, oldest first. -/
  prepared : List Nat
  slots : Array SlotRecord
  /-- How often it was finished. -/
  finished : Nat

namespace Recorder

/-- A recorder that has seen nothing. -/
def make (name : String) (heldBack : Nat) : Recorder :=
  ⟨name, heldBack, [], #[], 0⟩

instance : Aggregation Recorder where
  name := Recorder.name
  prepare n r :=
    { r with
      prepared := r.prepared ++ [n]
      slots := Array.replicate (n - r.heldBack) ⟨0, #[]⟩ }
  slotCount r := r.slots.size
  openSlot i r := { r with slots := r.slots.modify i fun s => { s with opened := s.opened + 1 } }
  fill i values r :=
    { r with slots := r.slots.modify i fun s => { s with fills := s.fills.push values } }
  finish r := { r with finished := r.finished + 1 }

end Recorder

end VariHist
