import Mathlib
import VariHist.Table.RowRange

/-!
# Sharing out the rows

Each slot of an event loop gets one range of rows.  What is asked of the ranges can be said without
the quotient and the remainder by which they are worked out, and it leaves no choice.

* `RowRange.stop_ofSlot` — a range stops where the next one starts; with it, what is known of the
  first start and of the last stop is known of all rows.
* `flatMap_rows_ofSlot` — the slots share out all rows, in order.
* `RowRange.SharesOut`, `RowRange.sharesOut_split` — what sharing out means: ranges end to end from
  the first row to the last, of lengths that differ by one at most, the longer ones first.
* `RowRange.SharesOut.unique` — there is one way to share out.
* `RowRange.cut`, `RowRange.cut_eq` — the ranges are cut off one after another, with the start of
  the next one carried along.  The sums on the way reach the number of rows and go no further.
-/

namespace VariHist

namespace RowRange

/-! ## Where ranges start and stop -/

/-- The row after the last one of a range. -/
def stop (r : RowRange) : Nat :=
  r.first + r.count

theorem first_ofSlot_zero (rows slots : Nat) : (ofSlot rows slots 0).first = 0 := by
  simp [ofSlot]

/-- A range stops where the next one starts. -/
theorem stop_ofSlot (rows slots slot : Nat) :
    (ofSlot rows slots slot).stop = (ofSlot rows slots (slot + 1)).first := by
  change slot * (rows / slots) + min slot (rows % slots) +
      (rows / slots + if slot < rows % slots then 1 else 0) =
    (slot + 1) * (rows / slots) + min (slot + 1) (rows % slots)
  rw [Nat.succ_mul]
  split <;> omega

/-- A slot after the last one would start after the last row. -/
theorem first_ofSlot_slots (rows : Nat) {slots : Nat} (hs : 1 ≤ slots) :
    (ofSlot rows slots slots).first = rows := by
  have hextra : min slots (rows % slots) = rows % slots :=
    Nat.min_eq_right (Nat.mod_lt rows hs).le
  change slots * (rows / slots) + min slots (rows % slots) = rows
  rw [hextra, Nat.div_add_mod]

theorem first_ofSlot_mono (rows slots : Nat) :
    Monotone fun slot => (ofSlot rows slots slot).first :=
  monotone_nat_of_le_succ fun slot =>
    (Nat.le_add_right _ _).trans (stop_ofSlot rows slots slot).le

theorem getElem?_split (rows : Nat) {slots slot : Nat} (h : slot < slots) :
    (split rows slots)[slot]? = some (ofSlot rows slots slot) := by
  rw [split, List.getElem?_map, List.getElem?_range h, Option.map_some]

end RowRange

/-- The ranges of the first slots are the rows up to the next one. -/
theorem flatMap_rows_ofSlot_take (rows slots n : Nat) :
    ((List.range n).flatMap fun slot => (RowRange.ofSlot rows slots slot).rows) =
      List.range (RowRange.ofSlot rows slots n).first := by
  induction n with
  | zero => rw [RowRange.first_ofSlot_zero, List.range_zero, List.flatMap_nil]
  | succ n ih =>
    -- the rows before the range, and then its own rows
    have happ := @List.range'_append_1 0 (RowRange.ofSlot rows slots n).first
      (RowRange.ofSlot rows slots n).count
    rw [Nat.zero_add] at happ
    rw [List.range_succ, List.flatMap_append, ih, List.flatMap_singleton, List.range_eq_range',
      List.range_eq_range', ← RowRange.stop_ofSlot, RowRange.stop, ← happ, RowRange.rows]

/-- The slots share out all rows, in order. -/
theorem flatMap_rows_ofSlot (rows : Nat) {slots : Nat} (hs : 1 ≤ slots) :
    ((List.range slots).flatMap fun slot => (RowRange.ofSlot rows slots slot).rows) =
      List.range rows := by
  rw [flatMap_rows_ofSlot_take, RowRange.first_ofSlot_slots rows hs]

theorem mem_rows_ofSlot_lt {rows slots slot row : Nat} (hslot : slot < slots)
    (h : row ∈ (RowRange.ofSlot rows slots slot).rows) : row < rows := by
  have hslots : 1 ≤ slots := by omega
  rw [← List.mem_range, ← flatMap_rows_ofSlot rows hslots]
  exact List.mem_flatMap.2 ⟨slot, List.mem_range.2 hslot, h⟩

namespace RowRange

variable {rows slots : Nat}

/-! ## What sharing out means -/

/-- Ranges that share out the rows of a table among slots. -/
structure SharesOut (rows slots : Nat) (ranges : List RowRange) : Prop where
  /-- There is one range for each slot. -/
  length : ranges.length = slots
  /-- The first range starts at the first row. -/
  starts : ∃ r, ranges.head? = some r ∧ r.first = 0
  /-- Each range stops where the next one starts. -/
  contiguous : ranges.IsChain fun r next => r.stop = next.first
  /-- The last range stops after the last row. -/
  ends : ∃ r, ranges.getLast? = some r ∧ r.stop = rows
  /-- One after another, the ranges hold each row once and in order. -/
  covers : ranges.flatMap RowRange.rows = List.range rows
  /-- The lengths of any two ranges differ by one at most. -/
  balanced : ∀ r ∈ ranges, ∀ s ∈ ranges, r.count ≤ s.count + 1
  /-- The longer ranges come first. -/
  longerFirst : ranges.Pairwise fun r s => s.count ≤ r.count
  /-- Slots beyond the number of rows get nothing. -/
  idle : ∀ slot r, ranges[slot]? = some r → rows ≤ slot → r.count = 0

/-- The ranges of the slots share out the rows. -/
theorem sharesOut_split (rows : Nat) (hs : 1 ≤ slots) :
    SharesOut rows slots (split rows slots) where
  length := by rw [split, List.length_map, List.length_range]
  starts := by
    refine ⟨ofSlot rows slots 0, ?_, first_ofSlot_zero rows slots⟩
    rw [List.head?_eq_getElem?, getElem?_split rows hs]
  contiguous := by
    rw [split, List.isChain_map, List.isChain_range]
    exact fun slot _ => stop_ofSlot rows slots slot
  ends := by
    refine ⟨ofSlot rows slots (slots - 1), ?_, ?_⟩
    · rw [List.getLast?_eq_getElem?, split, List.length_map, List.length_range, ← split,
        getElem?_split rows (by omega)]
    · rw [stop_ofSlot, Nat.sub_add_cancel hs, first_ofSlot_slots rows hs]
  covers := by rw [split, List.flatMap_map, flatMap_rows_ofSlot rows hs]
  balanced := by
    intro r hr s hs
    obtain ⟨i, -, rfl⟩ := List.mem_map.1 hr
    obtain ⟨j, -, rfl⟩ := List.mem_map.1 hs
    simp only [ofSlot]
    split_ifs <;> omega
  longerFirst := by
    refine List.pairwise_map.2 (List.pairwise_lt_range.imp fun {i j} hij => ?_)
    simp only [ofSlot]
    split_ifs <;> omega
  idle := by
    intro slot r hr hle
    obtain ⟨hlt, -⟩ := List.getElem?_eq_some_iff.1 hr
    rw [split, List.length_map, List.length_range] at hlt
    rw [getElem?_split rows hlt] at hr
    obtain rfl := Option.some.inj hr
    -- fewer rows than slots: nothing goes round, and the remainder is used up before this slot
    have hfew : rows < slots := hle.trans_lt hlt
    simp only [ofSlot, Nat.div_eq_of_lt hfew, Nat.mod_eq_of_lt hfew]
    rw [if_neg (not_lt.2 hle)]

/-! ## There is one way to share out -/

/-- Two lists have one length and one sum.  If the first never falls more than one below its head,
and the second never rises above its head, then the head of the first is not the greater one. -/
theorem head_le_head {m n : Nat} {ms ns : List Nat} (hlength : ms.length = ns.length)
    (hsum : (m :: ms).sum = (n :: ns).sum) (hclose : ∀ k ∈ ms, m ≤ k + 1)
    (hfall : ∀ k ∈ ns, k ≤ n) : m ≤ n := by
  by_contra hlt
  have hlow : ms.length • n ≤ ms.sum :=
    List.card_nsmul_le_sum ms n fun k hk => by
      have := hclose k hk
      omega
  have hhigh : ns.sum ≤ ns.length • n := List.sum_le_card_nsmul ns n hfall
  rw [List.sum_cons, List.sum_cons] at hsum
  rw [hlength] at hlow
  omega

/-- Numbers that fall by one at most are known by their sum and length. -/
theorem eq_of_sum_eq {ms ns : List Nat} (hlength : ms.length = ns.length) (hsum : ms.sum = ns.sum)
    (hm : ms.Pairwise fun k later => later ≤ k ∧ k ≤ later + 1)
    (hn : ns.Pairwise fun k later => later ≤ k ∧ k ≤ later + 1) : ms = ns := by
  -- the heads are the same, so that the same is left for the tails
  induction ms generalizing ns with
  | nil => exact (List.length_eq_zero_iff.1 hlength.symm).symm
  | cons m ms ih =>
    cases ns with
    | nil => cases hlength
    | cons n ns =>
      obtain ⟨hm, hms⟩ := List.pairwise_cons.1 hm
      obtain ⟨hn, hns⟩ := List.pairwise_cons.1 hn
      have hlength' : ms.length = ns.length := Nat.succ.inj hlength
      have hhead : m = n := Nat.le_antisymm
        (head_le_head hlength' hsum (fun k hk => (hm k hk).2) fun k hk => (hn k hk).1)
        (head_le_head hlength'.symm hsum.symm (fun k hk => (hn k hk).2) fun k hk => (hm k hk).1)
      subst hhead
      rw [List.sum_cons, List.sum_cons] at hsum
      rw [ih hlength' (Nat.add_left_cancel hsum) hms hns]

/-- Ranges of given lengths, laid end to end. -/
def layOut (start : Nat) : List Nat → List RowRange
  | [] => []
  | count :: counts => ⟨start, count⟩ :: layOut (start + count) counts

/-- Ranges that lie end to end are known by their lengths and where the first one starts. -/
theorem eq_layOut {start : Nat} {ranges : List RowRange}
    (hstart : ∀ r ∈ ranges.head?, r.first = start)
    (h : ranges.IsChain fun r next => r.stop = next.first) :
    ranges = layOut start (ranges.map count) := by
  induction ranges generalizing start with
  | nil => rfl
  | cons r ranges ih =>
    obtain ⟨hnext, hranges⟩ := List.isChain_cons.1 h
    have hr : r.first = start := hstart r rfl
    subst hr
    rw [List.map_cons, layOut, ← stop, ← ih (fun s hs => (hnext s hs).symm) hranges]

namespace SharesOut

variable {ranges others : List RowRange}

/-- The lengths of the ranges add up to the number of rows. -/
theorem sum_count (h : SharesOut rows slots ranges) : (ranges.map count).sum = rows := by
  have hlength := congrArg List.length h.covers
  simpa [List.length_flatMap, RowRange.rows] using hlength

/-- The lengths fall from range to range, by one at most over all of them. -/
theorem falls (h : SharesOut rows slots ranges) :
    (ranges.map count).Pairwise fun k later => later ≤ k ∧ k ≤ later + 1 :=
  List.pairwise_map.2 <| h.longerFirst.imp_of_mem fun hr hs hle => ⟨hle, h.balanced _ hr _ hs⟩

theorem eq_layOut (h : SharesOut rows slots ranges) : ranges = layOut 0 (ranges.map count) := by
  obtain ⟨r, hr, hfirst⟩ := h.starts
  refine RowRange.eq_layOut (fun s hs => ?_) h.contiguous
  obtain rfl := Option.some.inj (hr.symm.trans hs)
  exact hfirst

/-- There is one way to share out. -/
theorem unique (h : SharesOut rows slots ranges) (h' : SharesOut rows slots others) :
    ranges = others := by
  have hlength : (ranges.map count).length = (others.map count).length := by
    rw [List.length_map, List.length_map, h.length, h'.length]
  rw [h.eq_layOut, h'.eq_layOut,
    eq_of_sum_eq hlength (h.sum_count.trans h'.sum_count.symm) h.falls h'.falls]

end SharesOut

/-! ## One range after another -/

/-- A sum that is not above a limit. -/
def sumWithin (limit a b : Nat) : Option Nat :=
  if a + b ≤ limit then some (a + b) else none

/-- Cuts off the range of a slot; the state is the first row that is left. -/
def cutSlot (limit share extra slot : Nat) : StateT Nat Option RowRange := do
  let count ← sumWithin limit share (if slot < extra then 1 else 0)
  let start ← get
  let next ← sumWithin limit start count
  set next
  return ⟨start, count⟩

/-- Cuts off the ranges of all slots, in order.  There is no result if there is no slot to divide
by, or if a sum is above a limit, such as the largest number that a machine word can hold. -/
def cut (limit rows slots : Nat) : Option (List RowRange) :=
  if slots = 0 then none
  else ((List.range slots).mapM (cutSlot limit (rows / slots) (rows % slots))).run' 0

/-- Cutting off a range goes through if it stops within the limit, and leaves the start of the
next one. -/
theorem run_cutSlot (limit rows slots slot : Nat) :
    (cutSlot limit (rows / slots) (rows % slots) slot).run (ofSlot rows slots slot).first =
      if (ofSlot rows slots (slot + 1)).first ≤ limit then
        some (ofSlot rows slots slot, (ofSlot rows slots (slot + 1)).first)
      else none := by
  have hcount : rows / slots + (if slot < rows % slots then 1 else 0) =
      (ofSlot rows slots slot).count := rfl
  rw [← stop_ofSlot, stop]
  by_cases hstop : (ofSlot rows slots slot).first + (ofSlot rows slots slot).count ≤ limit
  · have hle : (ofSlot rows slots slot).count ≤ limit := (Nat.le_add_left _ _).trans hstop
    simp [cutSlot, sumWithin, hcount, hle, hstop]
  · -- either the length alone is above the limit, or the stop is
    by_cases hle : (ofSlot rows slots slot).count ≤ limit
    · simp [cutSlot, sumWithin, hcount, hle, hstop]
    · simp [cutSlot, sumWithin, hcount, hle, hstop]

/-- Cutting off the ranges of some slots goes through if the last of them stops within the limit. -/
theorem run_mapM_cutSlot (limit rows slots slot n : Nat)
    (hstart : (ofSlot rows slots slot).first ≤ limit) :
    ((List.range' slot n).mapM (cutSlot limit (rows / slots) (rows % slots))).run
        (ofSlot rows slots slot).first =
      if (ofSlot rows slots (slot + n)).first ≤ limit then
        some ((List.range' slot n).map (ofSlot rows slots), (ofSlot rows slots (slot + n)).first)
      else none := by
  induction n generalizing slot with
  | zero =>
    rw [Nat.add_zero, if_pos hstart]
    rfl
  | succ n ih =>
    have hmono : (ofSlot rows slots (slot + 1)).first ≤
        (ofSlot rows slots (slot + (n + 1))).first := first_ofSlot_mono rows slots (by omega)
    rw [List.range'_succ, List.mapM_cons, StateT.run_bind, run_cutSlot]
    by_cases hnext : (ofSlot rows slots (slot + 1)).first ≤ limit
    · rw [if_pos hnext]
      simp only [Option.bind_eq_bind, Option.bind_some, StateT.run_bind, ih _ hnext]
      rw [Nat.add_right_comm, Nat.add_assoc]
      split_ifs
      · rfl
      · rfl
    · rw [if_neg hnext, if_neg fun hlast => hnext (hmono.trans hlast)]
      rfl

/-- Cut off one after another, the ranges are those of the slots, as long as the number of rows is
within the limit.  If it is above, so is one of the sums. -/
theorem cut_eq (limit rows : Nat) {slots : Nat} (hs : 1 ≤ slots) :
    cut limit rows slots = if rows ≤ limit then some (split rows slots) else none := by
  have hrun := run_mapM_cutSlot limit rows slots 0 slots
    ((first_ofSlot_zero rows slots).trans_le (Nat.zero_le limit))
  rw [Nat.zero_add, first_ofSlot_zero, first_ofSlot_slots rows hs, ← List.range_eq_range'] at hrun
  rw [cut, if_neg (by omega), StateT.run'_eq, hrun, split]
  split_ifs <;> rfl

example : cut 10 10 3 = some [⟨0, 4⟩, ⟨4, 3⟩, ⟨7, 3⟩] ∧ cut 9 10 3 = none := by
  decide

/-- The ranges of the slots share out the rows, there is no other way to share them out, and to cut
them off one after another takes sums up to the number of rows and no further. -/
theorem rows_shared_out (rows : Nat) {slots : Nat} (hs : 1 ≤ slots) :
    SharesOut rows slots (split rows slots) ∧
      (∀ ranges, SharesOut rows slots ranges → ranges = split rows slots) ∧
      ∀ limit, cut limit rows slots = if rows ≤ limit then some (split rows slots) else none :=
  ⟨sharesOut_split rows hs, fun _ h => h.unique (sharesOut_split rows hs),
    fun limit => cut_eq limit rows hs⟩

/-- Two rows among four slots: one row each for the first two, and nothing for the others. -/
theorem rows_shared_out_two_among_four :
    1 ≤ 4 ∧ SharesOut 2 4 [⟨0, 1⟩, ⟨1, 1⟩, ⟨2, 0⟩, ⟨2, 0⟩] ∧
      (∀ ranges, SharesOut 2 4 ranges → ranges = [⟨0, 1⟩, ⟨1, 1⟩, ⟨2, 0⟩, ⟨2, 0⟩]) ∧
      ∀ limit, cut limit 2 4 =
        if 2 ≤ limit then some [⟨0, 1⟩, ⟨1, 1⟩, ⟨2, 0⟩, ⟨2, 0⟩] else none :=
  ⟨by decide, rows_shared_out 2 (by decide)⟩

end RowRange

end VariHist
