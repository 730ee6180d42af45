import Mathlib
import VariHist.Proofs.Histogram.BinSearch

/-!
# Linear indices without overflow

A histogram is made only if the number of all its bins fits a word.  Then bins and linear indices
are the same thing, and no word that is worked out on the way from one to the other overflows: not
the strides of the axes, not the products of coordinates and strides, and not their sum.

* `linearIndex_coordinates` — a linear index is got back from its coordinates.
* `toNat_linearIndex` — a linear index is the sum of the coordinates times their strides.
* `checkedAdd`, `checkedMul` — sums and products of words that tell when they overflow.
* `checkedStrides_eq`, `checkedIndexFrom_eq`, `Axis.checkedFindBin_eq` — nothing overflows.
* `SparseHistogram.checkedFillAll_eq` — neither do the counters, for fewer than `2 ^ 64` points.
-/

namespace VariHist

variable {ν : Type} [FillNumber ν] {a : Axis} {axes : List Axis} {coords : List UInt64}

/-! ## Bins and indices -/

theorem inRange_coordinates (hs : ∀ a ∈ axes, a.Sound) (index : UInt64) :
    InRange axes (coordinates axes index) := by
  induction axes generalizing index with
  | nil => exact .nil
  | cons a axes ih =>
    obtain ⟨ha, hrest⟩ := List.forall_mem_cons.1 hs
    refine .cons ?_ (ih hrest _)
    rw [UInt64.toNat_mod]
    exact Nat.mod_lt _ (by rw [ha.toNat_size]; omega)

/-- A linear index is got back from its coordinates. -/
theorem linearIndex_coordinates {index : UInt64} (hi : index.toNat < binCount axes) :
    linearIndex axes (coordinates axes index) = index := by
  induction axes generalizing index with
  | nil =>
    have hzero : index.toNat = 0 := Nat.lt_one_iff.1 hi
    exact (UInt64.toNat_inj.1 hzero).symm
  | cons a axes ih =>
    rw [binCount_cons] at hi
    have hdiv : (index / a.size).toNat < binCount axes := by
      rw [UInt64.toNat_div]
      exact Nat.div_lt_of_lt_mul hi
    rw [coordinates, linearIndex, ih hdiv]
    apply UInt64.toNat_inj.1
    rw [UInt64.toNat_add, UInt64.toNat_mul, UInt64.toNat_mod, UInt64.toNat_div, Nat.add_mod_mod,
      Nat.mod_add_div, Nat.mod_eq_of_lt index.toNat_lt]

/-- Is each coordinate a bin within the range of its axis, or one of the two outer ones? -/
def Within (axes : List Axis) (coords : List UInt64) : Prop :=
  List.Forall₂ (fun a c => c.toNat ≤ a.bins.toNat + 1) axes coords

theorem within_iff_inRange (hs : ∀ a ∈ axes, a.Sound) :
    Within axes coords ↔ InRange axes coords := by
  induction axes generalizing coords with
  | nil => exact List.forall₂_nil_left_iff.trans List.forall₂_nil_left_iff.symm
  | cons a axes ih =>
    obtain ⟨ha, hrest⟩ := List.forall_mem_cons.1 hs
    unfold Within InRange
    rw [List.forall₂_cons_left_iff, List.forall₂_cons_left_iff]
    refine exists_congr fun c => exists_congr fun rest => and_congr ?_ (and_congr_left' ?_)
    · rw [ha.toNat_size, Nat.lt_succ_iff]
    · exact ih hrest

theorem sizes_eq (hs : ∀ a ∈ axes, a.Sound) :
    (axes.map fun a => a.size.toNat) = axes.map fun a => a.bins.toNat + 2 :=
  List.map_congr_left fun a ha => (hs a ha).toNat_size

/-! ## Strides -/

/-- The strides of axes, if the first one has a given stride: each is the one before times the size
of its axis. -/
def strides (stride : UInt64) : List Axis → List UInt64
  | [] => []
  | a :: axes => stride :: strides (stride * a.size) axes

/-- A linear index is the sum of the coordinates times their strides, of which the first is one. -/
theorem toNat_linearIndex (hr : InRange axes coords) (hcount : binCount axes < 2 ^ 64)
    (stride : Nat) : stride * (linearIndex axes coords).toNat = (List.zipWith
      (fun c s => c.toNat * s) coords
      (List.scanl (· * ·) stride (axes.map fun a => a.size.toNat))).sum := by
  induction hr generalizing stride with
  | nil => simp [linearIndex]
  | @cons a c axes coords hc hrest ih =>
    have htail := binCount_tail_lt hc hcount
    obtain ⟨hindex, -⟩ := toNat_linearIndex_cons hc (linearIndex_lt hrest htail) hcount
    -- the strides of the other axes start at the stride of the next one
    rw [hindex, List.map_cons, List.scanl_cons, List.zipWith_cons_cons, List.sum_cons,
      ← ih htail (stride * a.size.toNat)]
    ring

/-! ## Words that do not overflow -/

/-- A sum of words, unless it overflows. -/
def checkedAdd (a b : UInt64) : Option UInt64 :=
  if a.toNat + b.toNat < 2 ^ 64 then some (a + b) else none

/-- A product of words, unless it overflows. -/
def checkedMul (a b : UInt64) : Option UInt64 :=
  if a.toNat * b.toNat < 2 ^ 64 then some (a * b) else none

/-- The strides of axes, unless the size of an axis or a stride overflows.  The stride of an axis
that would come next is worked out as well. -/
def checkedStrides (stride : UInt64) : List Axis → Option (List UInt64)
  | [] => some []
  | a :: axes => do
    let size ← checkedAdd a.bins 2
    let next ← checkedMul stride size
    let rest ← checkedStrides next axes
    return stride :: rest

/-- The sum of coordinates times strides, unless a term or a sum on the way overflows. -/
def checkedIndexFrom (sum : UInt64) : List UInt64 → List UInt64 → Option UInt64
  | c :: coords, s :: strides => do
    let term ← checkedMul c s
    let next ← checkedAdd sum term
    checkedIndexFrom next coords strides
  | _, _ => some sum

theorem binCount_pos (hs : ∀ a ∈ axes, a.Sound) : 0 < binCount axes := by
  refine List.prod_pos fun n hn => ?_
  obtain ⟨a, ha, rfl⟩ := List.mem_map.1 hn
  rw [(hs a ha).toNat_size]
  exact Nat.succ_pos _

/-- The stride of the next axis does not overflow. -/
theorem stride_mul_size_lt (hs : ∀ a ∈ axes, a.Sound) {stride : UInt64}
    (hcount : stride.toNat * binCount (a :: axes) < 2 ^ 64) :
    stride.toNat * a.size.toNat < 2 ^ 64 ∧ (stride * a.size).toNat * binCount axes < 2 ^ 64 := by
  rw [binCount_cons, ← Nat.mul_assoc] at hcount
  have hnext : stride.toNat * a.size.toNat < 2 ^ 64 :=
    (Nat.le_mul_of_pos_right _ (binCount_pos hs)).trans_lt hcount
  rw [toNat_mul_of_lt hnext]
  exact ⟨hnext, hcount⟩

theorem checkedStrides_eq (hs : ∀ a ∈ axes, a.Sound) {stride : UInt64}
    (hcount : stride.toNat * binCount axes < 2 ^ 64) :
    checkedStrides stride axes = some (strides stride axes) := by
  induction axes generalizing stride with
  | nil => rfl
  | cons a axes ih =>
    obtain ⟨ha, hrest⟩ := List.forall_mem_cons.1 hs
    obtain ⟨hnext, hcount⟩ := stride_mul_size_lt hrest hcount
    have hsize : checkedAdd a.bins 2 = some a.size := if_pos ha.2
    have hstride : checkedMul stride a.size = some (stride * a.size) := if_pos hnext
    rw [checkedStrides, hsize, Option.bind_eq_bind, Option.bind_some, hstride,
      Option.bind_eq_bind, Option.bind_some, ih hrest hcount]
    rfl

/-- No term of a linear index overflows, and no sum on the way: the terms are not negative, so each
sum is at most the one at the end. -/
theorem checkedIndexFrom_eq (hr : InRange axes coords) (hs : ∀ a ∈ axes, a.Sound)
    (hfit : binCount axes < 2 ^ 64) {stride sum : UInt64}
    (hcount : stride.toNat * binCount axes < 2 ^ 64)
    (hsum : sum.toNat + stride.toNat * (linearIndex axes coords).toNat < 2 ^ 64) :
    checkedIndexFrom sum coords (strides stride axes) =
      some (sum + stride * linearIndex axes coords) := by
  induction hr generalizing stride sum with
  | nil =>
    have hzero : sum + stride * linearIndex [] [] = sum := by
      rw [show linearIndex [] [] = 0 from rfl, UInt64.mul_zero, UInt64.add_zero]
    rw [hzero]
    rfl
  | @cons a c axes coords hc hrest ih =>
    obtain ⟨ha, hs⟩ := List.forall_mem_cons.1 hs
    obtain ⟨hnext, hcount'⟩ := stride_mul_size_lt hs hcount
    have htail := binCount_tail_lt hc hfit
    obtain ⟨hindex, -⟩ := toNat_linearIndex_cons hc (linearIndex_lt hrest htail) hfit
    -- what is still to come is counted with the stride of the next axis
    rw [hindex, Nat.mul_add, ← Nat.mul_assoc, ← toNat_mul_of_lt hnext] at hsum
    have hterm : c.toNat * stride.toNat < 2 ^ 64 := by
      rw [Nat.mul_comm]
      omega
    have hadd : sum.toNat + (c * stride).toNat < 2 ^ 64 := by
      rw [toNat_mul_of_lt hterm, Nat.mul_comm]
      omega
    have hcheckedTerm : checkedMul c stride = some (c * stride) := if_pos hterm
    have hcheckedSum : checkedAdd sum (c * stride) = some (sum + c * stride) := if_pos hadd
    rw [strides, checkedIndexFrom, hcheckedTerm, Option.bind_eq_bind, Option.bind_some,
      hcheckedSum, Option.bind_some, ih hs htail hcount' ?_]
    · rw [linearIndex, UInt64.mul_add, UInt64.add_assoc, UInt64.mul_comm c, UInt64.mul_assoc]
    · rw [toNat_add_of_lt hadd, toNat_mul_of_lt hterm, Nat.mul_comm c.toNat]
      omega

/-! ## Points -/

open FillNumber in
/-- The bin of a value, unless its number overflows. -/
def Axis.checkedFindBin (a : Axis) (x : ν) : Option UInt64 :=
  let place := placeBetween a.bins (ofFloat a.lo) (ofFloat a.hi) x
  if lt x (ofFloat a.lo) then some 0
  else if lt x (ofFloat a.hi) then checkedAdd (if a.bins - 1 < place then a.bins - 1 else place) 1
  else checkedAdd a.bins 1

theorem Axis.checkedFindBin_eq (h : a.Sound) (x : ν) :
    a.checkedFindBin x = some (a.findBin x) := by
  have hpos := toNat_pos h.1
  have hlast : (a.bins - 1).toNat = a.bins.toNat - 1 := UInt64.toNat_sub_of_le _ _ hpos
  have hbins := h.2
  have hsucc : ∀ bin : UInt64, bin.toNat ≤ a.bins.toNat → checkedAdd bin 1 = some (bin + 1) :=
    fun bin hle => if_pos (by rw [UInt64.toNat_one]; omega)
  rw [Axis.findBin_eq, checkedFindBin, binBetween]
  generalize placeBetween a.bins (FillNumber.ofFloat a.lo) (FillNumber.ofFloat a.hi) x = place
  split_ifs with hbelow hwithin hpast
  · rfl
  · exact hsucc _ (by omega)
  · rw [UInt64.lt_iff_toNat_lt, hlast] at hpast
    exact hsucc _ (by omega)
  · exact hsucc _ le_rfl

/-- The coordinates of a point, unless a bin overflows. -/
def checkedBins (axes : List Axis) (point : List ν) : Option (List UInt64) :=
  (axes.zip point).mapM fun p => p.1.checkedFindBin p.2

theorem checkedBins_eq (hs : ∀ a ∈ axes, a.Sound) (point : List ν) :
    checkedBins axes point = some (binsOf axes point) := by
  induction axes generalizing point with
  | nil => rfl
  | cons a axes ih =>
    obtain ⟨ha, hrest⟩ := List.forall_mem_cons.1 hs
    cases point with
    | nil => rfl
    | cons x point =>
      have htail := ih hrest point
      unfold checkedBins at htail ⊢
      rw [List.zip_cons_cons, List.mapM_cons, Axis.checkedFindBin_eq ha, htail]
      rfl

namespace SparseHistogram

variable {h : SparseHistogram ν}

/-- The linear index of the bin at some coordinates, unless a word overflows. -/
def checkedIndex (h : SparseHistogram ν) (coords : List UInt64) : Option UInt64 := do
  let strides ← checkedStrides 1 h.axes
  checkedIndexFrom 0 coords strides

/-- The content of the bin at some coordinates, unless a word overflows. -/
def checkedBin (h : SparseHistogram ν) (coords : List UInt64) : Option (BinContent ν) := do
  let index ← h.checkedIndex coords
  return h.contentAt index

/-- Adds a weight at a point, unless a word overflows: a linear index, or a counter of fills. -/
def checkedFill (h : SparseHistogram ν) (point : List ν) (w : ν) :
    Option (SparseHistogram ν) := do
  let coords ← checkedBins h.axes point
  let index ← h.checkedIndex coords
  let _ ← checkedAdd (h.contentAt index).entries 1
  let entries ← checkedAdd h.entries 1
  return { h with bins := Bins.addAt h.bins index (.ofWeight w), entries }

/-- Fills points one after another, unless a word overflows. -/
def checkedFillAll (h : SparseHistogram ν) (points : List (WeightedPoint ν)) :
    Option (SparseHistogram ν) :=
  points.foldlM (fun h p => h.checkedFill p.coords p.weight) h

omit [FillNumber ν] in
theorem checkedIndex_eq (ha : Countable h.axes) (hr : InRange h.axes coords) :
    h.checkedIndex coords = some (linearIndex h.axes coords) := by
  have hone : (1 : UInt64).toNat * binCount h.axes < 2 ^ 64 := by
    rw [UInt64.toNat_one, Nat.one_mul]
    exact ha.count
  have hlt := (linearIndex_lt hr ha.count).trans ha.count
  have hzero : (0 : UInt64).toNat + (1 : UInt64).toNat * (linearIndex h.axes coords).toNat <
      2 ^ 64 := by
    rw [UInt64.toNat_zero, UInt64.toNat_one, Nat.zero_add, Nat.one_mul]
    exact hlt
  rw [checkedIndex, checkedStrides_eq ha.sound hone, Option.bind_eq_bind, Option.bind_some,
    checkedIndexFrom_eq hr ha.sound ha.count hone hzero, UInt64.one_mul, UInt64.zero_add]

theorem checkedBin_eq (ha : Countable h.axes) (hr : InRange h.axes coords) :
    h.checkedBin coords = some (h.bin coords) := by
  rw [checkedBin, checkedIndex_eq ha hr]
  rfl

/-- So many points were filled, and none of the counters has more. -/
structure Counted (h : SparseHistogram ν) (n : Nat) : Prop where
  entries : h.entries.toNat = n
  contentAt : ∀ i, (h.contentAt i).entries.toNat ≤ n

theorem counted_blank (name : String) (axes : List Axis) :
    (blank name axes : SparseHistogram ν).Counted 0 :=
  ⟨rfl, fun i => by rw [contentAt_blank]; exact le_rfl⟩

theorem Counted.fill {n : Nat} (hc : h.Counted n) (hn : n + 1 < 2 ^ 64) (point : List ν) (w : ν) :
    (h.fill point w).Counted (n + 1) := by
  have hsucc : ∀ {count : UInt64}, count.toNat ≤ n → (count + 1).toNat = count.toNat + 1 :=
    fun hle => toNat_add_of_lt (by rw [UInt64.toNat_one]; omega)
  constructor
  · exact (hsucc hc.entries.le).trans (congrArg (· + 1) hc.entries)
  · intro i
    have hold := hc.contentAt i
    rw [contentAt_fill]
    split_ifs
    · exact (hsucc hold).trans_le (Nat.succ_le_succ hold)
    · exact hold.trans (Nat.le_succ n)

/-- Neither a linear index nor a counter overflows, as long as there is room for one fill more. -/
theorem checkedFill_eq {n : Nat} (ha : Countable h.axes) (hc : h.Counted n) (hn : n + 1 < 2 ^ 64)
    {point : List ν} (hp : point.length = h.axes.length) (w : ν) :
    h.checkedFill point w = some (h.fill point w) := by
  have hroom : ∀ {count : UInt64}, count.toNat ≤ n → checkedAdd count 1 = some (count + 1) :=
    fun hle => if_pos (by rw [UInt64.toNat_one]; omega)
  rw [checkedFill, checkedBins_eq ha.sound, Option.bind_eq_bind, Option.bind_some,
    checkedIndex_eq ha (inRange_binsOf ha.sound hp), Option.bind_eq_bind, Option.bind_some,
    hroom (hc.contentAt _), Option.bind_some, hroom hc.entries.le]
  rfl

theorem checkedFillAll_eq {n : Nat} (ha : Countable h.axes) (hc : h.Counted n)
    {points : List (WeightedPoint ν)} (hp : ∀ p ∈ points, p.coords.length = h.axes.length)
    (hn : n + points.length < 2 ^ 64) : h.checkedFillAll points = some (h.fillAll points) := by
  induction points generalizing h n with
  | nil => rfl
  | cons p points ih =>
    obtain ⟨hfirst, hrest⟩ := List.forall_mem_cons.1 hp
    rw [List.length_cons] at hn
    have hstep := checkedFill_eq ha hc (by omega) hfirst p.weight
    rw [checkedFillAll, List.foldlM_cons, hstep]
    exact ih ha (hc.fill (by omega) p.coords p.weight) hrest (by omega)

/-- The linear index of the bin of a point never overflows, however many points were filled. -/
theorem checkedIndex_checkedBins (ha : Countable h.axes) {point : List ν}
    (hp : point.length = h.axes.length) :
    (checkedBins h.axes point).bind h.checkedIndex = some (h.indexOf point) := by
  rw [checkedBins_eq ha.sound, Option.bind_some,
    checkedIndex_eq ha (inRange_binsOf ha.sound hp)]
  rfl

/-- Bins and linear indices are the same thing, the coordinate of the first axis counts fastest,
and no word overflows on the way: not in the strides, not in a linear index, neither when a bin is
looked up nor when points are filled. -/
theorem linearIndex_bijection {name : String} {axes : List Axis} {h : SparseHistogram ν}
    (hm : make name axes = .ok h) (hsizes : ∀ a ∈ axes, a.bins.toNat + 2 < 2 ^ 64) :
    (∀ coords, Within axes coords →
      (linearIndex axes coords).toNat < (axes.map fun a => a.bins.toNat + 2).prod ∧
      coordinates axes (linearIndex axes coords) = coords ∧
      (linearIndex axes coords).toNat = (List.zipWith (fun c s => c.toNat * s) coords
        (List.scanl (· * ·) 1 (axes.map fun a => a.bins.toNat + 2))).sum) ∧
    (∀ index : UInt64, index.toNat < (axes.map fun a => a.bins.toNat + 2).prod →
      Within axes (coordinates axes index) ∧
      linearIndex axes (coordinates axes index) = index) ∧
    checkedStrides 1 axes = some (strides 1 axes) ∧
    (∀ coords, Within axes coords → h.checkedIndex coords = some (linearIndex axes coords) ∧
      h.checkedBin coords = some (h.bin coords)) ∧
    (∀ point : List ν, point.length = axes.length →
      (checkedBins axes point).bind h.checkedIndex = some (h.indexOf point)) ∧
    ∀ points : List (WeightedPoint ν), (∀ p ∈ points, p.coords.length = axes.length) →
      points.length < 2 ^ 64 → h.checkedFillAll points = some (h.fillAll points) := by
  have hc := countable_of_make hm hsizes
  obtain rfl := make_eq_ok hm
  have hprod : binCount axes = (axes.map fun a => a.bins.toNat + 2).prod :=
    congrArg List.prod (sizes_eq hc.sound)
  rw [← hprod, ← sizes_eq hc.sound]
  refine ⟨fun coords hw => ?_, fun index hi => ?_, ?_, fun coords hw => ?_, fun point hp => ?_,
    fun points hp hn => ?_⟩
  · have hr := (within_iff_inRange hc.sound).1 hw
    have hsum := toNat_linearIndex hr hc.count 1
    rw [Nat.one_mul] at hsum
    exact ⟨linearIndex_lt hr hc.count, coordinates_linearIndex hr hc.count, hsum⟩
  · exact ⟨(within_iff_inRange hc.sound).2 (inRange_coordinates hc.sound index),
      linearIndex_coordinates hi⟩
  · refine checkedStrides_eq hc.sound ?_
    rw [UInt64.toNat_one, Nat.one_mul]
    exact hc.count
  · have hr := (within_iff_inRange hc.sound).1 hw
    exact ⟨checkedIndex_eq hc hr, checkedBin_eq hc hr⟩
  · exact checkedIndex_checkedBins (h := blank name axes) hc hp
  · exact checkedFillAll_eq hc (counted_blank name axes) hp (by omega)

/-- Two axes of `2 ^ 32 - 1` bins each, the outer ones included. -/
def widestAxes : List Axis :=
  [⟨0xFFFFFFFD, 0, 1⟩, ⟨0xFFFFFFFD, 0, 1⟩]

/-- Their last bin has a linear index of 64 bits, and no word overflows on the way to it. -/
theorem linearIndex_last_bin : ∃ h : SparseHistogram Float, make "widest" widestAxes = .ok h ∧
    coordinates widestAxes 0xFFFFFFFE00000000 = [0xFFFFFFFE, 0xFFFFFFFE] ∧
    h.checkedIndex [0xFFFFFFFE, 0xFFFFFFFE] = some 0xFFFFFFFE00000000 := by
  have hm : (make "widest" widestAxes : Except ConfigFault (SparseHistogram Float)) =
      .ok (blank "widest" widestAxes) := rfl
  have hlast : linearIndex widestAxes [0xFFFFFFFE, 0xFFFFFFFE] = 0xFFFFFFFE00000000 := by
    decide +kernel
  have hw : Within widestAxes [0xFFFFFFFE, 0xFFFFFFFE] :=
    .cons (by decide) (.cons (by decide) .nil)
  obtain ⟨hbins, -, -, hchecked, -⟩ := linearIndex_bijection hm (by decide)
  obtain ⟨-, hcoordinates, -⟩ := hbins _ hw
  obtain ⟨hindex, -⟩ := hchecked _ hw
  rw [hlast] at hcoordinates hindex
  exact ⟨_, hm, hcoordinates, hindex⟩

end SparseHistogram

end VariHist
