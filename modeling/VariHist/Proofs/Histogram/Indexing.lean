import Mathlib
import VariHist.Proofs.Histogram.Content

/-!
# Bins and their linear indices

As long as the number of all bins fits a word, which is checked when a histogram is made, a linear
index tells the coordinates of its bin.

* `binBetween` — the search for a bin over any range; `toNat_binBetween` — what it finds.
* `Axis.findBin_lt_size` — a value lies in a bin of its axis.
* `coordinates_linearIndex` — the coordinates are got back from the linear index.
* `linearIndex_inj` — so bins share a linear index only if they are the same.
-/

namespace VariHist

variable {ν : Type} [FillNumber ν] {axes : List Axis} {coords coords' : List UInt64}

/-! ## Words -/

theorem toNat_pos {word : UInt64} (h0 : word ≠ 0) : 0 < word.toNat :=
  Nat.pos_of_ne_zero fun h => h0 (UInt64.toNat_inj.1 h)

theorem toNat_mul_of_lt {a b : UInt64} (h : a.toNat * b.toNat < 2 ^ 64) :
    (a * b).toNat = a.toNat * b.toNat := by
  rw [UInt64.toNat_mul]
  exact Nat.mod_eq_of_lt h

theorem toNat_add_of_lt {a b : UInt64} (h : a.toNat + b.toNat < 2 ^ 64) :
    (a + b).toNat = a.toNat + b.toNat := by
  rw [UInt64.toNat_add]
  exact Nat.mod_eq_of_lt h

/-! ## Sizes -/

/-- The two outer bins do not make the size of the axis overflow. -/
def Axis.Sound (a : Axis) : Prop :=
  a.bins ≠ 0 ∧ a.bins.toNat + 2 < 2 ^ 64

theorem Axis.Sound.toNat_size {a : Axis} (h : a.Sound) : a.size.toNat = a.bins.toNat + 2 :=
  toNat_add_of_lt h.2

/-- The number of all bins. -/
def binCount (axes : List Axis) : Nat :=
  (axes.map fun a => a.size.toNat).prod

/-- Axes whose bins can all be told apart by a word. -/
structure Countable (axes : List Axis) : Prop where
  sound : ∀ a ∈ axes, a.Sound
  count : binCount axes < 2 ^ 64

theorem checkAxes_eq_ok {name : String} {soFar : UInt64} (hs : soFar.toNat < 2 ^ 64)
    (h : SparseHistogram.checkAxes name soFar axes = .ok ()) :
    (∀ a ∈ axes, a.bins ≠ 0) ∧ soFar.toNat * binCount axes < 2 ^ 64 := by
  induction axes generalizing soFar with
  | nil => simpa [binCount] using hs
  | cons a axes ih =>
    rw [SparseHistogram.checkAxes] at h
    split_ifs at h with hbins hfits
    have hfits' : soFar.toNat * a.size.toNat < 2 ^ 64 := hfits
    obtain ⟨hrest, hcount⟩ := ih (UInt64.toNat_lt _) h
    rw [toNat_mul_of_lt hfits', Nat.mul_assoc] at hcount
    refine ⟨List.forall_mem_cons.2 ⟨hbins, hrest⟩, ?_⟩
    rw [binCount, List.map_cons, List.prod_cons]
    exact hcount

omit [FillNumber ν] in
/-- The axes of a histogram that is made are countable, if no size overflows. -/
theorem SparseHistogram.countable_of_make {name : String} {h : SparseHistogram ν}
    (hm : make name axes = .ok h) (hsizes : ∀ a ∈ axes, a.bins.toNat + 2 < 2 ^ 64) :
    Countable axes := by
  obtain ⟨-, hcheck, -⟩ := make_eq_ok_iff.1 hm
  obtain ⟨hbins, hcount⟩ := checkAxes_eq_ok (by decide) hcheck
  exact ⟨fun a ha => ⟨hbins a ha, hsizes a ha⟩, by simpa using hcount⟩

omit [FillNumber ν] in
/-- The same for a histogram that is filled slot by slot. -/
theorem Countable.of_make {name : String} {points slots : Nat} {s : SlottedHistogram ν}
    (h : SlottedHistogram.make name axes points slots = .ok s)
    (hsizes : ∀ a ∈ axes, a.bins.toNat + 2 < 2 ^ 64) : Countable axes := by
  cases hm : (SparseHistogram.make name axes : Except ConfigFault (SparseHistogram ν)) with
  | error e => rw [SlottedHistogram.make, hm] at h; cases h
  | ok template => exact SparseHistogram.countable_of_make hm hsizes

/-! ## Coordinates -/

/-- Linear indices depend on the axes by their sizes alone. -/
theorem linearIndex_congr {axes' : List Axis} (h : axes.map Axis.size = axes'.map Axis.size)
    (coords : List UInt64) : linearIndex axes coords = linearIndex axes' coords := by
  induction axes generalizing axes' coords with
  | nil => rw [List.map_eq_nil_iff.1 h.symm]
  | cons a axes ih =>
    cases axes' with
    | nil => cases h
    | cons a' axes' =>
      obtain ⟨hsize, hrest⟩ := List.cons.inj h
      cases coords with
      | nil => rfl
      | cons c coords => rw [linearIndex, linearIndex, ih hrest, hsize]

/-- Is each coordinate a bin of its axis? -/
def InRange (axes : List Axis) (coords : List UInt64) : Prop :=
  List.Forall₂ (fun a c => c.toNat < a.size.toNat) axes coords

theorem binCount_cons (a : Axis) (axes : List Axis) :
    binCount (a :: axes) = a.size.toNat * binCount axes := by
  rw [binCount, List.map_cons, List.prod_cons, ← binCount]

/-- What bins there are depends on the axes by their sizes alone. -/
theorem InRange.congr {axes' : List Axis} (h : axes.map Axis.size = axes'.map Axis.size)
    (hr : InRange axes coords) : InRange axes' coords := by
  induction hr generalizing axes' with
  | nil => rw [List.map_eq_nil_iff.1 h.symm]; exact .nil
  | cons hc _ ih =>
    cases axes' with
    | nil => cases h
    | cons a' axes' =>
      obtain ⟨hsize, hrest⟩ := List.cons.inj h
      exact .cons (hsize ▸ hc) (ih hrest)

/-- A bin over some axes and one more is a bin over them and a bin of the last one. -/
theorem inRange_concat_iff {a : Axis} : InRange (axes ++ [a]) coords ↔
    ∃ front last, coords = front ++ [last] ∧ InRange axes front ∧
      last.toNat < a.size.toNat := by
  constructor
  · intro h
    obtain ⟨last, hlast⟩ : ∃ last, coords.drop axes.length = [last] := by
      have hlen := h.length_eq
      rw [List.length_append, List.length_singleton] at hlen
      refine List.length_eq_one_iff.1 ?_
      rw [List.length_drop]
      omega
    refine ⟨coords.take axes.length, last, ?_, ?_, ?_⟩
    · rw [← hlast, List.take_append_drop]
    · exact (List.forall₂_take_append _ _ _ h.flip).flip
    · have hdrop := List.forall₂_drop_append _ _ _ h.flip
      rw [hlast] at hdrop
      exact (List.forall₂_cons.1 hdrop).1
  · rintro ⟨front, last, rfl, hfront, hlast⟩
    exact List.rel_append hfront (.cons hlast .nil)

/-- As long as the bins are countable, a linear index does not overflow. -/
theorem toNat_linearIndex_cons {a : Axis} {c : UInt64} (hc : c.toNat < a.size.toNat)
    (hlt : (linearIndex axes coords).toNat < binCount axes)
    (hcount : binCount (a :: axes) < 2 ^ 64) :
    (linearIndex (a :: axes) (c :: coords)).toNat =
      c.toNat + a.size.toNat * (linearIndex axes coords).toNat ∧
    (linearIndex (a :: axes) (c :: coords)).toNat < binCount (a :: axes) := by
  rw [binCount_cons] at hcount ⊢
  have hbound : c.toNat + a.size.toNat * (linearIndex axes coords).toNat <
      a.size.toNat * binCount axes := by
    have hmul : a.size.toNat * ((linearIndex axes coords).toNat + 1) ≤
        a.size.toNat * binCount axes := Nat.mul_le_mul_left _ hlt
    rw [Nat.mul_succ] at hmul
    omega
  have hindex : (linearIndex (a :: axes) (c :: coords)).toNat =
      c.toNat + a.size.toNat * (linearIndex axes coords).toNat := by
    rw [linearIndex, UInt64.toNat_add, UInt64.toNat_mul, Nat.add_mod_mod]
    exact Nat.mod_eq_of_lt (hbound.trans hcount)
  exact ⟨hindex, hindex ▸ hbound⟩

theorem binCount_tail_lt {a : Axis} {c : UInt64} (hc : c.toNat < a.size.toNat)
    (hcount : binCount (a :: axes) < 2 ^ 64) : binCount axes < 2 ^ 64 := by
  rw [binCount_cons] at hcount
  exact (Nat.le_mul_of_pos_left _ (Nat.zero_lt_of_lt hc)).trans_lt hcount

theorem linearIndex_lt (hr : InRange axes coords) (hcount : binCount axes < 2 ^ 64) :
    (linearIndex axes coords).toNat < binCount axes := by
  induction hr with
  | nil => decide
  | cons hc _ ih =>
    exact (toNat_linearIndex_cons hc (ih (binCount_tail_lt hc hcount)) hcount).2

/-- The coordinates of a bin are got back from its linear index. -/
theorem coordinates_linearIndex (hr : InRange axes coords) (hcount : binCount axes < 2 ^ 64) :
    coordinates axes (linearIndex axes coords) = coords := by
  induction hr with
  | nil => rfl
  | @cons a c axes coords hc hrest ih =>
    have htail := binCount_tail_lt hc hcount
    obtain ⟨hindex, -⟩ := toNat_linearIndex_cons hc (linearIndex_lt hrest htail) hcount
    have hmod : linearIndex (a :: axes) (c :: coords) % a.size = c := by
      apply UInt64.toNat_inj.1
      rw [UInt64.toNat_mod, hindex, Nat.add_mul_mod_self_left, Nat.mod_eq_of_lt hc]
    have hdiv : linearIndex (a :: axes) (c :: coords) / a.size = linearIndex axes coords := by
      apply UInt64.toNat_inj.1
      rw [UInt64.toNat_div, hindex, Nat.add_mul_div_left _ _ (Nat.zero_lt_of_lt hc),
        Nat.div_eq_of_lt hc, Nat.zero_add]
    rw [coordinates, hmod, hdiv, ih htail]

theorem linearIndex_inj (hr : InRange axes coords) (hr' : InRange axes coords')
    (hc : binCount axes < 2 ^ 64) :
    linearIndex axes coords = linearIndex axes coords' ↔ coords = coords' := by
  refine ⟨fun h => ?_, fun h => by rw [h]⟩
  rw [← coordinates_linearIndex hr hc, h, coordinates_linearIndex hr' hc]

/-! ## The search for a bin -/

section Search

variable {bins : UInt64} {lo hi x : ν}

open FillNumber in
/-- The place of a value among equal bins, counted from zero. -/
def placeBetween (bins : UInt64) (lo hi x : ν) : UInt64 :=
  truncate (div (mul (sub x lo) (ofWord bins)) (sub hi lo))

open FillNumber in
/-- The bin of a value among equal bins. -/
def binBetween (bins : UInt64) (lo hi x : ν) : UInt64 :=
  if lt x lo then 0
  else if lt x hi then
    (if bins - 1 < placeBetween bins lo hi x then bins - 1 else placeBetween bins lo hi x) + 1
  else bins + 1

theorem Axis.findBin_eq (a : Axis) (x : ν) :
    a.findBin x = binBetween a.bins (FillNumber.ofFloat a.lo) (FillNumber.ofFloat a.hi) x :=
  rfl

open FillNumber in
/-- What the search finds: no sum overflows. -/
theorem toNat_binBetween (h0 : bins ≠ 0) (hb : bins.toNat + 2 < 2 ^ 64) :
    (binBetween bins lo hi x).toNat =
      if lt x lo then 0
      else if lt x hi then min (placeBetween bins lo hi x).toNat (bins.toNat - 1) + 1
      else bins.toNat + 1 := by
  have hpos := toNat_pos h0
  have hlast : (bins - 1).toNat = bins.toNat - 1 := UInt64.toNat_sub_of_le _ _ hpos
  unfold binBetween
  generalize placeBetween bins lo hi x = place
  split_ifs with hbelow hwithin hpast
  · rfl
  · rw [UInt64.lt_iff_toNat_lt, hlast] at hpast
    rw [UInt64.toNat_add, hlast, UInt64.toNat_one, Nat.mod_eq_of_lt (by omega),
      Nat.min_eq_right (by omega)]
  · rw [UInt64.lt_iff_toNat_lt, hlast] at hpast
    rw [UInt64.toNat_add, UInt64.toNat_one, Nat.mod_eq_of_lt (by omega),
      Nat.min_eq_left (by omega)]
  · rw [UInt64.toNat_add, UInt64.toNat_one, Nat.mod_eq_of_lt (by omega)]

theorem toNat_binBetween_le (h0 : bins ≠ 0) (hb : bins.toNat + 2 < 2 ^ 64) :
    (binBetween bins lo hi x).toNat ≤ bins.toNat + 1 := by
  rw [toNat_binBetween h0 hb]
  split_ifs <;> omega

end Search

/-- A value lies in a bin of its axis. -/
theorem Axis.findBin_lt_size {a : Axis} (h : a.Sound) (x : ν) :
    (a.findBin x).toNat < a.size.toNat := by
  rw [h.toNat_size]
  exact Nat.lt_succ_of_le (toNat_binBetween_le h.1 h.2)

/-- The bins in which the coordinates of a point lie. -/
def binsOf (axes : List Axis) (point : List ν) : List UInt64 :=
  (axes.zip point).map fun (a, x) => a.findBin x

theorem inRange_binsOf {axes : List Axis} (hs : ∀ a ∈ axes, a.Sound) {point : List ν}
    (hp : point.length = axes.length) : InRange axes (binsOf axes point) := by
  induction axes generalizing point with
  | nil => exact .nil
  | cons a axes ih =>
    cases point with
    | nil => cases hp
    | cons x point =>
      obtain ⟨ha, hrest⟩ := List.forall_mem_cons.1 hs
      exact .cons (Axis.findBin_lt_size ha x) (ih hrest (Nat.succ.inj hp))

end VariHist
