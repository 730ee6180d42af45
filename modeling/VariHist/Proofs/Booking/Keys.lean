import Mathlib
import VariHist.Booking.Projection
import VariHist.Proofs.Booking.Projection
import VariHist.Proofs.Booking.Slices
import VariHist.Proofs.DoubleRounded
import VariHist.Proofs.Histogram.BinSearch
import VariHist.Proofs.Systematics.Definitions

/-!
# Bins and the places of spectra

* `labelsOf?` — the labels of bins, one from each catalog; `labelsOf?_inj` — distinct labels tell
  the bins.
* `keyOf?_append` — where a bin belongs, told by the labels of its region and its variation.
* `eq_of_under` — no two bins belong to the same value bin of a spectrum.
* `labelBin` — the search on the axis of variations; `toNat_labelBin` — in exact arithmetic an index
  lies in the bin of its own label.
* `tellsIndices_rat`, `tellsIndices_float` — on the axis of variations an index lies in the bin of
  its own label, whether places are rounded or not.
* `nodup_outputKeys` — no two spectra of bookings that passed the check share a place.
-/

namespace VariHist

/-! ## Leaves -/

theorem leafName_injective (column : String) : Function.Injective (leafName column) := by
  intro l l' h
  unfold leafName at h
  by_cases hl : l = nominalLabel
  · by_cases hl' : l' = nominalLabel
    · rw [hl, hl']
    · rw [if_pos hl, if_neg hl'] at h
      exact absurd h.symm labelledColumn_ne
  · rw [if_neg hl] at h
    by_cases hl' : l' = nominalLabel
    · rw [if_pos hl'] at h
      exact absurd h labelledColumn_ne
    · rw [if_neg hl', labelledColumn_inj] at h
      exact h

namespace Booking

variable {labels ls : List String} {catalogs : List (List String)} {bin bin' : UInt64}
  {bins bins' : List UInt64} {l : String}

/-! ## Labels of bins -/

/-- Distinct labels tell the bins. -/
theorem labelOf?_inj (h : labels.Nodup) (hb : labelOf? labels bin = some l)
    (hb' : labelOf? labels bin' = some l) : bin = bin' := by
  unfold labelOf? at hb hb'
  split_ifs at hb hb'
  have hlt := (List.getElem?_eq_some_iff.1 hb).1
  have hpred : bin - 1 = bin' - 1 :=
    UInt64.toNat_inj.1 ((List.getElem?_inj hlt h).1 (hb.trans hb'.symm))
  rw [← UInt64.sub_add_cancel bin 1, hpred, UInt64.sub_add_cancel]

theorem labelOf?_mem (hb : labelOf? labels bin = some l) : l ∈ labels := by
  unfold labelOf? at hb
  split_ifs at hb
  exact List.mem_of_getElem? hb

/-- The labels of bins, one from each catalog. -/
def labelsOf? (catalogs : List (List String)) (bins : List UInt64) : Option (List String) :=
  ((bins.zip catalogs).map fun (bin, labels) => labelOf? labels bin).mapM id

theorem labelsOf?_cons (labels : List String) (catalogs : List (List String)) (bin : UInt64)
    (bins : List UInt64) : labelsOf? (labels :: catalogs) (bin :: bins) =
      (labelOf? labels bin).bind fun l => (labelsOf? catalogs bins).map (l :: ·) := by
  rw [labelsOf?, List.zip_cons_cons, List.map_cons, List.mapM_cons]
  change (labelOf? labels bin).bind (fun l => (labelsOf? catalogs bins).bind fun path =>
    some (l :: path)) = _
  simp only [Option.map_eq_bind]
  rfl

theorem labelsOf?_append (hlen : bins.length = catalogs.length) (labels : List String)
    (bin : UInt64) : labelsOf? (catalogs ++ [labels]) (bins ++ [bin]) =
      (labelsOf? catalogs bins).bind fun path =>
        (labelOf? labels bin).map fun l => path ++ [l] := by
  induction catalogs generalizing bins with
  | nil =>
    rw [List.length_eq_zero_iff.1 hlen, List.nil_append, List.nil_append, labelsOf?_cons]
    cases labelOf? labels bin <;> rfl
  | cons first catalogs ih =>
    cases bins with
    | nil => cases hlen
    | cons b bins =>
      rw [List.cons_append, List.cons_append, labelsOf?_cons, labelsOf?_cons,
        ih (Nat.succ.inj hlen)]
      cases labelOf? first b with
      | none => rfl
      | some l =>
        cases labelsOf? catalogs bins with
        | none => rfl
        | some path => cases labelOf? labels bin <;> rfl

theorem length_labelsOf? (hlen : bins.length = catalogs.length)
    (h : labelsOf? catalogs bins = some ls) : ls.length = catalogs.length := by
  induction catalogs generalizing bins ls with
  | nil =>
    rw [List.length_eq_zero_iff.1 hlen] at h
    cases h
    rfl
  | cons labels catalogs ih =>
    cases bins with
    | nil => cases hlen
    | cons bin bins =>
      rw [labelsOf?_cons, Option.bind_eq_some_iff] at h
      obtain ⟨l, -, hrest⟩ := h
      obtain ⟨path, hpath, rfl⟩ := Option.map_eq_some_iff.1 hrest
      rw [List.length_cons, List.length_cons, ih (Nat.succ.inj hlen) hpath]

/-- Distinct labels in each catalog tell the bins. -/
theorem labelsOf?_inj (hnd : ∀ labels ∈ catalogs, labels.Nodup)
    (hlen : bins.length = catalogs.length) (hlen' : bins'.length = catalogs.length)
    (h : labelsOf? catalogs bins = some ls) (h' : labelsOf? catalogs bins' = some ls) :
    bins = bins' := by
  induction catalogs generalizing bins bins' ls with
  | nil => rw [List.length_eq_zero_iff.1 hlen, List.length_eq_zero_iff.1 hlen']
  | cons labels catalogs ih =>
    cases bins with
    | nil => cases hlen
    | cons bin bins =>
      cases bins' with
      | nil => cases hlen'
      | cons bin' bins' =>
        rw [List.forall_mem_cons] at hnd
        rw [labelsOf?_cons, Option.bind_eq_some_iff] at h h'
        obtain ⟨l, hl, hrest⟩ := h
        obtain ⟨path, hpath, rfl⟩ := Option.map_eq_some_iff.1 hrest
        obtain ⟨l', hl', hrest'⟩ := h'
        obtain ⟨path', hpath', heq⟩ := Option.map_eq_some_iff.1 hrest'
        cases heq
        rw [labelOf?_inj hnd.1 hl hl',
          ih hnd.2 (Nat.succ.inj hlen) (Nat.succ.inj hlen') hpath hpath']

/-! ## Keys of bins -/

variable {b : Booking} {key : OutputKey}

/-- The last selection axis of a booking is the axis of variations. -/
structure Indexed (b : Booking) (catalogs : List (List String)) (labels : List String) : Prop where
  selection : b.selection.length = catalogs.length + 1
  catalogs : b.catalogs = catalogs ++ [labels]

/-- Where a bin belongs is told by the labels of its region and of its variation. -/
theorem keyOf?_append (hb : b.Indexed catalogs labels) (hlen : bins.length = catalogs.length)
    (valueBin : UInt64) : b.keyOf? (bins ++ [bin, valueBin]) =
      (labelsOf? catalogs bins).bind fun path =>
        (labelOf? labels bin).map fun l => ⟨path, leafName b.observable.column l⟩ := by
  have htake : (bins ++ [bin, valueBin]).take b.selection.length = bins ++ [bin] := by
    rw [hb.selection, List.append_cons, ← hlen, List.take_left' (by simp)]
  have hkey : b.keyOf? (bins ++ [bin, valueBin]) =
      (labelsOf? (catalogs ++ [labels]) (bins ++ [bin])).bind fun ls =>
        if ls.length < b.selection.length then none
        else some ⟨ls.dropLast, leafName b.observable.column (ls.getLast?.getD nominalLabel)⟩ := by
    unfold keyOf?
    dsimp only
    rw [htake, hb.catalogs]
    rfl
  rw [hkey, labelsOf?_append hlen]
  cases hpath : labelsOf? catalogs bins with
  | none => rfl
  | some path =>
    have hlength := length_labelsOf? hlen hpath
    cases labelOf? labels bin with
    | none => rfl
    | some l => simp [hb.selection, hlength]

/-- The coordinates of a bin are those of its region, of its variation and its value bin. -/
theorem exists_append (hb : b.Indexed catalogs labels) {coords : List UInt64}
    (hr : InRange b.axes coords) :
    ∃ bins bin valueBin, bins.length = catalogs.length ∧ coords = bins ++ [bin, valueBin] := by
  have hlen : coords.length = catalogs.length + 2 := by
    rw [← hr.length_eq, axes, List.length_append, List.length_map, hb.selection]
    rfl
  have htwo : (coords.drop catalogs.length).length = 2 := by
    rw [List.length_drop, hlen, Nat.add_sub_cancel_left]
  obtain ⟨bin, valueBin, htwo⟩ := List.length_eq_two.1 htwo
  refine ⟨coords.take catalogs.length, bin, valueBin, ?_, ?_⟩
  · rw [List.length_take, hlen]
    omega
  · rw [← htwo, List.take_append_drop]

theorem valueBin_append (hb : b.Indexed catalogs labels) (hlen : bins.length = catalogs.length)
    (valueBin : UInt64) : b.valueBin (bins ++ [bin, valueBin]) = valueBin := by
  rw [Booking.valueBin, hb.selection, ← hlen]
  simp

/-- No two bins belong to the same value bin of a spectrum. -/
theorem eq_of_under (hb : b.Indexed catalogs labels) (hnd : ∀ ls ∈ catalogs, ls.Nodup)
    (hl : labels.Nodup) {c c' : List UInt64} (hr : InRange b.axes c) (hr' : InRange b.axes c')
    (hc : b.Under key bin c) (hc' : b.Under key bin c') : c = c' := by
  obtain ⟨bins, i, j, hlen, rfl⟩ := exists_append hb hr
  obtain ⟨bins', i', j', hlen', rfl⟩ := exists_append hb hr'
  obtain ⟨hkey, hvalue⟩ := hc
  obtain ⟨hkey', hvalue'⟩ := hc'
  rw [valueBin_append hb hlen] at hvalue
  rw [valueBin_append hb hlen'] at hvalue'
  rw [keyOf?_append hb hlen, Option.bind_eq_some_iff] at hkey
  rw [keyOf?_append hb hlen', Option.bind_eq_some_iff] at hkey'
  obtain ⟨path, hpath, hlabel⟩ := hkey
  obtain ⟨l, hi, rfl⟩ := Option.map_eq_some_iff.1 hlabel
  obtain ⟨path', hpath', hlabel'⟩ := hkey'
  obtain ⟨l', hi', heq⟩ := Option.map_eq_some_iff.1 hlabel'
  rw [OutputKey.mk.injEq] at heq
  obtain ⟨rfl, hleaf⟩ := heq
  rw [leafName_injective _ hleaf] at hi'
  rw [labelsOf?_inj hnd hlen hlen' hpath hpath', labelOf?_inj hl hi hi', hvalue, hvalue']

/-! ## The axis of variations -/

/-- The axis of an index column. -/
def indexAxis (n : Nat) : Axis :=
  ⟨n.toUInt64, -0.5, n.toUInt64.toFloat - 0.5⟩

section Place

variable {ν : Type} [FillNumber ν]

/-- A value within the range lies in the bin at its place, counted from one. -/
theorem findBin_of_place {axis : Axis} {x : ν} {k : Nat}
    (hlo : FillNumber.lt x (FillNumber.ofFloat axis.lo) = false)
    (hhi : FillNumber.lt x (FillNumber.ofFloat axis.hi) = true)
    (hplace : FillNumber.truncate (FillNumber.div (FillNumber.mul (FillNumber.sub x
      (FillNumber.ofFloat axis.lo)) (FillNumber.ofWord axis.bins)) (FillNumber.sub
        (FillNumber.ofFloat axis.hi) (FillNumber.ofFloat axis.lo))) = k.toUInt64)
    (hk : k < axis.bins.toNat) : axis.findBin x = k.toUInt64 + 1 := by
  have hbins := axis.bins.toNat_lt
  have hlast : ¬axis.bins - 1 < k.toUInt64 := by
    have hpred : (axis.bins - 1).toNat = axis.bins.toNat - 1 :=
      UInt64.toNat_sub_of_le _ _ (show 1 ≤ axis.bins.toNat by omega)
    have hindex : k.toUInt64.toNat = k := UInt64.toNat_ofNat_of_lt' (show k < 2 ^ 64 by omega)
    rw [UInt64.not_lt, UInt64.le_iff_toNat_le, hindex, hpred]
    omega
  unfold Axis.findBin
  dsimp only
  rw [hplace, if_neg (by simp [hlo]), if_pos hhi, if_neg hlast]

/-- Does the arithmetic find each index in the bin of its own label, on the axis of `n` labels? -/
def TellsIndices (ν : Type) [FillNumber ν] (n : Nat) : Prop :=
  ∀ k < n, (indexAxis n).findBin (FillNumber.ofFloat k.toUInt64.toFloat : ν) = k.toUInt64 + 1

theorem toNat_bins_indexAxis {n : Nat} (hn : n < 2 ^ 64) : (indexAxis n).bins.toNat = n :=
  UInt64.toNat_ofNat_of_lt' hn

end Place

open FillNumber in
/-- Where the axis of `n` labels finds a value, if its ends are worked out in the same
arithmetic. -/
def labelBin {ν : Type} [FillNumber ν] (n : Nat) (x : ν) : UInt64 :=
  binBetween n.toUInt64 (ofFloat (-0.5)) (sub (ofWord n.toUInt64) (ofFloat 0.5)) x

/-- In doubles this is the search on the axis that is made. -/
theorem findBin_indexAxis (n : Nat) (x : Float) : (indexAxis n).findBin x = labelBin n x :=
  rfl

theorem labelBin_rat {n : Nat} (hn : n < 2 ^ 64) (x : Rat) :
    labelBin n x = binBetween n.toUInt64 (-(1 / 2) : Rat) (n - 1 / 2) x := by
  have hstart : (FillNumber.ofFloat (-0.5) : Rat) = -(1 / 2) := Double.exact_neg_half
  have hhalf : (FillNumber.ofFloat 0.5 : Rat) = 1 / 2 := by decide +kernel
  have hcount : (FillNumber.ofWord n.toUInt64 : Rat) = n :=
    (ofWord_rat _).trans (congrArg Nat.cast (UInt64.toNat_ofNat_of_lt' hn))
  rw [labelBin, hstart, hhalf, hcount]
  rfl

/-- In exact arithmetic an index lies in the bin of its own label, for any number of labels. -/
theorem toNat_labelBin {n k : Nat} (hk : k < n) (hn : n + 2 < 2 ^ 64) :
    (labelBin n (k : Rat)).toNat = k + 1 := by
  have hbins : n.toUInt64.toNat = n := UInt64.toNat_ofNat_of_lt' (show n < 2 ^ 64 by omega)
  have h0 : n.toUInt64 ≠ 0 := fun h0 => by
    rw [h0] at hbins
    exact absurd hbins (Nat.zero_lt_of_lt hk).ne
  have hk0 : (0 : Rat) ≤ k := Nat.cast_nonneg k
  have hk1 : (k : Rat) + 1 ≤ n := by exact_mod_cast hk
  have hwidth : ((n : Rat) - 1 / 2 - -(1 / 2)) / n = 1 := by
    have hn0 : (n : Rat) ≠ 0 := by linarith
    field_simp
    ring
  rw [labelBin_rat (by omega)]
  refine (toNat_binBetween_eq_iff h0 (by omega) (by linarith) (by linarith)).2 ?_
  rw [hbins, hwidth]
  constructor <;> linarith

/-- Fractions tell the indices of up to `2 ^ 52` labels, for which the ends of the axis are not
rounded. -/
theorem tellsIndices_rat {n : Nat} (hn : n ≤ 2 ^ 52) : TellsIndices Rat n := by
  intro k hk
  have hx : (FillNumber.ofFloat k.toUInt64.toFloat : Rat) = k := Double.exact_toFloat (by omega)
  have hlo : (FillNumber.ofFloat (indexAxis n).lo : Rat) = -(1 / 2) := Double.exact_neg_half
  have hhi : (FillNumber.ofFloat (indexAxis n).hi : Rat) = n - 1 / 2 :=
    Double.exact_toFloat_sub_half (by omega) hn
  have hword : k.toUInt64.toNat = k := UInt64.toNat_ofNat_of_lt' (show k < 2 ^ 64 by omega)
  rw [Axis.findBin_eq, hx, hlo, hhi]
  change binBetween n.toUInt64 _ _ _ = _
  rw [← labelBin_rat (by omega)]
  apply UInt64.toNat_inj.1
  rw [toNat_labelBin hk (by omega), UInt64.toNat_add, hword, UInt64.toNat_one,
    Nat.mod_eq_of_lt (by omega)]

/-- With one label more the end of the axis is rounded down, and the last index lies above it. -/
example : (indexAxis (2 ^ 52 + 1)).findBin ((2 ^ 52 : Nat) : Rat) =
    (indexAxis (2 ^ 52 + 1)).bins + 1 := by
  decide +kernel

/-- Doubles tell the indices of up to `2 ^ 50` labels, although places are rounded. -/
theorem tellsIndices_float {n : Nat} (hn : n ≤ 2 ^ 50) : TellsIndices Float n := by
  intro k hk
  have hend := Double.normal_toFloat_sub_half (n := n) (by omega) (by omega)
  refine findBin_of_place ?_ ?_ (Double.toUInt64_place hn hk)
    (by rwa [toNat_bins_indexAxis (by omega)])
  · refine decide_eq_false ?_
    rcases Nat.eq_zero_or_pos k with rfl | hk0
    · exact show ¬(0 : Nat).toUInt64.toFloat < -0.5 by decide +kernel
    · exact (Double.normal_toFloat hk0 (by omega)).not_lt_neg_half
  · refine decide_eq_true ?_
    rcases Nat.eq_zero_or_pos k with rfl | hk0
    · exact hend.zero_lt
    · refine ((Double.normal_toFloat hk0 (by omega)).lt_iff hend).2 ?_
      have hlt : (2 * k : Rat) < (2 * n - 1 : Nat) := by exact_mod_cast (by omega)
      linarith

theorem labelOf?_index {k : Nat} (hk : k + 1 < 2 ^ 64) (h : labels[k]? = some l) :
    labelOf? labels (k.toUInt64 + 1) = some l := by
  have hword : (k.toUInt64).toNat = k := UInt64.toNat_ofNat_of_lt' (show k < 2 ^ 64 by omega)
  have hne : k.toUInt64 + 1 ≠ 0 := fun h0 => by
    have := congrArg UInt64.toNat h0
    rw [UInt64.toNat_add, hword, UInt64.toNat_one, Nat.mod_eq_of_lt hk] at this
    cases this
  rw [labelOf?, if_neg hne, UInt64.add_sub_cancel, hword, h]

end Booking

/-! ## Places of spectra -/

section Places

variable {catalogs : List (List String)} {labels path : List String} {b : Booking}
  {key : OutputKey}

theorem regionPaths_concat (catalogs : List (List String)) (labels : List String) :
    regionPaths (catalogs ++ [labels]) =
      (regionPaths catalogs).flatMap fun p => labels.map fun l => p ++ [l] := by
  rw [regionPaths, List.foldl_append]
  rfl

theorem regionPaths_ne_nil (h : ∀ labels ∈ catalogs, labels ≠ []) : regionPaths catalogs ≠ [] := by
  induction catalogs using List.reverseRecOn with
  | nil => exact List.cons_ne_nil _ _
  | append_singleton catalogs labels ih =>
    obtain ⟨p, hp⟩ := List.exists_mem_of_ne_nil _
      (ih fun ls hls => h ls (List.mem_append_left _ hls))
    obtain ⟨l, hl⟩ := List.exists_mem_of_ne_nil _ (h labels (by simp))
    rw [regionPaths_concat]
    exact List.ne_nil_of_mem (List.mem_flatMap.2 ⟨p, hp, List.mem_map_of_mem hl⟩)

/-- The labels of bins are the path of a region. -/
theorem mem_regionPaths_of_labelsOf? {bins : List UInt64} (hlen : bins.length = catalogs.length)
    (h : Booking.labelsOf? catalogs bins = some path) : path ∈ regionPaths catalogs := by
  induction catalogs using List.reverseRecOn generalizing bins path with
  | nil =>
    rw [List.length_eq_zero_iff.1 hlen] at h
    cases h
    exact List.mem_singleton.2 rfl
  | append_singleton catalogs labels ih =>
    rcases List.eq_nil_or_concat bins with rfl | ⟨bins, bin, rfl⟩
    · simp at hlen
    · rw [List.concat_eq_append] at h hlen
      have hlen : bins.length = catalogs.length := by simpa using hlen
      rw [Booking.labelsOf?_append hlen, Option.bind_eq_some_iff] at h
      obtain ⟨path, hpath, hlabel⟩ := h
      obtain ⟨l, hl, rfl⟩ := Option.map_eq_some_iff.1 hlabel
      rw [regionPaths_concat]
      exact List.mem_flatMap.2
        ⟨path, ih hlen hpath, List.mem_map_of_mem (Booking.labelOf?_mem hl)⟩

/-- The path of a region is made of labels. -/
theorem exists_labels_of_mem_regionPaths {label : String} (hpath : path ∈ regionPaths catalogs)
    (hl : label ∈ path) : ∃ labels ∈ catalogs, label ∈ labels := by
  induction catalogs using List.reverseRecOn generalizing path with
  | nil =>
    rw [List.mem_singleton.1 hpath] at hl
    cases hl
  | append_singleton catalogs last ih =>
    rw [regionPaths_concat, List.mem_flatMap] at hpath
    obtain ⟨before, hbefore, hpath⟩ := hpath
    obtain ⟨l, hlast, rfl⟩ := List.mem_map.1 hpath
    rcases List.mem_append.1 hl with hl | hl
    · obtain ⟨labels, hlabels, hmem⟩ := ih hbefore hl
      exact ⟨labels, List.mem_append_left _ hlabels, hmem⟩
    · rw [List.mem_singleton.1 hl]
      exact ⟨last, by simp, hlast⟩

/-- If all regions have their own path, the labels along each axis are distinct. -/
theorem nodup_of_nodup_regionPaths (hne : ∀ labels ∈ catalogs, labels ≠ [])
    (h : (regionPaths catalogs).Nodup) : ∀ labels ∈ catalogs, labels.Nodup := by
  induction catalogs using List.reverseRecOn with
  | nil => simp
  | append_singleton catalogs last ih =>
    have hne' : ∀ labels ∈ catalogs, labels ≠ [] := fun ls hls =>
      hne ls (List.mem_append_left _ hls)
    rw [regionPaths_concat, List.nodup_flatMap] at h
    obtain ⟨p, hp⟩ := List.exists_mem_of_ne_nil _ (regionPaths_ne_nil hne')
    obtain ⟨l, hl⟩ := List.exists_mem_of_ne_nil _ (hne last (by simp))
    have hpaths : (regionPaths catalogs).Nodup := by
      refine h.2.imp_of_mem fun {p p'} hp hp' hdisjoint heq => ?_
      subst heq
      exact hdisjoint (List.mem_map_of_mem hl) (List.mem_map_of_mem hl)
    intro labels hlabels
    rcases List.mem_append.1 hlabels with hlabels | hlabels
    · exact ih hne' hpaths labels hlabels
    · rw [List.mem_singleton.1 hlabels]
      exact (h.1 p hp).of_map _

theorem mem_outputKeys : key ∈ b.outputKeys ↔ key.path ∈ regionPaths b.catalogs.dropLast ∧
    ∃ s ∈ b.slices, leafName b.observable.column s.label = key.leaf := by
  obtain ⟨path, leaf⟩ := key
  simp only [Booking.outputKeys, List.mem_flatMap, List.mem_map, OutputKey.mk.injEq]
  constructor
  · rintro ⟨p, hp, leaf', ⟨s, hs, rfl⟩, rfl, rfl⟩
    exact ⟨hp, s, hs, rfl⟩
  · rintro ⟨hp, s, hs, rfl⟩
    exact ⟨path, hp, _, ⟨s, hs, rfl⟩, rfl, rfl⟩

/-- A booking whose spectra have their own places has regions with their own paths. -/
theorem nodup_regionPaths (hs : b.slices ≠ []) (h : b.outputKeys.Nodup) :
    (regionPaths b.catalogs.dropLast).Nodup := by
  obtain ⟨s, hs⟩ := List.exists_mem_of_ne_nil _ hs
  have hleaf := List.mem_map_of_mem (f := fun s => leafName b.observable.column s.label) hs
  refine (List.nodup_flatMap.1 h).2.imp fun {p p'} hdisjoint heq => ?_
  subst heq
  exact hdisjoint (List.mem_map_of_mem hleaf) (List.mem_map_of_mem hleaf)

theorem claimKey_eq_ok {taken : OutputKey → Bool} {claimed claimed' : Std.TreeMap OutputKey String}
    {name : String} (h : claimKey taken claimed name key = .ok claimed') :
    key ∉ claimed ∧ claimed' = claimed.insert key name := by
  unfold claimKey at h
  split_ifs at h
  split at h
  · cases h
  · rename_i hfree
    cases h
    refine ⟨fun hmem => ?_, rfl⟩
    rw [Std.TreeMap.mem_iff_isSome_getElem?, hfree] at hmem
    cases hmem

theorem nodup_of_claims {taken : OutputKey → Bool} {claims : List (String × OutputKey)}
    {claimed claimed' : Std.TreeMap OutputKey String}
    (h : claims.foldlM (m := Except ConfigFault)
      (fun claimed (name, key) => claimKey taken claimed name key) claimed = .ok claimed') :
    (claims.map Prod.snd).Nodup ∧ ∀ key ∈ claims.map Prod.snd, key ∉ claimed := by
  induction claims generalizing claimed with
  | nil => simp
  | cons claim claims ih =>
    obtain ⟨name, key⟩ := claim
    rw [List.foldlM_cons, bind_except_eq_ok_iff] at h
    obtain ⟨claimed₁, hfirst, hrest⟩ := h
    obtain ⟨hfree, rfl⟩ := claimKey_eq_ok hfirst
    obtain ⟨hnd, hout⟩ := ih hrest
    rw [List.map_cons, List.nodup_cons, List.forall_mem_cons]
    refine ⟨⟨fun hmem => hout key hmem Std.TreeMap.mem_insert_self, hnd⟩, hfree, ?_⟩
    exact fun k hk hmem => hout k hk (Std.TreeMap.mem_insert.2 (.inr hmem))

/-- No two spectra of bookings that passed the check share a place. -/
theorem nodup_outputKeys {taken : OutputKey → Bool} {bookings : List Booking}
    (h : checkOutputKeys taken bookings = .ok ()) :
    (bookings.flatMap Booking.outputKeys).Nodup := by
  obtain ⟨claimed, hclaims, -⟩ := bind_except_eq_ok_iff.1 h
  have hnd := (nodup_of_claims hclaims).1
  rw [List.map_flatMap] at hnd
  simpa [Function.comp_def] using hnd

end Places

end VariHist
