import Mathlib
import VariHist.Histogram.Spectrum
import VariHist.Proofs.Histogram.Indexing

/-!
# Spectra bin by bin

* `Spectrum.holding` — the spectrum that holds given contents, bin by bin.
* `addToBin_holding` — adding to a bin changes the content of this bin only.
* `foldl_addToBin` — a spectrum to which contents are added one after another holds their sums.
-/

namespace VariHist

variable {ν : Type} [FillNumber ν]

namespace Spectrum

/-- The spectrum that holds given contents: bin `0` lies below the range, bins `1` to `bins` lie
within, and bin `bins + 1` lies above. -/
def holding (name title : String) (bins : UInt64) (lo hi : Float) (content : UInt64 → BinContent ν)
    (entries : UInt64) : Spectrum ν where
  name
  title
  bins
  lo
  hi
  edges := edgesOf bins lo hi
  contents := Array.ofFn fun i : Fin bins.toNat => (content (i.val.toUInt64 + 1)).weight
  squares := Array.ofFn fun i : Fin bins.toNat => (content (i.val.toUInt64 + 1)).weightSquared
  underflow := (content 0).weight
  overflow := (content (bins + 1)).weight
  underflowSquares := (content 0).weightSquared
  overflowSquares := (content (bins + 1)).weightSquared
  entries

variable {name title : String} {bins bin : UInt64} {lo hi : Float}
  {content : UInt64 → BinContent ν} {entries : UInt64} {c : BinContent ν}

theorem make_eq_holding :
    (make name title bins lo hi : Spectrum ν) =
      holding name title bins lo hi (fun _ => .zero) 0 := by
  have hfill : Array.replicate bins.toNat (FillNumber.zero : ν) =
      Array.ofFn fun _ : Fin bins.toNat => FillNumber.zero := by
    refine Array.ext (by simp) fun i h h' => ?_
    rw [Array.getElem_replicate, Array.getElem_ofFn]
  rw [make, hfill]
  rfl

theorem toNat_bin {i : Nat} (hb : bins.toNat + 2 < 2 ^ 64) (hi : i < bins.toNat) :
    (i.toUInt64 + 1).toNat = i + 1 := by
  have hword : (i.toUInt64).toNat = i :=
    UInt64.toNat_ofNat_of_lt' (show i < 2 ^ 64 by omega)
  rw [UInt64.toNat_add, hword, UInt64.toNat_one]
  exact Nat.mod_eq_of_lt (by omega)

theorem toNat_overflow (hb : bins.toNat + 2 < 2 ^ 64) : (bins + 1).toNat = bins.toNat + 1 :=
  toNat_add_of_lt (by rw [UInt64.toNat_one]; omega)

/-- Of the bins within the range, adding to a bin changes the bin itself. -/
theorem modify_ofFn {β γ : Type} (f : γ → β) (add : β → β) {content content' : UInt64 → γ}
    (hb : bins.toNat + 2 < 2 ^ 64) (h0 : bin ≠ 0)
    (hself : f (content' bin) = add (f (content bin)))
    (hother : ∀ b ≠ bin, content' b = content b) :
    (Array.ofFn fun i : Fin bins.toNat => f (content (i.val.toUInt64 + 1))).modify
        (bin - 1).toNat add =
      Array.ofFn fun i : Fin bins.toNat => f (content' (i.val.toUInt64 + 1)) := by
  have hpos := toNat_pos h0
  have hpred : (bin - 1).toNat = bin.toNat - 1 := UInt64.toNat_sub_of_le _ _ hpos
  refine Array.ext (by simp) fun i h h' => ?_
  rw [Array.getElem_modify, Array.getElem_ofFn, Array.getElem_ofFn]
  have hi : i < bins.toNat := by simpa using h'
  have hbin := toNat_bin hb hi
  by_cases heq : i.toUInt64 + 1 = bin
  · have hnat : (bin - 1).toNat = i := by
      rw [hpred, ← heq, hbin]
      omega
    rw [if_pos hnat, heq, hself]
  · have hnat : (bin - 1).toNat ≠ i := by
      rintro rfl
      refine heq (UInt64.toNat_inj.1 ?_)
      rw [hbin, hpred]
      omega
    rw [if_neg hnat, hother _ heq]

/-- Bins that are not touched by a change outside of the range. -/
theorem ofFn_congr {β γ : Type} (f : γ → β) {content content' : UInt64 → γ}
    (hother : ∀ i < bins.toNat, content' (i.toUInt64 + 1) = content (i.toUInt64 + 1)) :
    (Array.ofFn fun i : Fin bins.toNat => f (content (i.val.toUInt64 + 1))) =
      Array.ofFn fun i : Fin bins.toNat => f (content' (i.val.toUInt64 + 1)) := by
  refine congrArg Array.ofFn (funext fun i => ?_)
  rw [hother i.val i.isLt]

/-- A spectrum holds nothing but its bins. -/
theorem holding_congr {content' : UInt64 → BinContent ν} (hb : bins.toNat + 2 < 2 ^ 64)
    (h : ∀ bin : UInt64, bin.toNat ≤ bins.toNat + 1 → content' bin = content bin) :
    holding name title bins lo hi content' entries =
      holding name title bins lo hi content entries := by
  have hwithin : ∀ i < bins.toNat, content (i.toUInt64 + 1) = content' (i.toUInt64 + 1) := by
    intro i hi
    have hle : (i.toUInt64 + 1).toNat ≤ bins.toNat + 1 := by
      rw [toNat_bin hb hi]
      omega
    exact (h _ hle).symm
  rw [holding, h 0 (Nat.zero_le _), h (bins + 1) (toNat_overflow hb).le,
    ofFn_congr BinContent.weight hwithin, ofFn_congr BinContent.weightSquared hwithin]
  rfl

/-- Adding to a bin changes what the spectrum holds there. -/
theorem addToBin_holding (hb : bins.toNat + 2 < 2 ^ 64) (hbin : bin.toNat ≤ bins.toNat + 1) :
    (holding name title bins lo hi content entries).addToBin bin c.weight c.weightSquared
        c.entries =
      holding name title bins lo hi (Function.update content bin ((content bin).add c))
        (entries + c.entries) := by
  have hself : Function.update content bin ((content bin).add c) bin = (content bin).add c :=
    Function.update_self _ _ _
  have hother : ∀ b ≠ bin, Function.update content bin ((content bin).add c) b = content b :=
    fun b hne => Function.update_of_ne hne _ _
  generalize Function.update content bin ((content bin).add c) = content' at hself hother
  have hover := toNat_overflow hb
  have hwithin : ∀ i < bins.toNat, i.toUInt64 + 1 ≠ 0 ∧ i.toUInt64 + 1 ≠ bins + 1 := by
    intro i hi
    have hi' := toNat_bin hb hi
    refine ⟨fun h => ?_, fun h => ?_⟩
    · rw [h] at hi'
      cases hi'
    · rw [h, hover] at hi'
      omega
  have hends : bins + 1 ≠ 0 := fun h => by
    rw [h] at hover
    cases hover
  unfold addToBin
  dsimp only [holding]
  by_cases h0 : bin = 0
  · subst h0
    have hsame : ∀ i < bins.toNat, content' (i.toUInt64 + 1) = content (i.toUInt64 + 1) :=
      fun i hi => hother _ (hwithin i hi).1
    rw [if_pos rfl, hself, hother _ hends, ofFn_congr BinContent.weight hsame,
      ofFn_congr BinContent.weightSquared hsame]
    rfl
  · rw [if_neg h0]
    by_cases hn : bins < bin
    · have hlast : bin = bins + 1 := by
        apply UInt64.toNat_inj.1
        have hlt : bins.toNat < bin.toNat := hn
        omega
      subst hlast
      have hsame : ∀ i < bins.toNat, content' (i.toUInt64 + 1) = content (i.toUInt64 + 1) :=
        fun i hi => hother _ (hwithin i hi).2
      rw [if_pos hn, hself, hother _ hends.symm, ofFn_congr BinContent.weight hsame,
        ofFn_congr BinContent.weightSquared hsame]
      rfl
    · have hne : bins + 1 ≠ bin := fun h => hn (by
        rw [← h]
        exact UInt64.lt_iff_toNat_lt.2 (hover ▸ Nat.lt_succ_self _))
      rw [if_neg hn, hother _ (Ne.symm h0), hother _ hne,
        modify_ofFn BinContent.weight (fun x => FillNumber.add x c.weight) hb h0
          (by rw [hself]; rfl) hother,
        modify_ofFn BinContent.weightSquared (fun x => FillNumber.add x c.weightSquared) hb h0
          (by rw [hself]; rfl) hother]

/-- A spectrum to which contents are added one after another holds the sum of what came before and
what was added, bin by bin. -/
theorem foldl_addToBin [ExactAddition ν] (hb : bins.toNat + 2 < 2 ^ 64)
    (l : List (UInt64 × BinContent ν)) (hl : ∀ e ∈ l, e.1.toNat ≤ bins.toNat + 1) :
    l.foldl (fun s e => s.addToBin e.1 e.2.weight e.2.weightSquared e.2.entries)
        (holding name title bins lo hi content entries) =
      holding name title bins lo hi
        (fun b => content b + ((l.filter fun e => e.1 = b).map Prod.snd).sum)
        (entries + (l.map fun e => e.2.entries).sum) := by
  induction l generalizing content entries with
  | nil => simp
  | cons e l ih =>
    obtain ⟨he, hrest⟩ := List.forall_mem_cons.1 hl
    rw [List.foldl_cons, addToBin_holding hb he, ih hrest]
    have hcontent : (fun b => Function.update content e.1 ((content e.1).add e.2) b +
        ((l.filter fun e => e.1 = b).map Prod.snd).sum) =
        fun b => content b + (((e :: l).filter fun e => e.1 = b).map Prod.snd).sum := by
      funext b
      by_cases h : e.1 = b
      · subst h
        rw [Function.update_self, List.filter_cons_of_pos (by simp), List.map_cons, List.sum_cons,
          ← add_assoc]
        rfl
      · rw [Function.update_of_ne (Ne.symm h), List.filter_cons_of_neg (by simpa using h)]
    rw [hcontent, List.map_cons, List.sum_cons, add_assoc]

end Spectrum

end VariHist
