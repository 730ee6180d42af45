import Mathlib
import VariHist.Proofs.Booking.Projection
import VariHist.Proofs.Output.Tree

/-!
# What a projection puts into a tree

* `get?_project` — after a projection the event loop is over, and the tree holds the spectra of the
  bookings and nothing else.
-/

namespace VariHist

variable {α ν : Type} [FillNumber ν] {b : Booking} {h : SparseHistogram ν} {key : OutputKey}
  {s : Spectrum ν}

theorem Spectrum.name_addToBin (s : Spectrum ν) (bin : UInt64) (w w2 : ν) (entries : UInt64) :
    (s.addToBin bin w w2 entries).name = s.name := by
  unfold addToBin
  dsimp only
  split_ifs <;> rfl

/-- A spectrum is named by the leaf of its key. -/
theorem Booking.name_of_spectraOf (hs : (b.spectraOf h)[key]? = some s) : s.name = key.leaf := by
  have hfold : ∀ (l : List (UInt64 × BinContent ν)) (s : Spectrum ν),
      (l.foldl (fun s e => s.addToBin e.1 e.2.weight e.2.weightSquared e.2.entries) s).name =
        s.name := by
    intro l
    induction l with
    | nil => exact fun s => rfl
    | cons e l ih => exact fun s => (ih _).trans (Spectrum.name_addToBin s _ _ _ _)
  rw [getElem?_spectraOf] at hs
  split_ifs at hs
  rw [← Option.some.inj hs, hfold]
  rfl

variable [HoldsHistograms α ν] {t t' : EventTable α} {tree tree' : HistogramTree ν}
  {bookings : List Booking}

theorem Booking.spectra_eq_ok_iff {spectra : Spectra ν} :
    b.spectra t = .ok spectra ↔ ∃ h, b.result? t = some h ∧ b.spectraOf h = spectra := by
  unfold Booking.spectra
  cases b.result? t with
  | none => simp
  | some h => simp

/-- The spectra of bookings are put into a tree one booking after another.  The induction is on the
list of bookings. -/
theorem get?_insertBookings (hstep : (bookings.forM fun b => do
      let spectra ← Step.ask fun (s : EventTable α × HistogramTree ν) => b.spectra s.1
      Step.within Prod.snd (fun tree s => (s.1, tree)) (Booking.insertSpectra spectra)) (t, tree) =
      .ok () (t', tree')) :
    t' = t ∧ ∀ p n s, tree'.get? p n = some s ↔ tree.get? p n = some s ∨
      ∃ b ∈ bookings, ∃ h, b.result? t = some h ∧
        (b.spectraOf h)[(⟨p, n⟩ : OutputKey)]? = some s := by
  induction bookings generalizing tree with
  | nil =>
    cases hstep
    simp
  | cons b bookings ih =>
    obtain ⟨⟨⟩, u, hfirst, hrest⟩ := Step.bind_eq_ok_iff.1 hstep
    obtain ⟨spectra, u', hask, hwithin⟩ := Step.bind_eq_ok_iff.1 hfirst
    obtain ⟨hspectra, rfl⟩ := Step.ask_eq_ok_iff.1 hask
    obtain ⟨tree₁, hinsert, rfl⟩ := Step.within_eq_ok_iff.1 hwithin
    obtain ⟨h, hresult, rfl⟩ := Booking.spectra_eq_ok_iff.1 hspectra
    obtain ⟨rfl, hlater⟩ := ih hrest
    refine ⟨rfl, fun p n s => ?_⟩
    have hnames : ∀ e ∈ (b.spectraOf h).toList, e.2.name = e.1.leaf := fun e he =>
      Booking.name_of_spectraOf (Std.TreeMap.mem_toList_iff_getElem?_eq_some.1 he)
    have hnow := HistogramTree.get?_insertAll hnames hinsert p n s
    rw [Std.TreeMap.mem_toList_iff_getElem?_eq_some] at hnow
    rw [hlater, hnow, List.exists_mem_cons_iff, or_assoc]
    simp only [hresult, Option.some.injEq, exists_eq_left']

/-- After a projection the event loop is over, and the tree holds the spectra of the bookings and
nothing else. -/
theorem get?_project [Aggregation α] [Machine]
    (hstep : EventTable.project bookings t = .ok tree t') :
    EventTable.run t = .ok () t' ∧ ∀ p n s, tree.get? p n = some s ↔
      ∃ b ∈ bookings, ∃ h, b.result? t' = some h ∧
        (b.spectraOf h)[(⟨p, n⟩ : OutputKey)]? = some s := by
  unfold EventTable.project at hstep
  split at hstep
  · rename_i t₁ tree₁ hinto
    cases hstep
    obtain ⟨⟨⟩, u, hcheck, hrest⟩ := Step.bind_eq_ok_iff.1 hinto
    obtain ⟨-, rfl⟩ := Step.ask_eq_ok_iff.1 hcheck
    obtain ⟨⟨⟩, u', hwithin, hinsert⟩ := Step.bind_eq_ok_iff.1 hrest
    obtain ⟨t₂, hrun, rfl⟩ := Step.within_eq_ok_iff.1 hwithin
    obtain ⟨rfl, hget⟩ := get?_insertBookings hinsert
    refine ⟨hrun, fun p n s => ?_⟩
    rw [hget, HistogramTree.get?_empty]
    simp
  · cases hstep

end VariHist
