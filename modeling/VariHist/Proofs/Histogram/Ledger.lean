import Mathlib
import VariHist.Proofs.Histogram.Indexing
import VariHist.Step

/-!
# A ledger of fills

Histograms that stand in a table are filled, and added to one another or to themselves, in any
order.  Next to the table a ledger is kept: for each histogram, the fills that have reached it, as
the bins in which their points lie and their weights.  An addition hands over all that the ledger
has of the histogram that is added.

* `Holds` — what a histogram stores is what its page of the ledger adds up to.
* `holds_carryOut`, `holds_afterAll` — one change keeps this, and so does any sequence of changes.
* `Tallied` — the same as the histogram shows it: entries and sums by coordinates, the bins that
  are stored, the total, and the sorted list.
* `tallied_afterAll` — every table is tallied by its ledger after any sequence of changes, and an
  addition changes no histogram but its target, and that one only if the axes are equal.
-/

namespace VariHist

/-! ## Exact sums -/

/-- Two arithmetics side by side.  Places are found with the first. -/
instance {μ ν : Type} [FillNumber μ] [FillNumber ν] : FillNumber (μ × ν) where
  ofFloat x := (FillNumber.ofFloat x, FillNumber.ofFloat x)
  ofWord n := (FillNumber.ofWord n, FillNumber.ofWord n)
  add a b := (FillNumber.add a.1 b.1, FillNumber.add a.2 b.2)
  sub a b := (FillNumber.sub a.1 b.1, FillNumber.sub a.2 b.2)
  mul a b := (FillNumber.mul a.1 b.1, FillNumber.mul a.2 b.2)
  div a b := (FillNumber.div a.1 b.1, FillNumber.div a.2 b.2)
  lt a b := FillNumber.lt a.1 b.1
  isZero a := FillNumber.isZero a.1
  truncate a := FillNumber.truncate a.1

/-- A reading of numbers as fractions under which neither sums nor products are rounded. -/
structure ExactReading {ν : Type} [FillNumber ν] (value : ν → Rat) : Prop where
  zero : value FillNumber.zero = 0
  add : ∀ a b, value (FillNumber.add a b) = value a + value b
  mul : ∀ a b, value (FillNumber.mul a b) = value a * value b

/-- Fractions carried along with the numbers that decide on places are summed exactly. -/
theorem exactReading_snd {μ : Type} [FillNumber μ] : ExactReading (Prod.snd : μ × Rat → Rat) :=
  ⟨FillNumber.zero_rat, fun _ _ => rfl, fun _ _ => rfl⟩

variable {ν : Type} [FillNumber ν]

theorem ExactReading.additive_weight {value : ν → Rat} (h : ExactReading value) :
    BinContent.IsAdditive fun c : BinContent ν => value c.weight :=
  ⟨h.zero, fun _ _ => h.add _ _⟩

theorem ExactReading.additive_weightSquared {value : ν → Rat} (h : ExactReading value) :
    BinContent.IsAdditive fun c : BinContent ν => value c.weightSquared :=
  ⟨h.zero, fun _ _ => h.add _ _⟩

/-! ## Tables of histograms and their ledgers -/

/-- Histograms by name, number or any other key. -/
abbrev HistogramTable (ι ν : Type) : Type :=
  ι → SparseHistogram ν

/-- A fill that reached a histogram: the bins in which its point lies, one per axis, and its
weight. -/
structure Landing (ν : Type) where
  bins : List UInt64
  weight : ν

/-- The fills that reached each histogram. -/
abbrev Ledger (ι ν : Type) : Type :=
  ι → List (Landing ν)

/-- The fills of a page that landed in the bin at some coordinates. -/
def landedIn (page : List (Landing ν)) (coords : List UInt64) : List (Landing ν) :=
  page.filter fun f => f.bins = coords

namespace HistogramTable

/-- A change of a table. -/
inductive Move (ι ν : Type) where
  /-- A point is filled into a histogram. -/
  | fill (target : ι) (point : List ν) (weight : ν)
  /-- A histogram is added to another one or to itself. -/
  | add (target source : ι)

variable {ι : Type} [DecidableEq ι]

/-- Carries out a change.  An addition that is refused changes nothing. -/
def Move.carryOut : Move ι ν → Step (HistogramTable ι ν) Unit
  | .fill target point weight =>
    Step.attempt fun t => .ok (Function.update t target ((t target).fill point weight))
  | .add target source =>
    Step.attempt fun t =>
      ((t target).add (t source)).mapError .computation |>.map (Function.update t target)

/-- The table after a sequence of changes. -/
def afterAll (moves : List (Move ι ν)) (t : HistogramTable ι ν) : HistogramTable ι ν :=
  moves.foldl (fun t move => Step.stateAfter move.carryOut t) t

/-- Writes a change down.  Histograms are added only if their axes are equal. -/
def Move.record (axes : ι → List Axis) (ledger : Ledger ι ν) : Move ι ν → Ledger ι ν
  | .fill target point weight =>
    Function.update ledger target (ledger target ++ [⟨binsOf (axes target) point, weight⟩])
  | .add target source =>
    if axes target == axes source then
      Function.update ledger target (ledger target ++ ledger source)
    else ledger

/-- The ledger of a sequence of changes, by the axes of the histograms alone. -/
def ledgerOf (axes : ι → List Axis) (moves : List (Move ι ν)) : Ledger ι ν :=
  moves.foldl (Move.record axes) fun _ => []

/-- Has the point of a fill one coordinate per axis? -/
def Move.Fits (axes : ι → List Axis) : Move ι ν → Prop
  | .fill target point _ => point.length = (axes target).length
  | .add _ _ => True

/-! ## The invariant -/

/-- A histogram stores what a page of the ledger adds up to, bin by bin. -/
structure Holds (axes : List Axis) (page : List (Landing ν)) (h : SparseHistogram ν) : Prop where
  axes_eq : h.axes = axes
  inRange : ∀ f ∈ page, InRange axes f.bins
  stored : ∀ i, i ∈ h.bins ↔ ∃ f ∈ page, linearIndex axes f.bins = i
  content : ∀ {M : Type} [AddCommMonoid M] {q : BinContent ν → M}, BinContent.IsAdditive q →
    ∀ i, q (h.contentAt i) =
      ((page.filter fun f => linearIndex axes f.bins = i).map fun f => q (.ofWeight f.weight)).sum
  entries : h.entries = (page.map fun _ => (1 : UInt64)).sum

variable {axes axes' : List Axis} {page page' : List (Landing ν)} {h other : SparseHistogram ν}

theorem Holds.blank (name : String) (axes : List Axis) :
    Holds axes ([] : List (Landing ν)) (.blank name axes) where
  axes_eq := rfl
  inRange := by simp
  stored := by simp
  content hq i := by rw [SparseHistogram.contentAt_blank, hq.zero]; rfl
  entries := rfl

theorem Holds.fill (hh : Holds axes page h) (hs : ∀ a ∈ axes, a.Sound) {point : List ν}
    (hp : point.length = axes.length) (w : ν) :
    Holds axes (page ++ [⟨binsOf axes point, w⟩]) (h.fill point w) := by
  have hindex : h.indexOf point = linearIndex axes (binsOf axes point) := by
    rw [SparseHistogram.indexOf, SparseHistogram.locate, hh.axes_eq, binsOf]
  refine ⟨hh.axes_eq, ?_, fun i => ?_, fun hq i => ?_, ?_⟩
  · simpa [or_imp, forall_and] using ⟨hh.inRange, inRange_binsOf hs hp⟩
  · rw [SparseHistogram.mem_fill, hh.stored, hindex]
    simp [or_and_right, exists_or, or_comm]
  · rw [SparseHistogram.contentAt_fill, hindex, List.filter_append, List.map_append,
      List.sum_append, ← hh.content hq]
    by_cases hi : linearIndex axes (binsOf axes point) = i
    · simp [hi, hq.add]
    · simp [hi]
  · rw [List.map_append, List.sum_append, ← hh.entries, List.map_singleton, List.sum_singleton]
    rfl

/-- Axes of equal sizes number their bins alike, so pages can be joined. -/
theorem Holds.absorb (hh : Holds axes page h) (ho : Holds axes' page' other)
    (hsizes : axes'.map Axis.size = axes.map Axis.size) :
    Holds axes (page ++ page') (h.absorb other) := by
  have hindex := linearIndex_congr hsizes
  refine ⟨hh.axes_eq, ?_, fun i => ?_, fun hq i => ?_, ?_⟩
  · intro f hf
    rcases List.mem_append.1 hf with hf | hf
    · exact hh.inRange f hf
    · exact (ho.inRange f hf).congr hsizes
  · rw [SparseHistogram.mem_absorb, hh.stored, ho.stored]
    simp [or_and_right, exists_or, hindex]
  · rw [SparseHistogram.contentAt_absorb hq, hh.content hq, ho.content hq, List.filter_append,
      List.map_append, List.sum_append]
    simp only [hindex]
  · rw [List.map_append, List.sum_append, ← hh.entries, ← ho.entries]
    rfl

/-- Axes that are equal, zeros of different signs taken for the same, have equal sizes. -/
theorem sizes_of_beq (h : (axes == axes') = true) : axes'.map Axis.size = axes.map Axis.size := by
  induction axes generalizing axes' with
  | nil => cases axes' with
    | nil => rfl
    | cons a' axes' => cases h
  | cons a axes ih => cases axes' with
    | nil => cases h
    | cons a' axes' =>
      rw [List.cons_beq_cons, Bool.and_eq_true] at h
      have hbins : a.bins = a'.bins := by
        have ha : (a.bins == a'.bins && (a.lo == a'.lo && a.hi == a'.hi)) = true := h.1
        exact beq_iff_eq.1 (Bool.and_eq_true_iff.1 ha).1
      rw [List.map_cons, List.map_cons, ih h.2, Axis.size, Axis.size, hbins]

/-! ## One change, and any sequence of changes -/

section Table

variable {axes : ι → List Axis} {ledger : Ledger ι ν} {t : HistogramTable ι ν} {move : Move ι ν}

/-- An addition goes by the axes: it is refused, or changes its target alone. -/
theorem carryOut_add (target source : ι) (t : HistogramTable ι ν) :
    (Move.add target source).carryOut t =
      if (t target).axes == (t source).axes then
        .ok () (Function.update t target ((t target).absorb (t source)))
      else .error (.computation (.axesDiffer (t source).name (t target).name)) t := by
  by_cases ha : (t target).axes == (t source).axes
  · simp [Move.carryOut, Step.attempt, SparseHistogram.add, ha, Except.map, Except.mapError]
  · simp [Move.carryOut, Step.attempt, SparseHistogram.add, ha, Except.map, Except.mapError]

theorem holds_carryOut (hs : ∀ k, ∀ a ∈ axes k, a.Sound)
    (hh : ∀ k, Holds (axes k) (ledger k) (t k)) (hfit : move.Fits axes) (k : ι) :
    Holds (axes k) (move.record axes ledger k) (Step.stateAfter move.carryOut t k) := by
  cases move with
  | fill target point weight =>
    rw [Move.record]
    by_cases hk : k = target
    · subst hk
      simpa [Move.carryOut, Step.attempt, Step.stateAfter] using (hh k).fill (hs k) hfit weight
    · simpa [Move.carryOut, Step.attempt, Step.stateAfter, hk] using hh k
  | add target source =>
    rw [Move.record, Step.stateAfter, carryOut_add, (hh target).axes_eq, (hh source).axes_eq]
    by_cases ha : axes target == axes source
    · rw [if_pos ha, if_pos ha]
      by_cases hk : k = target
      · subst hk
        simpa using (hh k).absorb (hh source) (sizes_of_beq ha)
      · simpa [hk] using hh k
    · rw [if_neg ha, if_neg ha]
      exact hh k

theorem holds_afterAll (hs : ∀ k, ∀ a ∈ axes k, a.Sound)
    (ht : ∀ k, Holds (axes k) [] (t k)) {moves : List (Move ι ν)}
    (hfits : ∀ move ∈ moves, move.Fits axes) (k : ι) :
    Holds (axes k) (ledgerOf axes moves k) (afterAll moves t k) := by
  induction moves using List.reverseRecOn generalizing k with
  | nil => exact ht k
  | append_singleton moves move ih =>
    obtain ⟨hbefore, hlast⟩ := List.forall_mem_append.1 hfits
    rw [ledgerOf, afterAll, List.foldl_append, List.foldl_append]
    exact holds_carryOut hs (ih hbefore) (hlast move List.mem_cons_self) k

end Table

/-! ## What a histogram shows -/

/-- A histogram shows what a page of the ledger says. -/
structure Tallied (page : List (Landing ν)) (h : SparseHistogram ν) : Prop where
  /-- A bin counts the fills that landed in it. -/
  count : ∀ coords, InRange h.axes coords →
    (h.bin coords).entries.toNat = (landedIn page coords).length
  /-- Read without rounding, a bin holds their weights and the squares of their weights. -/
  sums : ∀ value : ν → Rat, ExactReading value → ∀ coords, InRange h.axes coords →
    value (h.bin coords).weight = ((landedIn page coords).map fun f => value f.weight).sum ∧
    value (h.bin coords).weightSquared =
      ((landedIn page coords).map fun f => value f.weight * value f.weight).sum
  /-- The bins that are stored are those in which a fill landed. -/
  stored : ∀ coords, InRange h.axes coords →
    (linearIndex h.axes coords ∈ h.bins ↔ 0 < (landedIn page coords).length)
  /-- Every index that is stored is the index of its coordinates. -/
  decoded : ∀ i ∈ h.bins,
    InRange h.axes (coordinates h.axes i) ∧ linearIndex h.axes (coordinates h.axes i) = i
  /-- The total counts all fills, -/
  total : h.entries.toNat = page.length
  /-- and is the sum over the bins. -/
  total_eq_sum : h.entries.toNat = (h.sorted.map fun e => e.2.entries.toNat).sum
  /-- The sorted list is strictly ascending -/
  ascending : (h.sorted.map Prod.fst).Pairwise (· < ·)
  /-- and lists what is stored. -/
  listed : ∀ i c, (i, c) ∈ h.sorted ↔ h.bins[i]? = some c

theorem toNat_sum_one {β : Type} {l : List β} (hl : l.length < 2 ^ 64) :
    (l.map fun _ => (1 : UInt64)).sum.toNat = l.length := by
  have hlength : (l.map fun _ => (1 : UInt64).toNat).sum = l.length := by simp
  rw [toNat_sum_map _ (hlength ▸ hl), hlength]

theorem Holds.entries_contentAt (hh : Holds axes page h) (hl : page.length < 2 ^ 64) (i : UInt64) :
    (h.contentAt i).entries.toNat =
      (page.filter fun f => linearIndex axes f.bins = i).length := by
  rw [hh.content BinContent.additive_entries]
  exact toNat_sum_one ((List.length_filter_le _ _).trans_lt hl)

/-- By coordinates and by linear index, the same fills land in a bin. -/
theorem Holds.filter_index (hh : Holds axes page h) (hc : Countable axes) {coords : List UInt64}
    (hr : InRange axes coords) :
    (page.filter fun f => linearIndex axes f.bins = linearIndex axes coords) =
      landedIn page coords := by
  refine List.filter_congr fun f hf => ?_
  rw [decide_eq_decide]
  exact linearIndex_inj (hh.inRange f hf) hr hc.count

/-- The keys of the map are the indices of the page, each once. -/
theorem Holds.keys_perm (hh : Holds axes page h) :
    h.bins.keys.Perm (page.map fun f => linearIndex axes f.bins).dedup := by
  refine (List.perm_ext_iff_of_nodup ?_ (List.nodup_dedup _)).2 fun i => ?_
  · exact Std.TreeMap.nodup_keys
  · rw [Std.TreeMap.mem_keys, hh.stored, List.mem_dedup, List.mem_map]

theorem Holds.sum_entries (hh : Holds axes page h) (hl : page.length < 2 ^ 64) :
    (h.sorted.map fun e => e.2.entries.toNat).sum = page.length := by
  have hvalue : ∀ e ∈ h.sorted, e.2.entries.toNat =
      (page.map fun f => linearIndex axes f.bins).count e.1 := by
    rintro ⟨i, c⟩ he
    have hi : h.contentAt i = c := by
      rw [SparseHistogram.contentAt, Std.TreeMap.mem_toList_iff_getElem?_eq_some.1 he]
      rfl
    rw [← hi, hh.entries_contentAt hl, List.count_eq_countP, List.countP_map,
      List.countP_eq_length_filter]
    rfl
  calc (h.sorted.map fun e => e.2.entries.toNat).sum
      = (h.sorted.map fun e => (page.map fun f => linearIndex axes f.bins).count e.1).sum := by
        rw [List.map_congr_left hvalue]
    _ = (h.bins.keys.map (page.map fun f => linearIndex axes f.bins).count).sum := by
        rw [← Std.TreeMap.map_fst_toList_eq_keys, List.map_map]
        rfl
    _ = page.length := by
        rw [(hh.keys_perm.map _).sum_eq]
        exact (List.sum_map_count_dedup_eq_length _).trans (List.length_map _)

/-- What the invariant says, as the histogram shows it. -/
theorem Holds.tallied (hh : Holds axes page h) (hc : Countable axes)
    (hl : page.length < 2 ^ 64) : Tallied page h := by
  obtain rfl := hh.axes_eq
  refine ⟨fun coords hr => ?_, fun value hv coords hr => ⟨?_, ?_⟩, fun coords hr => ?_,
    fun i hi => ?_, ?_, ?_, ?_, fun i c => Std.TreeMap.mem_toList_iff_getElem?_eq_some⟩
  · rw [← hh.filter_index hc hr]
    exact hh.entries_contentAt hl _
  · rw [← hh.filter_index hc hr]
    exact hh.content hv.additive_weight _
  · rw [← hh.filter_index hc hr]
    refine (hh.content hv.additive_weightSquared _).trans ?_
    simp only [BinContent.ofWeight, hv.mul]
  · rw [← hh.filter_index hc hr, hh.stored, List.length_pos_iff_exists_mem]
    simp
  · obtain ⟨f, hf, rfl⟩ := (hh.stored i).1 hi
    rw [coordinates_linearIndex (hh.inRange f hf) hc.count]
    exact ⟨hh.inRange f hf, rfl⟩
  · rw [hh.entries]
    exact toNat_sum_one hl
  · rw [hh.sum_entries hl, hh.entries]
    exact toNat_sum_one hl
  · rw [SparseHistogram.sorted, Std.TreeMap.map_fst_toList_eq_keys]
    exact Std.TreeMap.ordered_keys.imp fun hlt => Std.compare_eq_lt.1 hlt

/-- Histograms that start without fills are tallied by their ledger after any sequence of fills and
additions.  At any time, an addition is refused and changes nothing if the axes differ, and changes
its target alone if they are equal. -/
theorem tallied_afterAll {t : HistogramTable ι ν} {names : ι → String} {axes : ι → List Axis}
    (hmade : ∀ k, SparseHistogram.make (names k) (axes k) = .ok (t k))
    (hsizes : ∀ k, ∀ a ∈ axes k, a.bins.toNat + 2 < 2 ^ 64) {moves : List (Move ι ν)}
    (hfits : ∀ move ∈ moves, move.Fits axes)
    (hcounts : ∀ k, (ledgerOf axes moves k).length < 2 ^ 64) :
    let u := afterAll moves t
    (∀ k, (u k).axes = axes k ∧ Tallied (ledgerOf axes moves k) (u k)) ∧
    ∀ target source,
      (¬((u target).axes == (u source).axes) →
        (Move.add target source).carryOut u =
          .error (.computation (.axesDiffer (u source).name (u target).name)) u) ∧
      ((u target).axes == (u source).axes →
        ∃ u', (Move.add target source).carryOut u = .ok () u' ∧ ∀ k, k ≠ target → u' k = u k) := by
  intro u
  have hcountable : ∀ k, Countable (axes k) := fun k =>
    SparseHistogram.countable_of_make (hmade k) (hsizes k)
  have hstart : ∀ k, Holds (axes k) [] (t k) := fun k =>
    SparseHistogram.make_eq_ok (hmade k) ▸ Holds.blank (names k) (axes k)
  refine ⟨fun k => ?_, fun target source => ⟨fun hne => ?_, fun heq => ?_⟩⟩
  · have hk := holds_afterAll (fun k => (hcountable k).sound) hstart hfits k
    exact ⟨hk.axes_eq, hk.tallied (hcountable k) (hcounts k)⟩
  · rw [carryOut_add, if_neg hne]
  · rw [carryOut_add, if_pos heq]
    exact ⟨_, rfl, fun k hk => Function.update_of_ne hk _ _⟩

/-- Two histograms over the same axis. -/
def twoBlank : HistogramTable Bool (Float × Rat) := fun _ => .blank "h" [⟨2, 0, 2⟩]

/-- A fill of weight 1.5 is handed on, and the histogram that received it is added to itself. -/
def handedOn : List (Move Bool (Float × Rat)) :=
  [.fill true [FillNumber.ofFloat 0.5] (FillNumber.ofFloat 1.5), .add false true, .add false false]

/-- The fill has then reached the second histogram twice. -/
theorem tallied_after_self_add :
    ((∀ k, SparseHistogram.make "h" [⟨2, 0, 2⟩] = .ok (twoBlank k)) ∧
      (∀ a ∈ [(⟨2, 0, 2⟩ : Axis)], a.bins.toNat + 2 < 2 ^ 64) ∧
      (∀ move ∈ handedOn, move.Fits fun _ => [⟨2, 0, 2⟩]) ∧
      (∀ k, (ledgerOf (fun _ => [⟨2, 0, 2⟩]) handedOn k).length < 2 ^ 64)) ∧
    ((afterAll handedOn twoBlank false).bin [1]).entries.toNat = 2 ∧
    ((afterAll handedOn twoBlank false).bin [1]).weight.2 = 3 := by
  have hmade : ∀ k, SparseHistogram.make "h" [⟨2, 0, 2⟩] = .ok (twoBlank k) := fun _ => rfl
  have hsizes : ∀ a ∈ [(⟨2, 0, 2⟩ : Axis)], a.bins.toNat + 2 < 2 ^ 64 := by simp
  have hfits : ∀ move ∈ handedOn, move.Fits fun _ => [⟨2, 0, 2⟩] := by simp [handedOn, Move.Fits]
  have hcounts : ∀ k, (ledgerOf (fun _ => [⟨2, 0, 2⟩]) handedOn k).length < 2 ^ 64 := by
    decide +kernel
  have hrange : InRange [⟨2, 0, 2⟩] [1] := .cons (by decide) .nil
  obtain ⟨hall, -⟩ := tallied_afterAll hmade (fun _ => hsizes) hfits hcounts
  obtain ⟨haxes, htallied⟩ := hall false
  refine ⟨⟨hmade, hsizes, hfits, hcounts⟩, ?_, ?_⟩
  · rw [htallied.count [1] (haxes ▸ hrange)]
    decide +kernel
  · rw [(htallied.sums Prod.snd exactReading_snd [1] (haxes ▸ hrange)).1]
    decide +kernel

end HistogramTable

end VariHist
