import Mathlib
import VariHist.Proofs.Booking.Keys
import VariHist.Proofs.Systematics.Reported

/-!
# The catalog and its axis

A catalog of variations lists labels, and each label has an index column that holds its position.
An axis over the base column has one bin for each label.  Labels, columns and bins are named and
counted by different rules, which fit together for every list of systematics.

* `getElem?_shiftsOf` — which shift stands where.
* `BinnedColumn.ofLabels_eq_ok` — the axis of a catalog is made.
* `VariedTable.column?_indexColumn` — which column holds which position.
* `VariedTable.catalog_aligned` — all of it, for every catalog that is built.
-/

namespace VariHist

variable {s : String} {d : Direction} {systematics : List String}

/-! ## Labels -/

/-- Upward and downward shifts take turns. -/
def turn (k : Nat) : Direction :=
  if k % 2 = 0 then .up else .down

theorem getElem?_shiftsOf (k : Nat) :
    (shiftsOf systematics)[k]? = (systematics[k / 2]?).map fun s => (s, turn k) := by
  induction systematics generalizing k with
  | nil => rfl
  | cons s systematics ih =>
    have hcons : shiftsOf (s :: systematics) = (s, .up) :: (s, .down) :: shiftsOf systematics := rfl
    rw [hcons]
    rcases k with _ | _ | k
    · rfl
    · rfl
    · have hdiv : (k + 1 + 1) / 2 = k / 2 + 1 := by omega
      have hturn : turn (k + 2) = turn k := by rw [turn, turn, Nat.add_mod_right]
      rw [List.getElem?_cons_succ, List.getElem?_cons_succ, ih, hdiv, List.getElem?_cons_succ]
      exact congrArg (fun d => Option.map (fun s => (s, d)) _) hturn.symm

/-- The shift of a label. -/
theorem getElem?_variationLabels {k : Nat} {label : String}
    (h : (variationLabels systematics)[k + 1]? = some label) :
    ∃ s, systematics[k / 2]? = some s ∧ label = variationLabel s (turn k) := by
  rw [variationLabels_eq, List.getElem?_cons_succ, List.getElem?_map, getElem?_shiftsOf,
    Option.map_map, Option.map_eq_some_iff] at h
  obtain ⟨s, hs, hlabel⟩ := h
  exact ⟨s, hs, hlabel.symm⟩

/-! ## The axis -/

theorem checkBinning_eq_ok {owner : BinningOwner} {column : String} {bins : UInt64} {lo hi : Float}
    (hc : Text.isBlankText column = false) (h0 : bins ≠ 0) (hlo : lo.isFinite = true)
    (hhi : hi.isFinite = true) (hr : ¬hi ≤ lo) : checkBinning owner column bins lo hi = .ok () := by
  rw [checkBinning, hc, if_neg Bool.false_ne_true, if_neg h0, hlo, hhi]
  exact if_neg (by simpa using hr)

/-- The axis of a catalog is made. -/
theorem BinnedColumn.ofLabels_eq_ok {column : String} {labels : List String}
    (hc : Text.isBlankText column = false) (h0 : labels ≠ []) (hn : labels.length < 2 ^ 64) :
    ofLabels column labels = .ok ⟨column, labels.length.toUInt64, -0.5,
      labels.length.toUInt64.toFloat - 0.5⟩ := by
  have hpos : 0 < labels.length := List.length_pos_iff.2 h0
  obtain ⟨count, hcount, hlo, hhi⟩ := Double.exists_normal_toFloat hpos hn
  obtain ⟨last, hlast⟩ := hcount.sub_half hlo hhi
  have hbins : labels.length.toUInt64 ≠ 0 := fun h0 => by
    have hword : labels.length.toUInt64.toNat = labels.length := UInt64.toNat_ofNat_of_lt' hn
    rw [h0] at hword
    exact hpos.ne hword
  have hcheck : checkBinning .selectionAxis column labels.length.toUInt64 (-0.5)
      (labels.length.toUInt64.toFloat - 0.5) = .ok () :=
    checkBinning_eq_ok hc hbins (by decide +kernel) hlast.isFinite hlast.not_le_neg_half
  unfold ofLabels make
  dsimp only
  rw [hcheck]
  rfl

namespace VariedTable

variable {α : Type} {v v' : VariedTable α} {base label : String} {catalog : List String}

/-! ## Index columns -/

/-- The index column of a label: the base itself for the first one. -/
def indexColumn (base : String) (k : Nat) (label : String) : String :=
  if k = 0 then base else labelledColumn base label

theorem getElem?_indexColumns {k : Nat}
    (h : (variationLabels v.registry.systematics)[k]? = some label) :
    (v.indexColumns base)[k]? = some (indexColumn base k label) := by
  cases k with
  | zero => rfl
  | succ k =>
    obtain ⟨s, hs, rfl⟩ := getElem?_variationLabels h
    rw [indexColumns_eq, List.getElem?_cons_succ, List.getElem?_map, getElem?_shiftsOf, hs]
    rfl

theorem column?_of_defines {t : EventTable α} {e : Definition} (h : t.Defines e)
    (hin : e.inputs = []) : t.column? e.name = some ⟨e.name, .derived [] e.kernel⟩ := by
  obtain ⟨id, ids, hid, hcol, hids⟩ := h
  rw [hin] at hids
  cases hids
  rw [EventTable.column?_eq, hid, Option.bind_some, hcol]

/-- The index column of a label is free before the catalog is built, and holds the position of the
label afterwards. -/
theorem column?_indexColumn (h : buildCatalog base v = .ok catalog v') {k : Nat}
    (hk : catalog[k]? = some label) :
    v.table.hasColumn (indexColumn base k label) = false ∧
    v'.table.column? (indexColumn base k label) = some
      ⟨indexColumn base k label, .derived [] (.constant k.toUInt64.toFloat)⟩ := by
  obtain ⟨t, hfree, hadded, hok⟩ | ⟨fault, -, herror⟩ :=
    buildCatalog_eq v.registry.nodup_systematics base
  · obtain ⟨rfl, rfl⟩ := EStateM.Result.ok.inj (h.symm.trans hok)
    have hcolumn : (v.indexColumns base)[k]? = some (indexColumn base k label) :=
      getElem?_indexColumns hk
    have hmem : ⟨indexColumn base k label, .constant k.toUInt64.toFloat, []⟩ ∈
        v.indexDefinitions base := by
      refine List.mem_map.2 ⟨(indexColumn base k label, k), ?_, rfl⟩
      exact List.mem_zipIdx_iff_getElem?.2 hcolumn
    exact ⟨EventTable.hasColumn_eq_false_iff.2 (hfree _ (List.mem_of_getElem? hcolumn)),
      column?_of_defines (hadded.defines _ hmem) rfl⟩
  · cases h.symm.trans herror

/-! ## The catalog -/

/-- A catalog that is built.  It lists one label and two more for each systematic, all distinct, and
the nominal one first.  Every other label is split into the systematic and the direction that it was
made from.  The index column of a label is new and constant, and holds the position of the label.
The base is affected by all systematics.

The axis over the base has a bin for each label, as long as a word can count the labels.  In exact
arithmetic each index lies in the bin of its own label.  If the ends of the axis are doubles and
only the search is exact, this holds for up to `2 ^ 52` labels; in doubles throughout, for
`2 ^ 50`. -/
theorem catalog_aligned (h : buildCatalog base v = .ok catalog v')
    (hnames : ∀ s ∈ v.registry.systematics, s ≠ "") (hbase : Text.isBlankText base = false) :
    (catalog.length = 1 + 2 * v.registry.systematics.length ∧ catalog.Nodup ∧
      catalog[0]? = some nominalLabel) ∧
    (∀ k label, catalog[k + 1]? = some label →
      ∃ s, v.registry.systematics[k / 2]? = some s ∧ label = variationLabel s (turn k) ∧
        splitLabel? label = some (s, turn k)) ∧
    (∀ k label, catalog[k]? = some label →
      v.table.hasColumn (indexColumn base k label) = false ∧
      v'.table.column? (indexColumn base k label) = some
        ⟨indexColumn base k label, .derived [] (.constant k.toUInt64.toFloat)⟩ ∧
      (k < 2 ^ 53 → Exact.ofFloat k.toUInt64.toFloat = k)) ∧
    (catalog.length + 2 < 2 ^ 64 →
      ∃ axis, BinnedColumn.ofLabels base catalog = .ok axis ∧ axis.column = base ∧
        (∀ x : Float, (Axis.ofColumn axis).findBin x = Booking.labelBin catalog.length x) ∧
        ∀ k < catalog.length, (Booking.labelBin catalog.length (k : Rat)).toNat = k + 1 ∧
          (catalog.length ≤ 2 ^ 52 → (Axis.ofColumn axis).findBin
            (Exact.ofFloat k.toUInt64.toFloat) = k.toUInt64 + 1) ∧
          (catalog.length ≤ 2 ^ 50 → (Axis.ofColumn axis).findBin
            k.toUInt64.toFloat = k.toUInt64 + 1)) ∧
    v'.registry.systematics = v.registry.systematics ∧
    v'.registry.affecting base = v.registry.systematics := by
  obtain ⟨-, w, hok, hexpanded⟩ | ⟨-, fault, herror⟩ := buildCatalog_allOrNothing v base
  · obtain ⟨rfl, rfl⟩ := EStateM.Result.ok.inj (h.symm.trans hok)
    refine ⟨⟨?_, nodup_variationLabels v.registry.nodup_systematics, rfl⟩, fun k label hk => ?_,
      fun k label hk => ?_, fun hn => ?_, hexpanded.systematics, ?_⟩
    · rw [length_variationLabels, Nat.add_comm]
    · obtain ⟨s, hs, rfl⟩ := getElem?_variationLabels hk
      exact ⟨s, hs, rfl, splitLabel?_variationLabel (hnames s (List.mem_of_getElem? hs)) _⟩
    · obtain ⟨hfree, hcolumn⟩ := column?_indexColumn h hk
      exact ⟨hfree, hcolumn, Double.exact_toFloat⟩
    · refine ⟨_, BinnedColumn.ofLabels_eq_ok hbase (List.cons_ne_nil _ _) (by omega), rfl,
        Booking.findBin_indexAxis _, fun k hk =>
          ⟨Booking.toNat_labelBin hk hn, fun hle => ?_, fun hle => ?_⟩⟩
      · exact Booking.tellsIndices_rat hle k hk
      · exact Booking.tellsIndices_float hle k hk
    · rw [hexpanded.affecting_eq, List.filter_eq_self]
      intro s hs
      rw [List.contains_iff_mem.2 hs, Bool.or_true]
  · cases h.symm.trans herror

/-- An event, and systematics whose names look like labels. -/
def namedLikeLabels : VariedTable Recorder where
  table := EventTable.ofRows 1
  registry := ((Registry.empty.register "XUp" []).register "Nominal" []).register "Down" []

/-- Labels are split at their ends, not where a name looks like one. -/
theorem catalog_namedLikeLabels :
    ∃ v', buildCatalog "idx" namedLikeLabels = .ok
        ["Nominal", "XUpUp", "XUpDown", "NominalUp", "NominalDown", "DownUp", "DownDown"] v' ∧
      splitLabel? "NominalUp" = some ("Nominal", .up) ∧
      splitLabel? "DownDown" = some ("Down", .down) ∧
      v'.registry.affecting "idx" = ["XUp", "Nominal", "Down"] := by
  have hfree : ∀ c ∈ namedLikeLabels.indexColumns "idx", namedLikeLabels.table.idOf? c = none :=
    fun c _ => EventTable.idOf?_eq_none_iff.2 List.not_mem_nil
  have hlabels : variationLabels namedLikeLabels.registry.systematics =
      ["Nominal", "XUpUp", "XUpDown", "NominalUp", "NominalDown", "DownUp", "DownDown"] := by
    decide +kernel
  obtain ⟨-, v', h, -⟩ | ⟨hnot, -⟩ := buildCatalog_allOrNothing namedLikeLabels "idx"
  · rw [hlabels] at h
    obtain ⟨-, hsplit, -, -, -, haffecting⟩ :=
      catalog_aligned h (by decide +kernel) (by decide +kernel)
    obtain ⟨s, hs, -, hup⟩ := hsplit 2 "NominalUp" rfl
    obtain ⟨s', hs', -, hdown⟩ := hsplit 5 "DownDown" rfl
    cases hs
    cases hs'
    exact ⟨v', h, hup, hdown, haffecting.trans (by decide +kernel)⟩
  · exact absurd hfree hnot

end VariedTable

end VariHist
