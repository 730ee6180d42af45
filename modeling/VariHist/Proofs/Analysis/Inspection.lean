import Mathlib
import VariHist.Command.Execute
import VariHist.Proofs.Analysis.Booked
import VariHist.Proofs.Output.Tree

/-!
# Inspection and run

An inspection lists the variations of the registry that an analysis starts from.  A run builds its
catalog much later, when all definitions and selections have been made, each of which registers its
shifted copies.  Both list the same variations, since nothing that is made in between adds, removes
or moves a systematic.

* `Json.field?` — the field of a value, and `field?_sortKeys`: the order in which fields are printed
  does not touch it.
* `variations_of_run` — the catalog that is reported of a run is that of the initial registry.
* `run_and_inspection_agree` — so the variations that a run prints are those that an inspection of
  the same description and events prints.
-/

namespace VariHist

/-! ## Fields -/

theorem lookup_perm {β : Type} {l l' : List (String × β)} (h : l.Perm l')
    (hnd : (l.map Prod.fst).Nodup) (key : String) : l.lookup key = l'.lookup key := by
  induction h with
  | nil => rfl
  | cons e _ ih =>
    obtain ⟨k, value⟩ := e
    rw [lookup_cons_ite, lookup_cons_ite, ih (List.nodup_cons.1 hnd).2]
  | swap e e' l =>
    obtain ⟨k, value⟩ := e
    obtain ⟨k', value'⟩ := e'
    have hne : k' ≠ k := by
      have h := List.nodup_cons.1 hnd
      exact fun heq => h.1 (by simp [heq])
    simp only [lookup_cons_ite]
    by_cases hk : key = k
    · rw [if_pos hk, if_pos hk, if_neg fun hk' => hne (hk'.symm.trans hk)]
    · rw [if_neg hk, if_neg hk]
  | trans h _ ih ih' =>
    rw [ih hnd, ih' ((h.map Prod.fst).nodup_iff.1 hnd)]

namespace Json

/-- The value of a field of an object. -/
def field? (key : String) : Json → Option Json
  | .object fields => fields.lookup key
  | _ => none

theorem sortFields_eq (fields : List (String × Json)) :
    sortFields fields = fields.map fun e => (e.1, e.2.sortKeys) := by
  induction fields with
  | nil => simp [sortFields]
  | cons e fields ih =>
    obtain ⟨key, value⟩ := e
    rw [sortFields, ih, List.map_cons]

theorem lookup_sortFields (fields : List (String × Json)) (key : String) :
    (sortFields fields).lookup key = (fields.lookup key).map sortKeys := by
  rw [sortFields_eq]
  induction fields with
  | nil => rfl
  | cons e fields ih =>
    obtain ⟨k, value⟩ := e
    rw [List.map_cons, lookup_cons_ite, lookup_cons_ite, ih]
    split <;> rfl

/-- Sorting the keys of an object moves its fields, but changes none of them. -/
theorem field?_sortKeys {fields : List (String × Json)} (hnd : (fields.map Prod.fst).Nodup)
    (key : String) :
    (object fields).sortKeys.field? key = ((object fields).field? key).map sortKeys := by
  rw [sortKeys, field?, field?, ← lookup_sortFields]
  refine lookup_perm (List.mergeSort_perm _ _) ?_ key
  rw [(((List.mergeSort_perm _ _).map Prod.fst).nodup_iff), sortFields_eq, List.map_map]
  exact hnd

theorem sortItems_texts (texts : List String) :
    sortItems (texts.map .text) = texts.map .text := by
  induction texts with
  | nil => simp [sortItems]
  | cons s texts ih => simp [sortItems, sortKeys, ih]

/-- A list of texts is printed as it is given. -/
theorem field?_sortKeys_texts {fields : List (String × Json)} {key : String} {texts : List String}
    (hnd : (fields.map Prod.fst).Nodup)
    (hfield : (object fields).field? key = some (.list (texts.map .text))) :
    (object fields).sortKeys.field? key = some (.list (texts.map .text)) := by
  rw [field?_sortKeys hnd, hfield, Option.map_some, sortKeys, sortItems_texts]

end Json

/-- The variations that a report is printed with. -/
theorem RunReport.field?_variations (r : RunReport) :
    r.toJson.sortKeys.field? "variations" = some (.list (r.variations.map .text)) :=
  Json.field?_sortKeys_texts (by simp) rfl

variable {α : Type}

/-- The variations that an inspection prints. -/
theorem field?_inspectionToJson (t : EventTable α) (r : Registry) :
    (inspectionToJson t r).sortKeys.field? "variations" =
      some (.list ((variationLabels r.systematics).map .text)) :=
  Json.field?_sortKeys_texts (by simp) rfl

/-! ## The catalog of a run -/

namespace Analysis

variable {ν : Type} [FillNumber ν] [HoldsHistograms α ν] [Aggregation α] {a : Analysis}
  {t t' : EventTable α} {tree : HistogramTree ν} {report : RunReport}

/-- The variations that are reported of a run are those of the registry that it starts from. -/
theorem variations_of_run [Machine] (h : a.run t = .ok (tree, report) t') :
    report.variations = variationLabels (a.registry t).systematics := by
  obtain ⟨catalog, bookings, t₁, hprepare, -, rfl⟩ := run_eq_ok_iff.1 h
  obtain ⟨hpropagated, hcatalog, -⟩ := prepare_eq_ok Registry.nodup_systematics hprepare
  rw [reportOn, hcatalog, hpropagated.systematics]

omit [FillNumber ν] [HoldsHistograms α ν] [Aggregation α] in
/-- The number of threads is of no concern to the registry. -/
theorem registry_withThreads (a : Analysis) (t : EventTable α) (threads : Nat) :
    a.registry (t.withThreads threads) = a.registry t := rfl

end Analysis

/-! ## Commands -/

namespace Command

variable {sources : Sources} {config input output : String} {threads : Nat} {json : Bool}
  {e : Effects}

/-- A run command that succeeds has loaded a description and events and run the one on the other. -/
theorem exists_run_of_effects [Machine] [CellCast]
    (h : effects sources (.run config input output threads json) = .ok e) :
    ∃ (a : Analysis) (t t' : EventTable (SlottedHistogram Float)) (tree : HistogramTree Float)
      (report : RunReport), load sources config input = .ok (a, t) ∧
        a.run (t.withThreads threads) = .ok (tree, report) t' ∧
        e.printed = report.toJson.sortKeys.pretty ++ "\n" := by
  obtain ⟨⟨a, t⟩, hload, hrest⟩ := bind_except_eq_ok_iff.1 h
  obtain ⟨⟨tree, report⟩, hanswer, heffects⟩ := bind_except_eq_ok_iff.1 hrest
  obtain rfl := Except.ok.inj heffects
  have hrun := Step.eq_ok_of_answer (mapError_eq_ok_iff.1 hanswer)
  exact ⟨a, t, _, tree, report, hload, hrun, rfl⟩

theorem effects_inspect [Machine] [CellCast] {a : Analysis}
    {t : EventTable (SlottedHistogram Float)}
    (hload : load sources config input = .ok (a, t)) :
    effects sources (.inspect config input none) =
      .ok ⟨[], false, (inspectionToJson t (a.registry t)).sortKeys.pretty ++ "\n"⟩ := by
  rw [effects, hload]
  rfl

end Command

/-- A run that succeeds reports the variations of the registry that is freshly built for its events,
nominal first and then up and down of every systematic in turn, and they are the list that an
inspection of the same description and events prints. -/
theorem run_and_inspection_agree {α ν : Type} [FillNumber ν] [HoldsHistograms α ν]
    [Aggregation α] [Machine] [CellCast] :
    (∀ (a : Analysis) (t t' : EventTable α) (tree : HistogramTree ν) (report : RunReport),
      a.run t = .ok (tree, report) t' →
        report.variations = nominalLabel :: (a.registry t).systematics.flatMap (fun s =>
          [variationLabel s .up, variationLabel s .down]) ∧
        report.toJson.sortKeys.field? "variations" =
          (inspectionToJson t (a.registry t)).sortKeys.field? "variations") ∧
    ∀ (sources : Sources) (config input output : String) (threads : Nat) (json : Bool)
      (e : Effects), Command.effects sources (.run config input output threads json) = .ok e →
        ∃ a t, Command.load sources config input = .ok (a, t) ∧ ∃ printed inspected : Json,
          e.printed = printed.pretty ++ "\n" ∧
          Command.effects sources (.inspect config input none) =
            .ok ⟨[], false, inspected.pretty ++ "\n"⟩ ∧
          printed.field? "variations" = inspected.field? "variations" ∧
          inspected.field? "variations" =
            some (.list ((variationLabels (a.registry t).systematics).map .text)) := by
  constructor
  · intro a t t' tree report h
    have hreport := Analysis.variations_of_run h
    refine ⟨hreport, ?_⟩
    rw [RunReport.field?_variations, field?_inspectionToJson, hreport]
  · intro sources config input output threads json e h
    obtain ⟨a, t, t', tree, report, hload, hrun, hprinted⟩ := Command.exists_run_of_effects h
    have hreport := Analysis.variations_of_run hrun
    rw [Analysis.registry_withThreads] at hreport
    refine ⟨a, t, hload, _, _, hprinted, Command.effects_inspect hload, ?_,
      field?_inspectionToJson t _⟩
    rw [RunReport.field?_variations, field?_inspectionToJson, hreport]

/-- A description with a definition over a shifted column, and with a systematic that affects
nothing. -/
def derivedDescription : String :=
  "systematics: [S, Missing]\n" ++
  "defines:\n  - \x7bname: y, expr: x * x\x7d\n" ++
  "histograms:\n  - \x7bname: h, variable: y, weight: x, bins: 2, lo: 0, hi: 9\x7d\n" ++
  "suffix: s\n"

/-- Two events with a column and its two shifts. -/
def shiftedSources : Sources where
  text _ := .ok derivedDescription
  events _ := .ok [⟨[⟨"x", .float64, [.number 1, .number 3]⟩,
    ⟨"x_SUp", .float64, [.number 2, .number 3]⟩, ⟨"x_SDown", .float64, [.number 1, .number 2]⟩]⟩]

/-- The run of this description reports and prints both systematics in the order of the
inspection. -/
theorem run_and_inspection_agree_derived :
    ∃ e a t t' tree report,
      Command.effects shiftedSources (.run "config" "events" "out" 2 true) = .ok e ∧
      Command.load shiftedSources "config" "events" = .ok (a, t) ∧
      a.run (t.withThreads 2) = .ok (tree, report) t' ∧
      report.variations = ["Nominal", "SUp", "SDown", "MissingUp", "MissingDown"] ∧
      ∃ printed inspected : Json, e.printed = printed.pretty ++ "\n" ∧
        Command.effects shiftedSources (.inspect "config" "events" none) =
          .ok ⟨[], false, inspected.pretty ++ "\n"⟩ ∧
        printed.field? "variations" = inspected.field? "variations" := by
  have hok : (Command.effects shiftedSources
      (.run "config" "events" "out" 2 true)).toOption.isSome = true := by decide +kernel
  have hlabels : ((Command.load shiftedSources "config" "events").toOption.map fun p =>
      variationLabels (p.1.registry p.2).systematics) =
        some ["Nominal", "SUp", "SDown", "MissingUp", "MissingDown"] := by decide +kernel
  obtain ⟨hreports, hprints⟩ :=
    run_and_inspection_agree (α := SlottedHistogram Float) (ν := Float)
  cases heffects : Command.effects shiftedSources (.run "config" "events" "out" 2 true) with
  | error f =>
    rw [heffects] at hok
    cases hok
  | ok e =>
    obtain ⟨a, t, hload, printed, inspected, hprinted, hinspect, hfields, -⟩ :=
      hprints shiftedSources "config" "events" "out" 2 true e heffects
    obtain ⟨a', u, t', tree, report, hload', hrun, -⟩ := Command.exists_run_of_effects heffects
    rw [hload] at hlabels hload'
    obtain ⟨rfl, rfl⟩ := Prod.mk.inj (Except.ok.inj hload')
    have hreport := (hreports a (t.withThreads 2) t' tree report hrun).1
    exact ⟨e, a, t, t', tree, report, rfl, hload, hrun, hreport.trans (Option.some.inj hlabels),
      printed, inspected, hprinted, hinspect, hfields⟩

end VariHist
