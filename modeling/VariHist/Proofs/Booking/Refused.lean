import VariHist.Proofs.Booking.Book
import VariHist.Proofs.Booking.Projected
import VariHist.Proofs.Step

/-!
# Requests that are refused

A request is checked as a whole before anything is booked, and a check that fails leaves the table
as it was.  The checks ask whether the columns are there, but not whether they hold one number per
event.  A vector column among those that a histogram reads is found out only when the histogram is
booked, and by then the histograms before it have been.

* `Plan.book_eq_error` — the only fault in booking a planned histogram.
* `mapM_book_eq_error` — what is left behind when one of several plans cannot be booked.
* `book_refused` — a request that fails leaves the table as it was, unless a histogram other than
  the first reads a vector column.
-/

namespace VariHist

variable {α ν : Type} {t t' : EventTable α} {registry : Registry} {r : BookingRequest}
  {o : Observable} {e : Error}

namespace EventTable

/-- A column that is there is refused as a scalar column only if it is a vector column. -/
theorem idOfKind_scalar_eq_error {name : String} (hname : t.idOf? name ≠ none)
    (h : t.idOfKind .scalar name = .error e) :
    t.kindOf? name = some .vector ∧ e = .columnKind name .scalar .vector := by
  obtain ⟨id, hid⟩ := Option.ne_none_iff_exists'.1 hname
  obtain ⟨c, hcol, -⟩ := exists_of_idOf? hid
  have hkind : t.kindOf? name = some c.kind := by
    rw [kindOf?_eq, hid, Option.bind_some, kindIn, hcol, Option.map_some]
  unfold idOfKind at h
  rw [hid, hkind] at h
  dsimp only at h
  cases hk : c.kind with
  | scalar =>
    rw [hk, if_pos rfl] at h
    cases h
  | vector =>
    rw [hk, if_neg (by decide)] at h
    cases h
    exact ⟨hkind.trans (congrArg some hk), rfl⟩

end EventTable

/-! ## Plans of a request -/

namespace BookingRequest

/-- The columns that the histogram of an observable reads. -/
def columnsRead (r : BookingRequest) (registry : Registry) (o : Observable) : List String :=
  (r.bookingOf registry o).slices.flatMap Slice.columns

/-- The column that is made for the histogram of an observable. -/
def fillColumn (r : BookingRequest) (o : Observable) : String :=
  o.name ++ "." ++ r.suffix ++ ".fill"

variable {p : Plan ν}

theorem planOne_fillColumn [Machine] {planned : List String}
    (h : r.planOne t registry planned o = .ok p) :
    p.fillColumn = r.fillColumn o ∧ t.idOf? p.fillColumn = none ∧ p.fillColumn ∉ planned := by
  unfold planOne at h
  obtain ⟨hnew, h⟩ := guard_eq_ok_iff.1 h
  obtain ⟨⟨⟩, -, h⟩ := bind_except_eq_ok_iff.1 h
  obtain ⟨histogram, -, h⟩ := bind_except_eq_ok_iff.1 h
  cases h
  rw [Bool.or_eq_true, not_or, Bool.not_eq_true, EventTable.hasColumn_eq_false_iff,
    List.contains_iff_mem] at hnew
  exact ⟨rfl, hnew⟩

/-- The columns that plans make, one after another. -/
theorem planAll_fillColumns [Machine] {observables : List Observable} {plans plans' : List (Plan ν)}
    (hfree : ∀ p ∈ plans, t.idOf? p.fillColumn = none)
    (hdistinct : (plans.map Plan.fillColumn).Nodup)
    (h : observables.foldlM (m := Except Error) (fun (plans : List (Plan ν)) o => do
      return plans ++ [← r.planOne t registry (plans.map Plan.fillColumn) o]) plans = .ok plans') :
    plans'.map Plan.fillColumn = plans.map Plan.fillColumn ++ observables.map r.fillColumn ∧
      (∀ p ∈ plans', t.idOf? p.fillColumn = none) ∧ (plans'.map Plan.fillColumn).Nodup := by
  induction observables generalizing plans with
  | nil =>
    cases h
    exact ⟨by simp, hfree, hdistinct⟩
  | cons o observables ih =>
    rw [List.foldlM_cons, bind_except_eq_ok_iff] at h
    obtain ⟨more, hfirst, hrest⟩ := h
    obtain ⟨p, hp, hmore⟩ := bind_except_eq_ok_iff.1 hfirst
    cases hmore
    obtain ⟨hname, hnew, hother⟩ := planOne_fillColumn hp
    have hfree₁ : ∀ q ∈ plans ++ [p], t.idOf? q.fillColumn = none := by
      intro q hq
      rcases List.mem_append.1 hq with hq | hq
      · exact hfree q hq
      · rw [List.mem_singleton.1 hq]
        exact hnew
    have hdistinct₁ : ((plans ++ [p]).map Plan.fillColumn).Nodup := by
      rw [List.map_append, List.map_singleton, List.nodup_append_comm, List.singleton_append]
      exact List.nodup_cons.2 ⟨hother, hdistinct⟩
    obtain ⟨hnames, hfree', hdistinct'⟩ := ih hfree₁ hdistinct₁ hrest
    refine ⟨?_, hfree', hdistinct'⟩
    rw [hnames, List.map_append, List.map_singleton, hname, List.append_assoc]
    rfl

/-- Plans that can be booked on a table as far as their columns are there: the columns that they
make are free and distinct, and those that they read exist. -/
structure Bookable (t : EventTable α) (plans : List (Plan ν)) : Prop where
  free : ∀ p ∈ plans, t.idOf? p.fillColumn = none
  distinct : (plans.map Plan.fillColumn).Nodup
  columns : ∀ p ∈ plans, ∀ c ∈ p.booking.slices.flatMap Slice.columns, t.idOf? c ≠ none

/-- The plans of a request can be booked as far as their columns are there. -/
theorem bookable_of_plan [Machine] {plans : List (Plan ν)} (h : r.plan t registry = .ok plans) :
    Bookable t plans ∧ plans.map Plan.fillColumn = r.observables.map r.fillColumn := by
  obtain ⟨-, hplanned, -⟩ := plan_eq_ok h
  obtain ⟨⟨⟩, -, h⟩ := bind_except_eq_ok_iff.1 h
  obtain ⟨plans', hplans, h⟩ := bind_except_eq_ok_iff.1 h
  obtain ⟨⟨⟩, -, h⟩ := bind_except_eq_ok_iff.1 h
  cases h
  obtain ⟨hnames, hfree, hdistinct⟩ := planAll_fillColumns (by simp) (by simp) hplans
  refine ⟨⟨hfree, hdistinct, fun p hp => ?_⟩, hnames⟩
  obtain ⟨o, -, hpo⟩ := forall₂_exists_of_mem_right hplanned hp
  exact hpo.columns

/-! ## Booking one plan -/

variable [HoldsHistograms α ν]

theorem Plan.columnNames_of_book {b : Booking} (h : p.book t = .ok b t') :
    t'.columnNames = t.columnNames ++ [p.fillColumn] := by
  unfold Plan.book at h
  obtain ⟨⟨⟩, t₁, hfirst, hrest⟩ := Step.bind_eq_ok_iff.1 h
  obtain ⟨ticket, t₂, hticket, hlast⟩ := Step.bind_eq_ok_iff.1 hrest
  obtain ⟨⟨⟩, t₃, hsecond, hanswer⟩ := Step.bind_eq_ok_iff.1 hlast
  cases hticket
  cases hanswer
  obtain ⟨-, ids, -, rfl⟩ := EventTable.defineColumn_eq_ok_iff.1 (Step.attempt_eq_ok_iff.1 hfirst)
  obtain ⟨id, -, rfl⟩ := EventTable.subscribe_eq_ok_iff.1 (Step.attempt_eq_ok_iff.1 hsecond)
  simp [EventTable.columnNames]

/-- A plan whose columns are there can fail in one way only: one of the columns is a vector
column.  Then the table is as it was. -/
theorem Plan.book_eq_error (hfree : t.idOf? p.fillColumn = none)
    (hcolumns : ∀ c ∈ p.booking.slices.flatMap Slice.columns, t.idOf? c ≠ none)
    (h : p.book t = .error e t') :
    t' = t ∧ ∃ c ∈ p.booking.slices.flatMap Slice.columns,
      t.kindOf? c = some .vector ∧ e = .columnKind c .scalar .vector := by
  unfold Plan.book at h
  rcases Step.bind_eq_error_iff.1 h with hdefine | ⟨⟨⟩, t₁, hdefine, h⟩
  · obtain ⟨hdefine, rfl⟩ := Step.attempt_eq_error_iff.1 hdefine
    unfold EventTable.defineColumn at hdefine
    rw [EventTable.hasColumn_eq_false_iff.2 hfree, if_neg Bool.false_ne_true] at hdefine
    rcases bind_except_eq_error_iff.1 hdefine with hids | ⟨ids, -, hinsert⟩
    · obtain ⟨c, hc, he⟩ := exists_of_mapM_eq_error hids
      exact ⟨rfl, c, hc, EventTable.idOfKind_scalar_eq_error (hcolumns c hc) he⟩
    · unfold EventTable.insert at hinsert
      rw [EventTable.hasColumn_eq_false_iff.2 hfree, if_neg Bool.false_ne_true] at hinsert
      cases hinsert
  · -- the new column is a vector column, so nothing is wrong with subscribing to it
    exfalso
    have hdefine := Step.attempt_eq_ok_iff.1 hdefine
    rcases Step.bind_eq_error_iff.1 h with hticket | ⟨ticket, t₂, hticket, h⟩
    · cases hticket
    · cases hticket
      rcases Step.bind_eq_error_iff.1 h with hsubscribe | ⟨⟨⟩, t₃, -, h⟩
      · obtain ⟨hsubscribe, -⟩ := Step.attempt_eq_error_iff.1 hsubscribe
        obtain ⟨-, ids, -, rfl⟩ := EventTable.defineColumn_eq_ok_iff.1 hdefine
        have hid : ({ t with columns := t.columns.push ⟨p.fillColumn, .derived ids .concat⟩ } :
            EventTable α).idOfKind .vector p.fillColumn = .ok t.columns.size := by
          rw [EventTable.idOfKind_eq_ok_iff, EventTable.idOf?_push, hfree, Option.none_or,
            if_pos rfl, kindIn_push, if_pos rfl]
          exact ⟨rfl, rfl⟩
        rw [EventTable.subscribe_eq_ok_iff.2 ⟨_, hid, rfl⟩] at hsubscribe
        cases hsubscribe
      · cases h

/-! ## Booking several plans -/

/-- What is left of the plans can be booked after the first one. -/
theorem Bookable.tail {plans : List (Plan ν)} {b : Booking} {s : Subscription α}
    (h : Bookable t (p :: plans)) (hbook : p.book t = .ok b t') (hs : t.Subscribes t' [s]) :
    Bookable t' plans where
  free q hq := by
    have hdistinct := List.nodup_cons.1 h.distinct
    have hfree := EventTable.idOf?_eq_none_iff.1 (h.free q (List.mem_cons_of_mem _ hq))
    rw [EventTable.idOf?_eq_none_iff, Plan.columnNames_of_book hbook, List.mem_append,
      List.mem_singleton]
    rintro (hmem | heq)
    · exact hfree hmem
    · exact hdistinct.1 (heq ▸ List.mem_map_of_mem hq)
  distinct := (List.nodup_cons.1 h.distinct).2
  columns q hq c hc := by
    obtain ⟨id, hid⟩ :=
      Option.ne_none_iff_exists'.1 (h.columns q (List.mem_cons_of_mem _ hq) c hc)
    rw [hs.idOf? c id hid]
    simp

/-- A column that a table keeps is of the kind that it was. -/
theorem kindOf?_of_subscribes {added : List (Subscription α)} {c : String}
    (hs : t.Subscribes t' added) (hc : t.idOf? c ≠ none) : t'.kindOf? c = t.kindOf? c := by
  obtain ⟨id, hid⟩ := Option.ne_none_iff_exists'.1 hc
  obtain ⟨col, hcol, -⟩ := EventTable.exists_of_idOf? hid
  have hk : t.kindOf? c = some col.kind := by
    rw [EventTable.kindOf?_eq, hid, Option.bind_some, kindIn, hcol, Option.map_some]
  rw [hk, hs.kindOf? hk]

/-- What is left behind when the plan `p` cannot be booked, after the plans `done` have been. -/
structure Halts (t t' : EventTable α) (e : Error) (done : List (Plan ν)) (p : Plan ν) : Prop where
  booked : ∃ added, t.Subscribes t' added ∧ added.length = done.length
  columnNames : t'.columnNames = t.columnNames ++ done.map Plan.fillColumn
  unchanged : done = [] → t' = t
  scalar : ∀ q ∈ done, ∀ c ∈ q.booking.slices.flatMap Slice.columns, t.kindOf? c = some .scalar
  vector : ∃ c ∈ p.booking.slices.flatMap Slice.columns,
    t.kindOf? c = some .vector ∧ e = .columnKind c .scalar .vector

/-- Of several plans, those before the first one that reads a vector column are booked, and it alone
is at fault.  The induction is on the list of plans. -/
theorem mapM_book_eq_error {plans : List (Plan ν)} (hplans : Bookable t plans)
    (h : plans.mapM Plan.book t = .error e t') :
    ∃ done p rest, plans = done ++ p :: rest ∧ Halts t t' e done p := by
  induction plans generalizing t with
  | nil => cases h
  | cons p plans ih =>
    have hcolumns := hplans.columns p List.mem_cons_self
    rw [List.mapM_cons] at h
    rcases Step.bind_eq_error_iff.1 h with hfirst | ⟨b, t₁, hfirst, h⟩
    · obtain ⟨rfl, hvector⟩ :=
        p.book_eq_error (hplans.free p List.mem_cons_self) hcolumns hfirst
      refine ⟨[], p, plans, rfl, ⟨[], .refl _, rfl⟩, ?_, fun _ => rfl, by simp, hvector⟩
      rw [List.map_nil, List.append_nil]
    · rcases Step.bind_eq_error_iff.1 h with hrest | ⟨bs, t₂, -, h⟩
      · obtain ⟨s, hs, hcollects, -⟩ := EventTable.book_eq_ok hfirst
        have htail := hplans.tail hfirst hs
        obtain ⟨done, q, rest, rfl, hhalts⟩ := ih htail hrest
        have hkinds : ∀ q' ∈ done ++ q :: rest, ∀ c ∈ q'.booking.slices.flatMap Slice.columns,
            t₁.kindOf? c = t.kindOf? c := fun q' hq c hc =>
          kindOf?_of_subscribes hs (hplans.columns q' (List.mem_cons_of_mem _ hq) c hc)
        obtain ⟨added, hadded, hlength⟩ := hhalts.booked
        refine ⟨p :: done, q, rest, rfl, ⟨s :: added, hs.trans hadded, by simp [hlength]⟩, ?_,
          by simp, ?_, ?_⟩
        · rw [hhalts.columnNames, Plan.columnNames_of_book hfirst, List.append_assoc]
          rfl
        · intro q' hq' c hc
          rcases List.mem_cons.1 hq' with rfl | hq'
          · obtain ⟨ids, -, hids⟩ := hcollects.column
            obtain ⟨i, -, hi⟩ := forall₂_exists_of_mem_right hids.flip hc
            rw [← kindOf?_of_subscribes hs (hcolumns c hc)]
            exact EventTable.kindOf?_eq_some_iff.2 ⟨i, hi⟩
          · rw [← hkinds q' (List.mem_append_left _ hq') c hc]
            exact hhalts.scalar q' hq' c hc
        · obtain ⟨c, hc, hkind, he⟩ := hhalts.vector
          exact ⟨c, hc, by rw [← hkinds q (by simp) c hc, hkind], he⟩
      · cases h

/-! ## Booking a request -/

/-- What a request leaves behind that fails at the histogram of `o`, after those of `done`: their
columns and aggregations are there, and `o` is the first to read a vector column. -/
structure HaltsAt (r : BookingRequest) (registry : Registry) (t t' : EventTable α) (e : Error)
    (done : List Observable) (o : Observable) : Prop where
  columnNames : t'.columnNames = t.columnNames ++ done.map r.fillColumn
  filters : t'.filters = t.filters
  pending : ∃ added, t'.pending = t.pending ++ added ∧ added.length = done.length
  unchanged : done = [] → t' = t
  scalar : ∀ o' ∈ done, ∀ c ∈ r.columnsRead registry o', t.kindOf? c = some .scalar
  vector : ∃ c ∈ r.columnsRead registry o,
    t.kindOf? c = some .vector ∧ e = .columnKind c .scalar .vector

/-- A request that is checked can fail at a vector column only. -/
theorem exists_haltsAt [Machine] {plans : List (Plan ν)} (hplan : r.plan t registry = .ok plans)
    (h : plans.mapM Plan.book t = .error e t') :
    ∃ done o rest, r.observables = done ++ o :: rest ∧ r.HaltsAt registry t t' e done o := by
  obtain ⟨hbookable, hnames⟩ := bookable_of_plan hplan
  obtain ⟨-, hplanned, -⟩ := plan_eq_ok hplan
  obtain ⟨done, p, rest, rfl, hhalts⟩ := mapM_book_eq_error hbookable h
  obtain ⟨added, hadded, hlength⟩ := hhalts.booked
  have hbefore := List.forall₂_take_append _ _ _ hplanned
  have hafter := List.forall₂_drop_append _ _ _ hplanned
  have hcount : (r.observables.take done.length).length = done.length := hbefore.length_eq
  cases hrest : r.observables.drop done.length with
  | nil =>
    rw [hrest] at hafter
    cases hafter
  | cons o rest' =>
    rw [hrest] at hafter
    have hsplit : r.observables = r.observables.take done.length ++ o :: rest' := by
      rw [← hrest, List.take_append_drop]
    have hfills : done.map Plan.fillColumn =
        (r.observables.take done.length).map r.fillColumn := by
      have htake := congrArg (List.take done.length) hnames
      rwa [← List.map_take, ← List.map_take, List.take_left] at htake
    refine ⟨_, o, rest', hsplit, ?_, hadded.filters, ⟨added, hadded.pending, ?_⟩, ?_, ?_, ?_⟩
    · rw [hhalts.columnNames, hfills]
    · rw [hlength, hcount]
    · intro hnil
      exact hhalts.unchanged (List.length_eq_zero_iff.1 (hcount ▸ congrArg List.length hnil))
    · intro o' ho' c hc
      obtain ⟨q, hq, hqo⟩ := forall₂_exists_of_mem_right hbefore.flip ho'
      exact hhalts.scalar q hq c (hqo.booking ▸ hc)
    · cases hafter with
      | cons hp _ =>
        have hvector := hhalts.vector
        rwa [hp.booking] at hvector

end BookingRequest

namespace EventTable

variable [FillNumber ν] [HoldsHistograms α ν]

/-- A request that goes through reads scalar columns only. -/
theorem scalar_of_book [Machine] {bookings : List Booking}
    (h : EventTable.book registry r t = .ok bookings t') (ho : o ∈ r.observables) {c : String}
    (hc : c ∈ r.columnsRead registry o) : t.kindOf? c = some .scalar := by
  obtain ⟨plans, t₁, hplan, hbook⟩ := Step.bind_eq_ok_iff.1 h
  obtain ⟨hplan, rfl⟩ := Step.ask_eq_ok_iff.1 hplan
  obtain ⟨hbookable, -⟩ := BookingRequest.bookable_of_plan hplan
  obtain ⟨-, hplanned, -⟩ := BookingRequest.plan_eq_ok hplan
  obtain ⟨added, hadded, hcollects, -⟩ := mapM_book hbook
  obtain ⟨p, hp, hpo⟩ := forall₂_exists_of_mem_right hplanned.flip ho
  obtain ⟨s, -, hs⟩ := forall₂_exists_of_mem_right hcollects.flip hp
  obtain ⟨ids, -, hids⟩ := hs.column
  have hc' : c ∈ p.booking.slices.flatMap Slice.columns := hpo.booking ▸ hc
  obtain ⟨i, -, hi⟩ := forall₂_exists_of_mem_right hids.flip hc'
  rw [← BookingRequest.kindOf?_of_subscribes hadded (hbookable.columns p hp c hc')]
  exact kindOf?_eq_some_iff.2 ⟨i, hi⟩

/-- A request fails if and only if its checks do or one of its histograms reads a vector column.
If it fails, the table is as it was if and only if the checks fail or the first histogram reads a
vector column.  In every other case the histograms before the first one that reads a vector column
have been booked: their columns and aggregations stay. -/
theorem book_refused [Machine] (registry : Registry) (r : BookingRequest) (t : EventTable α) :
    ((∃ e t', EventTable.book registry r t = .error e t') ↔
      (∃ e, r.plan (ν := ν) t registry = .error e) ∨ ∃ o ∈ r.observables,
        ∃ c ∈ r.columnsRead registry o, t.kindOf? c = some .vector) ∧
    ∀ e t', EventTable.book registry r t = .error e t' →
      (t' = t ↔ r.plan (ν := ν) t registry = .error e ∨ ∃ o rest, r.observables = o :: rest ∧
        ∃ c ∈ r.columnsRead registry o, t.kindOf? c = some .vector) ∧
      (t' ≠ t → ∃ done o rest, done ≠ [] ∧ r.observables = done ++ o :: rest ∧
        r.HaltsAt registry t t' e done o) := by
  refine ⟨⟨?_, ?_⟩, fun e t' h => ?_⟩
  · rintro ⟨e, t', h⟩
    rcases Step.bind_eq_error_iff.1 h with hplan | ⟨plans, t₁, hplan, hbook⟩
    · exact .inl ⟨e, (Step.ask_eq_error_iff.1 hplan).1⟩
    · obtain ⟨hplan, rfl⟩ := Step.ask_eq_ok_iff.1 hplan
      obtain ⟨done, o, rest, hsplit, hhalts⟩ := BookingRequest.exists_haltsAt hplan hbook
      obtain ⟨c, hc, hkind, -⟩ := hhalts.vector
      exact .inr ⟨o, by rw [hsplit]; simp, c, hc, hkind⟩
  · intro hfault
    cases h : EventTable.book registry r t with
    | error e t' => exact ⟨e, t', rfl⟩
    | ok bookings t' =>
      exfalso
      rcases hfault with ⟨e, hplan⟩ | ⟨o, ho, c, hc, hkind⟩
      · obtain ⟨plans, t₁, hask, -⟩ := Step.bind_eq_ok_iff.1 h
        rw [(Step.ask_eq_ok_iff.1 hask).1] at hplan
        cases hplan
      · rw [scalar_of_book h ho hc] at hkind
        cases hkind
  · rcases Step.bind_eq_error_iff.1 h with hplan | ⟨plans, t₁, hplan, hbook⟩
    · obtain ⟨hplan, rfl⟩ := Step.ask_eq_error_iff.1 hplan
      exact ⟨iff_of_true rfl (.inl hplan), fun hne => absurd rfl hne⟩
    · obtain ⟨hplan, rfl⟩ := Step.ask_eq_ok_iff.1 hplan
      obtain ⟨done, o, rest, hsplit, hhalts⟩ := BookingRequest.exists_haltsAt hplan hbook
      have hdone : t' = t₁ ↔ done = [] := by
        refine ⟨fun heq => ?_, hhalts.unchanged⟩
        have hnames := hhalts.columnNames
        rw [heq, List.self_eq_append_right, List.map_eq_nil_iff] at hnames
        exact hnames
      refine ⟨hdone.trans ⟨?_, ?_⟩, fun hne => ?_⟩
      · rintro rfl
        obtain ⟨c, hc, hkind, -⟩ := hhalts.vector
        exact .inr ⟨o, rest, hsplit, c, hc, hkind⟩
      · rintro (hfail | ⟨o', rest', hfirst, c, hc, hkind⟩)
        · rw [hplan] at hfail
          cases hfail
        · cases done with
          | nil => rfl
          | cons o'' done =>
            -- the first histogram reads a vector column, so it cannot have been booked
            rw [hsplit, List.cons_append, List.cons.injEq] at hfirst
            obtain ⟨rfl, -⟩ := hfirst
            have hscalar := hhalts.scalar o'' List.mem_cons_self c hc
            rw [hkind] at hscalar
            cases hscalar
      · exact ⟨done, o, rest, fun hnil => hne (hdone.2 hnil), hsplit, hhalts⟩

section VectorColumn

attribute [local instance] Machine.oneThread

/-- One event with a vector column `v` beside scalar ones. -/
def eventsWithVector : EventTable (SlottedHistogram Float) :=
  ⟨1, 0, #[⟨"idx", .stored #[0]⟩, ⟨"x", .stored #[1]⟩, ⟨"w", .stored #[1]⟩,
    ⟨"v", .derived [1] .concat⟩], [], [], [], 0⟩

/-- A histogram of `x`, and one of `v`. -/
def requestOfVector : BookingRequest :=
  ⟨[⟨"h1", "x", "x", "w", 2, 0, 2⟩, ⟨"h2", "v", "v", "w", 2, 0, 2⟩], [⟨"idx", 1, -0.5, 0.5⟩], "sr",
    [["Nominal"]]⟩

theorem eventsWithVector_reachable : eventsWithVector.Reachable := by
  have hscalar : (ofColumns [("idx", #[0]), ("x", #[1]), ("w", #[1])] :
      Except Error (EventTable (SlottedHistogram Float))) =
        .ok { eventsWithVector with columns := eventsWithVector.columns.pop } := rfl
  have hid : EventTable.idOfKind { eventsWithVector with
      columns := eventsWithVector.columns.pop } .scalar "x" = .ok 1 :=
    idOfKind_eq_ok_iff.2 ⟨by decide +kernel, by decide +kernel⟩
  exact (Reachable.ofColumns hscalar).defineColumn "v" .concat ["x"]
    (defineColumn_eq_ok_iff.2 ⟨by decide +kernel, [1], .cons hid .nil, rfl⟩)

/-- The second histogram is refused when the first one has been booked. -/
theorem book_eventsWithVector :
    ∃ e t', EventTable.book .empty requestOfVector eventsWithVector = .error e t' ∧
      t'.pending.length = 1 := by
  have hfails : (Step.answer (EventTable.book .empty requestOfVector) eventsWithVector).isOk =
      false := by decide +kernel
  have hpending : (Step.stateAfter (EventTable.book .empty requestOfVector)
      eventsWithVector).pending.length = 1 := by decide +kernel
  cases hanswer : Step.answer (EventTable.book .empty requestOfVector) eventsWithVector with
  | ok bookings =>
    rw [hanswer] at hfails
    cases hfails
  | error e => exact ⟨e, _, Step.eq_error_of_answer hanswer, hpending⟩

/-- A refused request may leave a histogram behind. -/
theorem refused_request_leaves_histogram :
    ¬ ∀ (registry : Registry) (r : BookingRequest) (t t' : EventTable (SlottedHistogram Float))
      (e : Error), t.Reachable → EventTable.book registry r t = .error e t' → t' = t := by
  intro hunchanged
  obtain ⟨e, t', hbook, hpending⟩ := book_eventsWithVector
  rw [hunchanged _ _ _ _ _ eventsWithVector_reachable hbook] at hpending
  cases hpending

theorem book_refused_at_vector :
    ∃ e t', EventTable.book .empty requestOfVector eventsWithVector = .error e t' ∧
      t' ≠ eventsWithVector ∧ ∃ done o rest, done ≠ [] ∧
        requestOfVector.observables = done ++ o :: rest ∧
          requestOfVector.HaltsAt .empty eventsWithVector t' e done o := by
  obtain ⟨e, t', hbook, hpending⟩ := book_eventsWithVector
  have hne : t' ≠ eventsWithVector := by
    rintro rfl
    cases hpending
  have hrefused := (book_refused .empty requestOfVector eventsWithVector).2 e t' hbook
  exact ⟨e, t', hbook, hne, hrefused.2 hne⟩

end VectorColumn

end EventTable

end VariHist
