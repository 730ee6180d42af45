import Mathlib
import VariHist.Booking.Projection
import VariHist.Proofs.Systematics.Definitions

/-!
# What a tree holds

* `get?_insert` — putting a histogram into a tree adds it under its path and name, which were free,
  and leaves everything else where it is.
* `get?_insertAll` — after histograms have been put in one after another, the tree holds what it
  held before and them.
-/

namespace VariHist

variable {ν : Type}

theorem lookup_cons_ite {β : Type} (key k : String) (value : β) (l : List (String × β)) :
    ((key, value) :: l).lookup k = if k = key then some value else l.lookup k := by
  rw [List.lookup_cons]
  by_cases h : k = key
  · rw [if_pos h, beq_iff_eq.2 h]
  · rw [if_neg h, beq_false_of_ne h]

/-- A value that is put under a key is found there, and nothing else is moved. -/
theorem lookup_putInOrder {β : Type} (key k : String) (value : β) (l : List (String × β)) :
    (putInOrder key value l).lookup k = if k = key then some value else l.lookup k := by
  induction l with
  | nil => exact lookup_cons_ite key k value []
  | cons e l ih =>
    obtain ⟨name, old⟩ := e
    rw [putInOrder]
    by_cases hlt : key < name
    · rw [if_pos hlt, lookup_cons_ite]
    · rw [if_neg hlt]
      by_cases heq : key = name
      · subst heq
        rw [if_pos rfl, lookup_cons_ite, lookup_cons_ite]
        by_cases hk : k = key
        · rw [if_pos hk, if_pos hk]
        · rw [if_neg hk, if_neg hk, if_neg hk]
      · rw [if_neg heq, lookup_cons_ite, lookup_cons_ite, ih]
        by_cases hk : k = name
        · rw [if_pos hk, if_pos hk, if_neg fun h => heq (h.symm.trans hk)]
        · rw [if_neg hk, if_neg hk]

namespace HistogramTree

variable {t t' : HistogramTree ν} {path : List String} {name : String} {h : Spectrum ν}

theorem get?_nil (t : HistogramTree ν) (name : String) :
    t.get? [] name = t.histograms.lookup name :=
  rfl

theorem get?_cons (t : HistogramTree ν) (segment : String) (path : List String) (name : String) :
    t.get? (segment :: path) name =
      (t.dirs.lookup segment).bind fun d => d.get? path name := by
  rw [get?, dir?, Option.bind_assoc]
  rfl

theorem get?_empty (path : List String) (name : String) :
    (empty : HistogramTree ν).get? path name = none := by
  cases path with
  | nil => rfl
  | cons segment path => rfl

/-- The directory below a segment, empty if there is none. -/
theorem get?_below (t : HistogramTree ν) (segment : String) (path : List String) (name : String) :
    ((t.dirs.lookup segment).getD empty).get? path name = t.get? (segment :: path) name := by
  rw [get?_cons]
  cases t.dirs.lookup segment with
  | none => exact get?_empty path name
  | some d => rfl

/-- What changes in the directory at a path shows there, and nowhere else.  The induction is on the
path. -/
theorem get?_alterAt {l : List String}
    (hstep : alterAt path (fun d => if d.holds h.name then .error (.config (.entryTaken h.name l))
      else .ok (.node d.dirs (putInOrder h.name h d.histograms))) t = .ok () t') :
    t.get? path h.name = none ∧ ∀ p n, t'.get? p n =
      if p = path ∧ n = h.name then some h else t.get? p n := by
  induction path generalizing t t' with
  | nil =>
    unfold alterAt Step.attempt at hstep
    dsimp only at hstep
    by_cases hholds : t.holds h.name = true
    · rw [if_pos hholds] at hstep
      cases hstep
    · rw [if_neg hholds] at hstep
      cases hstep
      rw [holds, Bool.or_eq_true, not_or] at hholds
      refine ⟨Option.not_isSome_iff_eq_none.1 hholds.1, fun p n => ?_⟩
      cases p with
      | nil =>
        rw [get?_nil, get?_nil, histograms, lookup_putInOrder]
        simp
      | cons segment p =>
        rw [get?_cons, get?_cons]
        simp [dirs]
  | cons segment path ih =>
    unfold alterAt at hstep
    dsimp only at hstep
    split at hstep
    · cases hbelow : alterAt path (fun d => if d.holds h.name
          then .error (.config (.entryTaken h.name l))
          else .ok (.node d.dirs (putInOrder h.name h d.histograms)))
          ((t.dirs.lookup segment).getD empty) with
      | error e d => rw [hbelow] at hstep; cases hstep
      | ok u d =>
        rw [hbelow] at hstep
        cases hstep
        obtain ⟨hfree, hget⟩ := ih hbelow
        rw [get?_below] at hfree
        refine ⟨hfree, fun p n => ?_⟩
        cases p with
        | nil => simp [get?_nil, histograms]
        | cons segment' p =>
          rw [get?_cons, dirs, lookup_putInOrder]
          by_cases hs : segment' = segment
          · subst hs
            rw [if_pos rfl, Option.bind_some, hget, get?_below]
            simp
          · rw [if_neg hs, get?_cons]
            simp [hs]
    · cases hstep

/-- Putting a histogram into a tree adds it, and leaves everything else where it is. -/
theorem get?_insert (hstep : insert path h t = .ok () t') :
    t.get? path h.name = none ∧ ∀ p n, t'.get? p n =
      if p = path ∧ n = h.name then some h else t.get? p n := by
  unfold insert at hstep
  split at hstep
  · exact get?_alterAt hstep
  · cases hstep

/-- After histograms have been put in one after another, the tree holds what it held before and
them. -/
theorem get?_insertAll {spectra : List (OutputKey × Spectrum ν)}
    (hnames : ∀ e ∈ spectra, e.2.name = e.1.leaf)
    (hstep : (spectra.forM fun e => insert e.1.path e.2) t = .ok () t') (p : List String)
    (n : String) (s : Spectrum ν) :
    t'.get? p n = some s ↔ t.get? p n = some s ∨ (⟨p, n⟩, s) ∈ spectra := by
  induction spectra generalizing t with
  | nil =>
    cases hstep
    simp
  | cons e spectra ih =>
    obtain ⟨⟨path, leaf⟩, h⟩ := e
    obtain ⟨hname, hrest⟩ := List.forall_mem_cons.1 hnames
    obtain ⟨⟨⟩, t₁, hfirst, hlater⟩ := Step.bind_eq_ok_iff.1 hstep
    obtain ⟨hfree, hget⟩ := get?_insert hfirst
    obtain rfl : h.name = leaf := hname
    rw [ih hrest hlater, hget, List.mem_cons, ← or_assoc]
    refine or_congr_left ?_
    by_cases hkey : p = path ∧ n = h.name
    · obtain ⟨rfl, rfl⟩ := hkey
      simp [hfree, eq_comm]
    · rw [if_neg hkey]
      refine (or_iff_left fun heq => hkey ?_).symm
      cases heq
      exact ⟨rfl, rfl⟩

end HistogramTree

end VariHist
