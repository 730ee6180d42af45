import Mathlib
import VariHist.Systematics.Registry

/-!
# What a registry says

* `affects_register` — registering columns for a systematic adds just these pairs.
* `systematics_register` — a systematic is listed where it was first mentioned.
* `nodup_systematics` — no systematic is listed twice.
-/

namespace VariHist.Registry

open NameMap

variable {r : Registry} {s s' c : String} {columns : List String}

theorem affects_iff_mem : r.affects s c = true ↔ s ∈ r.byColumn.names c :=
  List.contains_iff_mem

/-- The two maps agree. -/
theorem affects_iff : r.affects s c = true ↔ c ∈ r.affectedBy s :=
  affects_iff_mem.trans (r.mirrored s c).symm

/-- No systematic is listed twice. -/
theorem nodup_systematics : r.systematics.Nodup :=
  r.bySystematic.distinctKeys

/-- What a systematic affects is listed. -/
theorem mem_systematics_of_affects (h : r.affects s c = true) : s ∈ r.systematics := by
  by_contra hs
  rw [affects_iff, affectedBy, names_eq_nil hs] at h
  cases h

theorem affects_link {c' : String} :
    (r.link s c).affects s' c' = true ↔ r.affects s' c' = true ∨ s' = s ∧ c' = c := by
  rw [affects_iff_mem, affects_iff_mem, link, mem_names_insert, and_comm]

theorem affects_foldl_link :
    (columns.foldl (fun r c => r.link s c) r).affects s' c = true ↔
      r.affects s' c = true ∨ s' = s ∧ c ∈ columns := by
  induction columns generalizing r with
  | nil => simp
  | cons c' columns ih =>
    rw [List.foldl_cons, ih, affects_link, List.mem_cons, or_assoc, ← and_or_left]

/-- Registering columns for a systematic adds just these pairs. -/
theorem affects_register :
    (r.register s columns).affects s' c = true ↔
      r.affects s' c = true ∨ s' = s ∧ c ∈ columns :=
  affects_foldl_link

theorem insertNew_of_mem {l : List String} {a : String} (h : a ∈ l) : insertNew l a = l :=
  if_pos (List.contains_iff_mem.2 h)

theorem systematics_foldl_link (hs : s ∈ r.systematics) :
    (columns.foldl (fun r c => r.link s c) r).systematics = r.systematics := by
  induction columns generalizing r with
  | nil => rfl
  | cons c columns ih =>
    have hlink : (r.link s c).systematics = r.systematics :=
      keys_insert.trans (insertNew_of_mem hs)
    rw [List.foldl_cons, ih (hlink ▸ hs), hlink]

/-- A systematic is listed where it was first mentioned. -/
theorem systematics_register :
    (r.register s columns).systematics = insertNew r.systematics s := by
  have hmention : (r.mention s).systematics = insertNew r.systematics s := keys_addKey
  rw [register, systematics_foldl_link, hmention]
  rw [hmention]
  exact mem_insertNew.2 (Or.inr rfl)

/-- Columns registered for several systematics. -/
theorem affects_foldl_register {systematics : List String} :
    (systematics.foldl (fun r s => r.register s columns) r).affects s' c = true ↔
      r.affects s' c = true ∨ s' ∈ systematics ∧ c ∈ columns := by
  induction systematics generalizing r with
  | nil => simp
  | cons s systematics ih =>
    rw [List.foldl_cons, ih, affects_register, List.mem_cons, or_and_right, or_assoc]

theorem nodup_foldl_register {systematics : List String} (h : r.systematics.Nodup) :
    (systematics.foldl (fun r s => r.register s columns) r).systematics.Nodup := by
  induction systematics generalizing r with
  | nil => exact h
  | cons s systematics ih =>
    refine ih ?_
    rw [systematics_register]
    exact nodup_insertNew h

/-- Registering for systematics that are listed changes nothing in the list. -/
theorem systematics_foldl_register {systematics : List String}
    (h : ∀ s ∈ systematics, s ∈ r.systematics) :
    (systematics.foldl (fun r s => r.register s columns) r).systematics = r.systematics := by
  induction systematics generalizing r with
  | nil => rfl
  | cons s systematics ih =>
    have hs : (r.register s columns).systematics = r.systematics := by
      rw [systematics_register, insertNew,
        if_pos (List.contains_iff_mem.2 (h s List.mem_cons_self))]
    rw [List.foldl_cons, ih (by
      rw [hs]
      exact fun s' hs' => h s' (List.mem_cons_of_mem _ hs')), hs]

/-- The registries that come about by registering. -/
inductive Reachable : Registry → Prop
  | empty : Reachable empty
  | register {r : Registry} (systematic : String) (columns : List String) (hr : Reachable r) :
    Reachable (r.register systematic columns)

theorem Reachable.nodup (_ : r.Reachable) : r.systematics.Nodup :=
  nodup_systematics

theorem Reachable.foldl_register (hr : r.Reachable) (l : List (String × List String)) :
    (l.foldl (fun r e => r.register e.1 e.2) r).Reachable := by
  induction l generalizing r with
  | nil => exact hr
  | cons e l ih => exact ih (hr.register e.1 e.2)

theorem Reachable.registerExisting (hr : r.Reachable) (systematics columns : List String) :
    (r.registerExisting systematics columns).Reachable := by
  induction systematics generalizing r with
  | nil => exact hr
  | cons s systematics ih => exact ih (hr.register s _)

end VariHist.Registry
