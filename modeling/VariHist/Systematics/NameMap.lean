/-!
# Names listed under names

An ordered map from names to sets of names.  Keys keep the order in which they were first put in,
and so do the names under each key; nothing is ever taken out.
-/

namespace VariHist

/-- Names listed under names. -/
structure NameMap where
  /-- Each key with the names under it. -/
  entries : List (String × List String)
  distinctKeys : (entries.map Prod.fst).Nodup
  distinctNames : ∀ e ∈ entries, e.2.Nodup

namespace NameMap

/-- A list with an element put at its end, unless it is there already. -/
def insertNew (l : List String) (a : String) : List String :=
  if l.contains a then l else l ++ [a]

theorem mem_insertNew {l : List String} {a b : String} :
    b ∈ insertNew l a ↔ b ∈ l ∨ b = a := by
  unfold insertNew
  by_cases h : l.contains a = true
  · rw [if_pos h]
    constructor
    · exact Or.inl
    · rintro (hb | rfl)
      · exact hb
      · exact List.contains_iff_mem.1 h
  · rw [if_neg h, List.mem_append, List.mem_singleton]

theorem nodup_insertNew {l : List String} {a : String} (h : l.Nodup) : (insertNew l a).Nodup := by
  unfold insertNew
  by_cases ha : l.contains a = true
  · rw [if_pos ha]
    exact h
  · rw [if_neg ha, List.nodup_append]
    refine ⟨h, List.pairwise_singleton _ _, ?_⟩
    intro b hb c hc heq
    rw [List.mem_singleton] at hc
    rw [heq, hc] at hb
    exact ha (List.contains_iff_mem.2 hb)

/-- The map without keys. -/
def empty : NameMap := ⟨[], List.nodup_nil, fun _ he => nomatch he⟩

/-- The keys in their order. -/
def keys (m : NameMap) : List String :=
  m.entries.map Prod.fst

/-- Is the name a key? -/
def hasKey (m : NameMap) (key : String) : Bool :=
  m.keys.contains key

/-- The names under a key in their order; none if it is not a key. -/
def names (m : NameMap) (key : String) : List String :=
  (m.entries.lookup key).getD []

/-- Adds a key with nothing under it, unless the map has the key. -/
def addKey (m : NameMap) (key : String) : NameMap :=
  if h : m.hasKey key then m
  else
    { entries := m.entries ++ [(key, [])]
      distinctKeys := by
        have hkey : insertNew m.keys key = m.keys ++ [key] := if_neg h
        rw [List.map_append]
        exact hkey ▸ nodup_insertNew m.distinctKeys
      distinctNames := by
        intro e he
        rcases List.mem_append.1 he with he | he
        · exact m.distinctNames e he
        · rw [List.mem_singleton.1 he]
          exact List.nodup_nil }

/-- Adds a name to those under a key that the map has. -/
def addName (m : NameMap) (key name : String) : NameMap where
  entries := m.entries.map fun e => if e.1 = key then (e.1, insertNew e.2 name) else e
  distinctKeys := by
    rw [List.map_map]
    have hfst : (Prod.fst ∘ fun e : String × List String =>
        if e.1 = key then (e.1, insertNew e.2 name) else e) = Prod.fst := by
      funext e
      rw [Function.comp_apply]
      split <;> rfl
    rw [hfst]
    exact m.distinctKeys
  distinctNames := by
    intro e he
    obtain ⟨old, hold, rfl⟩ := List.mem_map.1 he
    split
    · exact nodup_insertNew (m.distinctNames old hold)
    · exact m.distinctNames old hold

/-- Lists a name under a key, which is added if the map does not have it. -/
def insert (m : NameMap) (key name : String) : NameMap :=
  (m.addKey key).addName key name

/-! ## What the map says after an insertion -/

variable {m : NameMap} {key key' name : String}

theorem hasKey_iff : m.hasKey key = true ↔ key ∈ m.keys :=
  List.contains_iff_mem

theorem keys_addKey : (m.addKey key).keys = insertNew m.keys key := by
  unfold addKey insertNew
  by_cases h : m.hasKey key = true
  · rw [dif_pos h]
    exact (if_pos h).symm
  · rw [dif_neg h]
    refine Eq.trans ?_ (if_neg h).symm
    rw [keys, List.map_append]
    rfl

theorem keys_addName : (m.addName key name).keys = m.keys := by
  unfold keys addName
  rw [List.map_map]
  refine List.map_congr_left fun e _ => ?_
  rw [Function.comp_apply]
  split <;> rfl

theorem keys_insert : (m.insert key name).keys = insertNew m.keys key := by
  rw [insert, keys_addName, keys_addKey]

theorem lookup_eq_none (h : key ∉ m.keys) : m.entries.lookup key = none := by
  rw [List.lookup_eq_none_iff]
  intro e he
  rw [bne_iff_ne]
  rintro rfl
  exact h (List.mem_map_of_mem he)

theorem names_eq_nil (h : key ∉ m.keys) : m.names key = [] := by
  rw [names, lookup_eq_none h]
  rfl

theorem names_addKey : (m.addKey key).names key' = m.names key' := by
  unfold addKey
  by_cases h : m.hasKey key = true
  · rw [dif_pos h]
  · rw [dif_neg h]
    unfold names
    rw [List.lookup_append]
    by_cases heq : key' = key
    · subst heq
      rw [lookup_eq_none (mt hasKey_iff.2 h)]
      simp
    · simp [List.lookup_cons, beq_false_of_ne heq]

theorem lookup_addName :
    (m.addName key name).entries.lookup key' =
      (m.entries.lookup key').map fun l => if key' = key then insertNew l name else l := by
  unfold addName
  dsimp only
  induction m.entries with
  | nil => rfl
  | cons e entries ih =>
    obtain ⟨k, l⟩ := e
    rw [List.map_cons]
    by_cases hk : key' = k
    · subst hk
      by_cases he : key' = key
      · simp [he]
      · simp [he]
    · have hne : (key' == k) = false := beq_false_of_ne hk
      by_cases he : k = key
      · rw [if_pos he, List.lookup_cons, hne, List.lookup_cons, hne]
        exact ih
      · rw [if_neg he, List.lookup_cons, hne, ih, List.lookup_cons, hne]

theorem exists_lookup (h : key ∈ m.keys) : ∃ l, m.entries.lookup key = some l := by
  cases hl : m.entries.lookup key with
  | some l => exact ⟨l, rfl⟩
  | none =>
    rw [List.lookup_eq_none_iff] at hl
    obtain ⟨e, he, rfl⟩ := List.mem_map.1 h
    simpa using hl e he

/-- Only the names under the key change. -/
theorem names_insert :
    (m.insert key name).names key' =
      if key' = key then insertNew (m.names key) name else m.names key' := by
  have hkey : key ∈ (m.addKey key).keys := by
    rw [keys_addKey]
    exact mem_insertNew.2 (Or.inr rfl)
  rw [insert, names, lookup_addName]
  by_cases heq : key' = key
  · subst heq
    obtain ⟨l, hl⟩ := exists_lookup hkey
    have hnames : (m.addKey key').names key' = m.names key' := names_addKey
    rw [names, hl] at hnames
    rw [hl, if_pos rfl, ← hnames]
    exact if_pos rfl
  · have hnames : (m.addKey key).names key' = m.names key' := names_addKey
    rw [if_neg heq, ← hnames, names]
    simp [heq]

theorem mem_names_insert {a : String} :
    a ∈ (m.insert key name).names key' ↔ a ∈ m.names key' ∨ key' = key ∧ a = name := by
  rw [names_insert]
  by_cases h : key' = key
  · subst h
    rw [if_pos rfl, mem_insertNew]
    simp
  · simp [h]

end NameMap

end VariHist
