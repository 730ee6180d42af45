import VariHist.Proofs.Booking.Book
import VariHist.Proofs.Booking.Projected
import VariHist.Proofs.Output.Taken

/-!
# Spectra that are refused

Before the event loop runs, a projection looks whether the places of its spectra are free and
distinct.  It does not look at everything: not at the directories that are made on the way to the
spectra, not at spectra of variations without a slice, and not at whether names and labels are
segments.  What it misses is found out when the spectra are put into the tree, after the event loop.

* `checkOutputKeys_eq_ok` — what the check promises; `checkOutputKeys_of_nodup` — when it passes.
* `putAll_eq_ok`, `exists_of_putAll_eq_error` — the loop that puts the spectra into the tree goes
  through if and only if nothing rejects a spectrum.
* `projectInto_refused` — a projection fails before the event loop, and changes nothing, if and only
  if the check does; with the check passed it fails for one of the reasons that the check misses.
-/

namespace VariHist

/-! ## What the check promises -/

section Check

variable {taken : OutputKey → Bool} {bookings before after : List Booking} {b b' : Booking}
  {key : OutputKey}

theorem free_of_claims {claims : List (String × OutputKey)}
    {claimed claimed' : Std.TreeMap OutputKey String}
    (h : claims.foldlM (m := Except ConfigFault)
      (fun claimed (name, key) => claimKey taken claimed name key) claimed = .ok claimed') :
    ∀ claim ∈ claims, taken claim.2 = false := by
  induction claims generalizing claimed with
  | nil => simp
  | cons claim claims ih =>
    obtain ⟨name, key⟩ := claim
    rw [List.foldlM_cons, bind_except_eq_ok_iff] at h
    obtain ⟨claimed₁, hfirst, hrest⟩ := h
    refine List.forall_mem_cons.2 ⟨?_, ih hrest⟩
    unfold claimKey at hfirst
    dsimp only at hfirst
    split_ifs at hfirst with htaken
    exact Bool.eq_false_iff.2 htaken

/-- The check promises that the places which spectra are expected to take are free, and that no two
bookings expect the same one. -/
theorem checkOutputKeys_eq_ok (h : checkOutputKeys taken bookings = .ok ())
    (hsplit : bookings = before ++ b :: after) (hkey : key ∈ b.outputKeys) :
    taken key = false ∧ ∀ b' ∈ before, key ∉ b'.outputKeys := by
  constructor
  · obtain ⟨claimed, hclaims, -⟩ := bind_except_eq_ok_iff.1 h
    refine free_of_claims hclaims (b.name, key) (List.mem_flatMap.2 ⟨b, ?_, ?_⟩)
    · rw [hsplit]
      simp
    · exact List.mem_map_of_mem hkey
  · intro b' hb' hkey'
    have hdistinct := (List.nodup_flatMap.1 (nodup_outputKeys h)).2
    rw [hsplit] at hdistinct
    exact (List.pairwise_append.1 hdistinct).2.2 b' hb' b List.mem_cons_self hkey' hkey

theorem exists_of_claims {claims : List (String × OutputKey)}
    {claimed : Std.TreeMap OutputKey String} (hnd : (claims.map Prod.snd).Nodup)
    (hfree : ∀ key ∈ claims.map Prod.snd, taken key = false ∧ key ∉ claimed) :
    ∃ claimed', claims.foldlM (m := Except ConfigFault)
      (fun claimed (name, key) => claimKey taken claimed name key) claimed = .ok claimed' := by
  induction claims generalizing claimed with
  | nil => exact ⟨claimed, rfl⟩
  | cons claim claims ih =>
    obtain ⟨name, key⟩ := claim
    rw [List.map_cons, List.nodup_cons] at hnd
    rw [List.map_cons, List.forall_mem_cons] at hfree
    obtain ⟨⟨htaken, hout⟩, hrest⟩ := hfree
    have hclaim : claimKey taken claimed name key = .ok (claimed.insert key name) := by
      unfold claimKey
      rw [htaken, Std.TreeMap.getElem?_eq_none hout]
      rfl
    have hstill : ∀ k ∈ claims.map Prod.snd, taken k = false ∧ k ∉ claimed.insert key name := by
      intro k hk
      refine ⟨(hrest k hk).1, fun hmem => ?_⟩
      rcases Std.TreeMap.mem_insert.1 hmem with heq | hmem
      · obtain rfl : key = k := Std.LawfulEqCmp.compare_eq_iff_eq.1 heq
        exact hnd.1 hk
      · exact (hrest k hk).2 hmem
    obtain ⟨claimed', hlater⟩ := ih hnd.2 hstill
    exact ⟨claimed', bind_except_eq_ok_iff.2 ⟨_, hclaim, hlater⟩⟩

/-- The check passes if all places are free and distinct. -/
theorem checkOutputKeys_of_nodup (hnd : (bookings.flatMap Booking.outputKeys).Nodup)
    (hfree : ∀ key, taken key = false) : checkOutputKeys taken bookings = .ok () := by
  have hkeys : (bookings.flatMap fun b => b.outputKeys.map fun key => (b.name, key)).map Prod.snd =
      bookings.flatMap Booking.outputKeys := by
    rw [List.map_flatMap]
    exact List.flatMap_congr fun b _ => by rw [List.map_map]; exact List.map_id _
  obtain ⟨claimed, hclaims⟩ := exists_of_claims (hkeys.symm ▸ hnd) fun key _ =>
    show taken key = false ∧ key ∉ (∅ : Std.TreeMap OutputKey String) from
      ⟨hfree key, Std.TreeMap.not_mem_emptyc⟩
  exact bind_except_eq_ok_iff.2 ⟨claimed, hclaims, rfl⟩

end Check

variable {α ν : Type} [FillNumber ν]

/-! ## Spectra of one booking -/

namespace Booking

variable {b : Booking} {h : SparseHistogram ν} {key key' : OutputKey} {coords : List UInt64}
  {tree tree' : HistogramTree ν} {e : Error}

theorem length_mapM_id {β : Type} {l : List (Option β)} {l' : List β} (h : l.mapM id = some l') :
    l'.length = l.length := by
  induction l generalizing l' with
  | nil =>
    cases h
    rfl
  | cons a l ih =>
    rw [List.mapM_cons] at h
    obtain ⟨b, -, h⟩ := Option.bind_eq_some_iff.1 h
    obtain ⟨bs, hrest, h⟩ := Option.bind_eq_some_iff.1 h
    cases h
    rw [List.length_cons, List.length_cons, ih hrest]

/-- All spectra of a booking lie equally deep. -/
theorem length_path_of_keyOf? (h : b.keyOf? coords = some key) :
    key.path.length = b.selection.length - 1 := by
  unfold keyOf? at h
  dsimp only at h
  obtain ⟨labels, hlabels, h⟩ := Option.bind_eq_some_iff.1 h
  have hlength := length_mapM_id hlabels
  rw [List.length_map, List.length_zip, List.length_take] at hlength
  split_ifs at h with hshort
  cases h
  rw [List.length_dropLast]
  omega

theorem length_path_of_mem (hkey : key ∈ b.spectraOf h) :
    key.path.length = b.selection.length - 1 := by
  obtain ⟨e, -, hcoords⟩ := exists_of_mem_spectraOf hkey
  exact length_path_of_keyOf? hcoords

/-- No spectrum of a booking takes the place of another one. -/
theorem eq_of_takes (hkey : key ∈ b.spectraOf h) (hkey' : key' ∈ b.spectraOf h)
    (htakes : key'.Takes key) : key = key' := by
  rcases htakes with heq | hprefix
  · exact heq
  · have hlength := hprefix.length_le
    rw [List.length_append, length_path_of_mem hkey, length_path_of_mem hkey'] at hlength
    simp at hlength

theorem name_of_mem_toList (b : Booking) (h : SparseHistogram ν) :
    ∀ e ∈ (b.spectraOf h).toList, e.2.name = e.1.leaf :=
  fun _ he => name_of_spectraOf (Std.TreeMap.mem_toList_iff_getElem?_eq_some.1 he)

omit [FillNumber ν] in
theorem mem_iff_exists_mem_toList {spectra : Spectra ν} :
    key ∈ spectra ↔ ∃ s, (key, s) ∈ spectra.toList := by
  rw [Std.TreeMap.mem_iff_isSome_getElem?, Option.isSome_iff_exists]
  simp only [Std.TreeMap.mem_toList_iff_getElem?_eq_some]

/-- If all spectra of a booking are put into a tree, none of them was rejected. -/
theorem insertSpectra_eq_ok (hstep : insertSpectra (b.spectraOf h) tree = .ok () tree') :
    (∀ key ∈ b.spectraOf h, ∀ f, ¬ Rejects key (tree.isTaken key.path key.leaf = true) f) ∧
      ∀ place : OutputKey, tree'.isTaken place.path place.leaf = true ↔
        tree.isTaken place.path place.leaf = true ∨ ∃ key ∈ b.spectraOf h, key.Takes place := by
  have hnames := name_of_mem_toList b h
  constructor
  · intro key hkey f hf
    obtain ⟨s, hs⟩ := mem_iff_exists_mem_toList.1 hkey
    obtain ⟨done, rest, hsplit⟩ := List.append_of_mem hs
    unfold insertSpectra at hstep
    rw [hsplit] at hstep hnames
    obtain ⟨tree₁, hdone, hlater⟩ := Step.forM_append_eq_ok_iff.1 hstep
    obtain ⟨⟨⟩, tree₂, hinsert, -⟩ := Step.bind_eq_ok_iff.1 hlater
    have hname : s.name = key.leaf := hnames (key, s) (by simp)
    have hfree := (HistogramTree.insert_eq_ok hinsert).1
    rw [hname] at hfree
    refine hfree f (hf.imp fun htaken => ?_)
    exact (HistogramTree.isTaken_insertAll (fun e he => hnames e (List.mem_append_left _ he))
      hdone key).2 (.inl htaken)
  · intro place
    rw [HistogramTree.isTaken_insertAll hnames hstep]
    refine or_congr_right ⟨?_, ?_⟩
    · rintro ⟨⟨key, s⟩, he, htakes⟩
      exact ⟨key, mem_iff_exists_mem_toList.2 ⟨s, he⟩, htakes⟩
    · rintro ⟨key, hkey, htakes⟩
      obtain ⟨s, hs⟩ := mem_iff_exists_mem_toList.1 hkey
      exact ⟨(key, s), hs, htakes⟩

/-- If the spectra of a booking cannot be put into a tree, the tree as it was before rejects one of
them. -/
theorem exists_of_insertSpectra_eq_error
    (hstep : insertSpectra (b.spectraOf h) tree = .error e tree') :
    ∃ key ∈ b.spectraOf h, ∃ f, e = .config f ∧
      Rejects key (tree.isTaken key.path key.leaf = true) f := by
  have hnames := name_of_mem_toList b h
  obtain ⟨done, ⟨key, s⟩, rest, tree₁, hsplit, hdone, hinsert⟩ :=
    Step.exists_of_forM_eq_error hstep
  have hkeys := Std.TreeMap.distinct_keys_toList (t := b.spectraOf h)
  have hmem : ∀ e ∈ done ++ (key, s) :: rest, e.1 ∈ b.spectraOf h := fun e he =>
    mem_iff_exists_mem_toList.2 ⟨e.2, by rw [hsplit]; exact he⟩
  rw [hsplit] at hnames hkeys
  have hname : s.name = key.leaf := hnames (key, s) (by simp)
  obtain ⟨f, rfl, hf⟩ := HistogramTree.insert_eq_error hinsert
  rw [hname] at hf
  have hkey := hmem (key, s) (by simp)
  refine ⟨key, hkey, f, rfl, hf.imp fun htaken => ?_⟩
  rcases (HistogramTree.isTaken_insertAll (fun e he => hnames e (List.mem_append_left _ he))
    hdone key).1 htaken with hbefore | ⟨e, he, htakes⟩
  · exact hbefore
  · -- the spectra put in before lie as deep as this one, under other keys
    exfalso
    have hne := (List.pairwise_append.1 hkeys).2.2 e he (key, s) List.mem_cons_self
    have heq := eq_of_takes hkey (hmem e (List.mem_append_left _ he)) htakes
    exact hne (Std.LawfulEqCmp.compare_eq_iff_eq.2 heq.symm)

end Booking

/-! ## Spectra of several bookings -/

variable [HoldsHistograms α ν] {t t' : EventTable α} {tree tree' : HistogramTree ν}
  {bookings before after : List Booking} {b : Booking} {key : OutputKey} {e : Error}

/-- A booking has a spectrum under a key, in a table whose event loop is over. -/
def Booking.Yields (b : Booking) (t : EventTable α) (key : OutputKey) : Prop :=
  ∃ h, b.result? t = some h ∧ key ∈ b.spectraOf h

/-- Puts the spectra of a booking into a tree. -/
def Booking.put (b : Booking) : Step (EventTable α × HistogramTree ν) Unit := do
  let spectra ← Step.ask fun (t, _) => b.spectra t
  Step.within Prod.snd (fun tree s => (s.1, tree)) (Booking.insertSpectra spectra)

theorem Booking.put_eq_ok (hstep : b.put (t, tree) = .ok () (t', tree')) :
    t' = t ∧ (∀ key, b.Yields t key →
      ∀ f, ¬ Rejects key (tree.isTaken key.path key.leaf = true) f) ∧
      ∀ place : OutputKey, tree'.isTaken place.path place.leaf = true ↔
        tree.isTaken place.path place.leaf = true ∨ ∃ key, b.Yields t key ∧ key.Takes place := by
  obtain ⟨spectra, u, hask, hwithin⟩ := Step.bind_eq_ok_iff.1 hstep
  obtain ⟨hspectra, rfl⟩ := Step.ask_eq_ok_iff.1 hask
  obtain ⟨tree₁, hinsert, heq⟩ := Step.within_eq_ok_iff.1 hwithin
  cases heq
  obtain ⟨h, hresult, rfl⟩ := Booking.spectra_eq_ok_iff.1 hspectra
  have hyields : ∀ key, b.Yields t key ↔ key ∈ b.spectraOf h := by
    intro key
    simp only [Yields, hresult, Option.some.injEq, exists_eq_left']
  obtain ⟨hfree, htaken⟩ := Booking.insertSpectra_eq_ok hinsert
  refine ⟨rfl, fun key hkey => hfree key ((hyields key).1 hkey), fun place => ?_⟩
  rw [htaken]
  simp only [hyields]

theorem Booking.put_eq_error {s : EventTable α × HistogramTree ν}
    (hstep : b.put (t, tree) = .error e s) :
    s.1 = t ∧ (b.result? t = none ∧ e = .computation (.notFilled b.name) ∨
      ∃ key f, b.Yields t key ∧ e = .config f ∧
        Rejects key (tree.isTaken key.path key.leaf = true) f) := by
  rcases Step.bind_eq_error_iff.1 hstep with hask | ⟨spectra, u, hask, hwithin⟩
  · obtain ⟨hspectra, rfl⟩ := Step.ask_eq_error_iff.1 hask
    unfold Booking.spectra at hspectra
    dsimp only at hspectra
    split at hspectra
    · cases hspectra
    · rename_i hresult
      cases hspectra
      exact ⟨rfl, .inl ⟨hresult, rfl⟩⟩
  · obtain ⟨hspectra, rfl⟩ := Step.ask_eq_ok_iff.1 hask
    obtain ⟨tree₁, hinsert, rfl⟩ := Step.within_eq_error_iff.1 hwithin
    obtain ⟨h, hresult, rfl⟩ := Booking.spectra_eq_ok_iff.1 hspectra
    obtain ⟨key, hkey, f, rfl, hf⟩ := Booking.exists_of_insertSpectra_eq_error hinsert
    exact ⟨rfl, .inr ⟨key, f, ⟨h, hresult, hkey⟩, rfl, hf⟩⟩

/-- A place is taken in a tree into which the spectra of bookings have been put. -/
def Occupied (tree : HistogramTree ν) (t : EventTable α) (before : List Booking)
    (place : OutputKey) : Prop :=
  tree.isTaken place.path place.leaf = true ∨
    ∃ b ∈ before, ∃ key, b.Yields t key ∧ key.Takes place

/-- The spectra of bookings take their places and those of their directories.  The induction is on
the list of bookings. -/
theorem isTaken_putAll (hstep : bookings.forM Booking.put (t, tree) = .ok () (t', tree')) :
    t' = t ∧ ∀ place : OutputKey,
      tree'.isTaken place.path place.leaf = true ↔ Occupied tree t bookings place := by
  induction bookings generalizing tree with
  | nil =>
    cases hstep
    simp [Occupied]
  | cons b bookings ih =>
    obtain ⟨⟨⟩, ⟨t₁, tree₁⟩, hfirst, hrest⟩ := Step.bind_eq_ok_iff.1 hstep
    obtain ⟨rfl, -, hnow⟩ := Booking.put_eq_ok hfirst
    obtain ⟨rfl, hlater⟩ := ih hrest
    refine ⟨rfl, fun place => ?_⟩
    rw [hlater, Occupied, Occupied, hnow, List.exists_mem_cons_iff, or_assoc]

/-- If the spectra of all bookings are put into a tree, none of them was rejected. -/
theorem putAll_eq_ok (hstep : bookings.forM Booking.put (t, tree) = .ok () (t', tree'))
    (hsplit : bookings = before ++ b :: after) (hkey : b.Yields t key) (f : ConfigFault) :
    ¬ Rejects key (Occupied tree t before key) f := by
  rw [hsplit] at hstep
  obtain ⟨⟨t₁, tree₁⟩, hbefore, hlater⟩ := Step.forM_append_eq_ok_iff.1 hstep
  obtain ⟨⟨⟩, ⟨t₂, tree₂⟩, hput, -⟩ := Step.bind_eq_ok_iff.1 hlater
  obtain ⟨rfl, htaken⟩ := isTaken_putAll hbefore
  intro hf
  exact (Booking.put_eq_ok hput).2.1 key hkey f (hf.imp (htaken key).2)

/-- If the spectra of bookings cannot all be put into a tree, a booking is not filled or one of the
spectra was rejected. -/
theorem exists_of_putAll_eq_error {s : EventTable α × HistogramTree ν}
    (hstep : bookings.forM Booking.put (t, tree) = .error e s) :
    s.1 = t ∧ ∃ before b after, bookings = before ++ b :: after ∧
      (b.result? t = none ∧ e = .computation (.notFilled b.name) ∨
        ∃ key f, b.Yields t key ∧ e = .config f ∧ Rejects key (Occupied tree t before key) f) := by
  obtain ⟨before, b, after, ⟨t₁, tree₁⟩, hsplit, hbefore, hput⟩ :=
    Step.exists_of_forM_eq_error hstep
  obtain ⟨rfl, htaken⟩ := isTaken_putAll hbefore
  obtain ⟨hs, hfault⟩ := Booking.put_eq_error hput
  refine ⟨hs, before, b, after, hsplit, hfault.imp_right ?_⟩
  rintro ⟨key, f, hkey, he, hf⟩
  exact ⟨key, f, hkey, he, hf.imp (htaken key).1⟩

/-! ## What the check misses -/

/-- A place is occupied although the check found it free: the booking or the one that took the
place does not list it among its own, or it is the place of a directory. -/
inductive Unforeseen (tree : HistogramTree ν) (t : EventTable α) (before : List Booking)
    (b : Booking) (key : OutputKey) : Prop where
  | entry : tree.isTaken key.path key.leaf = true → key ∉ b.outputKeys →
      Unforeseen tree t before b key
  | shared {b' : Booking} : b' ∈ before → b'.Yields t key →
      (key ∉ b.outputKeys ∨ key ∉ b'.outputKeys) → Unforeseen tree t before b key
  | directory {b' : Booking} {key' : OutputKey} : b' ∈ before → b'.Yields t key' →
      key.path ++ [key.leaf] <+: key'.path → Unforeseen tree t before b key

theorem Unforeseen.occupied (h : Unforeseen tree t before b key) : Occupied tree t before key := by
  cases h with
  | entry htaken _ => exact .inl htaken
  | shared hb' hyields _ => exact .inr ⟨_, hb', key, hyields, .inl rfl⟩
  | directory hb' hyields hprefix => exact .inr ⟨_, hb', _, hyields, .inr hprefix⟩

/-- The check of a projection into a tree. -/
abbrev EventTable.checkPlaces (bookings : List Booking) (tree : HistogramTree ν) :
    Except ConfigFault Unit :=
  checkOutputKeys (fun key => tree.isTaken key.path key.leaf) bookings

/-- After the check, a place can be occupied only in a way that the check misses. -/
theorem unforeseen_of_occupied (hcheck : EventTable.checkPlaces bookings tree = .ok ())
    (hsplit : bookings = before ++ b :: after) (h : Occupied tree t before key) :
    Unforeseen tree t before b key := by
  rcases h with htaken | ⟨b', hb', key', hyields, rfl | hprefix⟩
  · refine .entry htaken fun hkey => ?_
    rw [(checkOutputKeys_eq_ok hcheck hsplit hkey).1] at htaken
    cases htaken
  · refine .shared hb' hyields ?_
    by_cases hkey : key ∈ b.outputKeys
    · exact .inr ((checkOutputKeys_eq_ok hcheck hsplit hkey).2 b' hb')
    · exact .inl hkey
  · exact .directory hb' hyields hprefix

namespace EventTable

variable {α ν : Type} [Aggregation α] {t t' : EventTable α} {tree : HistogramTree ν}
  {bookings : List Booking} {e : Error}

/-- The event loop has no configuration faults. -/
theorem run_ne_config [Machine] {f : ConfigFault} : EventTable.run t ≠ .error (.config f) t' := by
  have hprepare : ∀ (slots : Nat) (l : List (Subscription α)),
      (Subscription.prepareAll slots l).2 ≠ some (.config f) := by
    intro slots l
    induction l with
    | nil => simp [Subscription.prepareAll]
    | cons s l ih =>
      unfold Subscription.prepareAll
      dsimp only
      split_ifs
      · exact ih
      · simp
  intro hrun
  unfold EventTable.run at hrun
  split_ifs at hrun
  split at hrun
  · cases hrun
  · split at hrun
    · rename_i prepared fault heq
      cases hrun
      exact hprepare _ _ (congrArg Prod.snd heq)
    · cases hrun

variable [FillNumber ν] [HoldsHistograms α ν]

theorem projectInto_of_check_eq_error [Machine] {f : ConfigFault}
    (hcheck : checkPlaces bookings tree = .error f) :
    EventTable.projectInto bookings (t, tree) = .error (.config f) (t, tree) := by
  refine Step.bind_eq_error_iff.2 (.inl (Step.ask_eq_error_iff.2 ⟨?_, rfl⟩))
  exact congrArg (Except.mapError Error.config) hcheck

theorem projectInto_of_run_eq_error [Machine] (hcheck : checkPlaces bookings tree = .ok ())
    (hrun : EventTable.run t = .error e t') :
    EventTable.projectInto bookings (t, tree) = .error e (t', tree) := by
  refine Step.bind_eq_error_iff.2 (.inr ⟨(), (t, tree), ?_, ?_⟩)
  · exact Step.ask_eq_ok_iff.2 ⟨congrArg (Except.mapError Error.config) hcheck, rfl⟩
  · exact Step.bind_eq_error_iff.2 (.inl (Step.within_eq_error_iff.2 ⟨t', hrun, rfl⟩))

/-- After the check and the event loop, the spectra are put into the tree. -/
theorem projectInto_eq_putAll [Machine] (hcheck : checkPlaces bookings tree = .ok ())
    (hrun : EventTable.run t = .ok () t') :
    EventTable.projectInto bookings (t, tree) = bookings.forM Booking.put (t', tree) := by
  have hask : Step.ask (fun s : EventTable α × HistogramTree ν =>
      (checkPlaces bookings s.2).mapError .config) (t, tree) = .ok () (t, tree) :=
    Step.ask_eq_ok_iff.2 ⟨congrArg (Except.mapError Error.config) hcheck, rfl⟩
  have hwithin : Step.within Prod.fst (fun t (s : EventTable α × HistogramTree ν) => (t, s.2))
      EventTable.run (t, tree) = .ok () (t', tree) :=
    Step.within_eq_ok_iff.2 ⟨t', hrun, rfl⟩
  exact (Step.bind_of_eq_ok hask).trans (Step.bind_of_eq_ok hwithin)

theorem project_eq_error_iff [Machine] : EventTable.project bookings t = .error e t' ↔
    ∃ tree : HistogramTree ν,
      EventTable.projectInto bookings (t, .empty) = .error e (t', tree) := by
  unfold EventTable.project
  cases EventTable.projectInto bookings (t, (.empty : HistogramTree ν)) with
  | ok u s => simp
  | error e' s =>
    obtain ⟨t₁, tree⟩ := s
    simp

/-- A projection whose check fails changes nothing, and the event loop does not run.  With the check
passed, a fault of the request means that the event loop has run, and that a spectrum was rejected:
its leaf or a directory on the way to it is no segment, or its place is occupied in a way that the
check misses.  Each of these reasons makes a projection fail. -/
theorem projectInto_refused [Machine] (bookings : List Booking) (t : EventTable α)
    (tree : HistogramTree ν) :
    (∀ f, checkPlaces bookings tree = .error f →
      EventTable.projectInto bookings (t, tree) = .error (.config f) (t, tree)) ∧
    (checkPlaces bookings tree = .ok () →
      (∀ f s, EventTable.projectInto bookings (t, tree) = .error (.config f) s →
        EventTable.run t = .ok () s.1 ∧ ∃ before b after key, bookings = before ++ b :: after ∧
          b.Yields s.1 key ∧ Rejects key (Unforeseen tree s.1 before b key) f) ∧
      ∀ t', EventTable.run t = .ok () t' → (∃ before b after key f,
          bookings = before ++ b :: after ∧ b.Yields t' key ∧
            Rejects key (Unforeseen tree t' before b key) f) →
        (∃ f s, EventTable.projectInto bookings (t, tree) = .error (.config f) s) ∨
          ∃ b ∈ bookings, b.result? t' = none) := by
  refine ⟨fun f => projectInto_of_check_eq_error, fun hcheck => ⟨fun f s h => ?_, ?_⟩⟩
  · cases hrun : EventTable.run t with
    | error e t' =>
      rw [projectInto_of_run_eq_error hcheck hrun] at h
      cases h
      exact absurd hrun run_ne_config
    | ok u t' =>
      rw [projectInto_eq_putAll hcheck hrun] at h
      obtain ⟨hs, before, b, after, hsplit, hfault⟩ := exists_of_putAll_eq_error h
      rw [hs]
      refine ⟨rfl, before, b, after, ?_⟩
      rcases hfault with ⟨-, he⟩ | ⟨key, f', hkey, he, hf⟩
      · cases he
      · cases he
        exact ⟨key, hsplit, hkey, hf.imp (unforeseen_of_occupied hcheck hsplit)⟩
  · rintro t' hrun ⟨before, b, after, key, f, hsplit, hkey, hf⟩
    rw [projectInto_eq_putAll hcheck hrun]
    cases hput : bookings.forM Booking.put (t', tree) with
    | ok u s => exact absurd (hf.imp Unforeseen.occupied) (putAll_eq_ok hput hsplit hkey f)
    | error e s =>
      obtain ⟨-, before', b', after', hsplit', hfault⟩ := exists_of_putAll_eq_error hput
      rcases hfault with ⟨hresult, -⟩ | ⟨key', f', -, rfl, -⟩
      · exact .inr ⟨b', by rw [hsplit']; simp, hresult⟩
      · exact .inl ⟨f', s, rfl⟩

/-- Books histograms with one call after another. -/
def bookAll [Machine] (calls : List (Registry × BookingRequest)) :
    Step (EventTable α) (List Booking) := do
  return (← calls.mapM fun (registry, r) => EventTable.book registry r).flatten

section Region

attribute [local instance] Machine.oneThread

/-- One event, in the only region. -/
def eventsInRegion : EventTable (SlottedHistogram Float) :=
  ⟨1, 0, #[⟨"r", .stored #[0]⟩, ⟨"idx", .stored #[0]⟩, ⟨"x", .stored #[1]⟩, ⟨"E", .stored #[1]⟩,
    ⟨"w", .stored #[1]⟩], [], [], [], 0⟩

/-- A histogram of `x` in a region with the label `E`, and a histogram of `E` in no region. -/
def callsOfRegion : List (Registry × BookingRequest) :=
  [(.empty, ⟨[⟨"h1", "x", "x", "w", 2, 0, 2⟩], [⟨"r", 1, -0.5, 0.5⟩, ⟨"idx", 1, -0.5, 0.5⟩], "sr",
      [["E"], ["Nominal"]]⟩),
    (.empty, ⟨[⟨"h2", "E", "E", "w", 2, 0, 2⟩], [⟨"idx", 1, -0.5, 0.5⟩], "sr", [["Nominal"]]⟩)]

theorem eventsInRegion_reachable : eventsInRegion.Reachable := by
  have hcolumns : (ofColumns [("r", #[0]), ("idx", #[0]), ("x", #[1]), ("E", #[1]), ("w", #[1])] :
      Except Error (EventTable (SlottedHistogram Float))) = .ok eventsInRegion := rfl
  exact .ofColumns hcolumns

/-- The directory `E` is made before the leaf `E`, after the event loop. -/
theorem projectInto_eventsInRegion :
    ∃ bookings t f s, bookAll callsOfRegion eventsInRegion = .ok bookings t ∧
      checkPlaces bookings (.empty : HistogramTree Float) = .ok () ∧
      EventTable.projectInto bookings (t, .empty) = .error (.config f) s ∧
      t.runs = 0 ∧ s.1.runs = 1 := by
  have hfault : (Step.configFault? (bookAll callsOfRegion >>= EventTable.project)
      eventsInRegion).isSome = true := by decide +kernel
  have hbooked : (Step.answer (bookAll callsOfRegion) eventsInRegion).isOk = true := by
    decide +kernel
  have hbefore : (Step.stateAfter (bookAll callsOfRegion) eventsInRegion).runs = 0 := by
    decide +kernel
  have hafter : (Step.stateAfter (bookAll callsOfRegion >>= EventTable.project)
      eventsInRegion).runs = 1 := by decide +kernel
  obtain ⟨f, hf⟩ := Option.isSome_iff_exists.1 hfault
  have hchain := Step.eq_error_of_configFault? hf
  cases hanswer : Step.answer (bookAll callsOfRegion) eventsInRegion with
  | error e =>
    rw [hanswer] at hbooked
    cases hbooked
  | ok bookings =>
    have hbook := Step.eq_ok_of_answer hanswer
    rw [Step.bind_of_eq_ok hbook] at hchain
    obtain ⟨tree, hproject⟩ := project_eq_error_iff.1 hchain
    refine ⟨bookings, _, f, _, hbook, ?_, hproject, hbefore, hafter⟩
    -- if the check had failed, the event loop would not have run
    cases hcheck : checkPlaces bookings (.empty : HistogramTree Float) with
    | ok u => rfl
    | error f' =>
      rw [projectInto_of_check_eq_error hcheck] at hproject
      have hsame := congrArg Prod.fst (EStateM.Result.error.inj hproject).2
      dsimp only at hsame
      rw [← hsame, hbefore] at hafter
      cases hafter

/-- A projection may be refused when the event loop has run. -/
theorem projection_refused_after_loop :
    ¬ ∀ (calls : List (Registry × BookingRequest)) (t t' : EventTable (SlottedHistogram Float))
      (bookings : List Booking) (tree : HistogramTree Float) (f : ConfigFault)
      (s : EventTable (SlottedHistogram Float) × HistogramTree Float),
      t.Reachable → bookAll calls t = .ok bookings t' →
        EventTable.projectInto bookings (t', tree) = .error (.config f) s →
        s.1.runs = t'.runs ∧ s.1.pending = t'.pending ∧ s.2 = tree := by
  intro hunchanged
  obtain ⟨bookings, t, f, s, hbook, -, hproject, hbefore, hafter⟩ := projectInto_eventsInRegion
  have hruns := (hunchanged _ _ _ _ _ _ _ eventsInRegion_reachable hbook hproject).1
  rw [hbefore, hafter] at hruns
  cases hruns

theorem projectInto_refused_at_directory :
    ∃ bookings t f s, bookAll callsOfRegion eventsInRegion = .ok bookings t ∧
      EventTable.projectInto bookings (t, .empty) = .error (.config f) s ∧
      EventTable.run t = .ok () s.1 ∧ ∃ before b after key, bookings = before ++ b :: after ∧
        b.Yields s.1 key ∧ Rejects key (Unforeseen .empty s.1 before b key) f := by
  obtain ⟨bookings, t, f, s, hbook, hcheck, hproject, -⟩ := projectInto_eventsInRegion
  have hrefused := (projectInto_refused bookings t .empty).2 hcheck
  exact ⟨bookings, t, f, s, hbook, hproject, hrefused.1 f s hproject⟩

end Region

end EventTable

end VariHist
