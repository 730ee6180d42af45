import Mathlib
import VariHist.Step

/-!
# Steps taken apart

* `bind_except_eq_ok_iff`, `Step.bind_eq_ok_iff` — a chain of two goes through where both do.
* `bind_except_eq_error_iff`, `Step.bind_eq_error_iff` — it fails where one of them does.
* `forM_except_eq_ok_iff`, `Step.forM_append_eq_ok_iff` — a traversal goes through where all do.
* `exists_of_forM_except_eq_error`, `exists_of_mapM_eq_error`, `Step.exists_of_forM_eq_error` — a
  traversal fails at one element, when those before it went through.
* `Step.Keeps` — a step leaves a part of the state as it is, even if it fails half way.
* `Step.FailsUnchanged` — a step that fails leaves the state as it was.
* `Avoids`, `Step.Avoids` — a computation or a step never fails with an error of a kind.
-/

namespace VariHist

variable {ε σ τ β γ : Type}

/-! ## Computations that may fail -/

theorem bind_except_eq_ok_iff {x : Except ε β} {f : β → Except ε γ} {c : γ} :
    x >>= f = .ok c ↔ ∃ b, x = .ok b ∧ f b = .ok c := by
  change Except.bind x f = .ok c ↔ _
  cases x with
  | error e => simp [Except.bind]
  | ok b => simp [Except.bind]

theorem bind_except_eq_error_iff {x : Except ε β} {f : β → Except ε γ} {e : ε} :
    x >>= f = .error e ↔ x = .error e ∨ ∃ b, x = .ok b ∧ f b = .error e := by
  change Except.bind x f = .error e ↔ _
  cases x with
  | error e => simp [Except.bind]
  | ok b => simp [Except.bind]

theorem forM_except_eq_ok_iff {f : β → Except ε Unit} {l : List β} :
    l.forM f = .ok () ↔ ∀ a ∈ l, f a = .ok () := by
  induction l with
  | nil => simp [pure, Except.pure]
  | cons a l ih =>
    rw [List.forall_mem_cons, ← ih]
    refine bind_except_eq_ok_iff.trans ?_
    constructor
    · rintro ⟨⟨⟩, ha, hl⟩
      exact ⟨ha, hl⟩
    · rintro ⟨ha, hl⟩
      exact ⟨_, ha, hl⟩

/-- A traversal that fails has an element at which it does. -/
theorem exists_of_forM_except_eq_error {f : β → Except ε Unit} {l : List β} {e : ε}
    (h : l.forM f = .error e) : ∃ a ∈ l, f a = .error e := by
  induction l with
  | nil => cases h
  | cons a l ih =>
    rcases bind_except_eq_error_iff.1 h with ha | ⟨⟨⟩, -, hl⟩
    · exact ⟨a, List.mem_cons_self, ha⟩
    · obtain ⟨a', ha', he⟩ := ih hl
      exact ⟨a', List.mem_cons_of_mem _ ha', he⟩

/-- A list that cannot be worked out has an element that cannot. -/
theorem exists_of_mapM_eq_error {f : β → Except ε γ} {l : List β} {e : ε}
    (h : l.mapM f = .error e) : ∃ a ∈ l, f a = .error e := by
  induction l with
  | nil => cases h
  | cons a l ih =>
    rw [List.mapM_cons, bind_except_eq_error_iff] at h
    rcases h with ha | ⟨b, -, h⟩
    · exact ⟨a, List.mem_cons_self, ha⟩
    · rcases bind_except_eq_error_iff.1 h with hl | ⟨bs, -, h⟩
      · obtain ⟨a', ha', he⟩ := ih hl
        exact ⟨a', List.mem_cons_of_mem _ ha', he⟩
      · cases h

/-! ## Errors that do not occur -/

/-- A computation never fails with an error of a kind. -/
def Avoids (kind : ε → Prop) (x : Except ε β) : Prop :=
  ∀ e, x = .error e → ¬ kind e

namespace Avoids

variable {kind : ε → Prop}

theorem ok (b : β) : Avoids kind (.ok b) := by
  rintro e ⟨⟩

theorem error {e : ε} (he : ¬ kind e) : Avoids kind (.error e : Except ε β) := by
  rintro _ ⟨⟩
  exact he

theorem ite {c : Prop} [Decidable c] {x y : Except ε β} (hx : Avoids kind x)
    (hy : Avoids kind y) : Avoids kind (if c then x else y) := by
  split
  · exact hx
  · exact hy

/-- A check before the rest may fail with other errors. -/
theorem guard {c : Prop} [Decidable c] {e : ε} {rest : Unit → Except ε β} (he : ¬ kind e)
    (h : Avoids kind (rest ())) : Avoids kind (if c then throw e >>= rest else rest ()) :=
  .ite (error he) h

theorem mapError {δ : Type} {f : δ → ε} {x : Except δ β} (hx : Avoids (fun d => kind (f d)) x) :
    Avoids kind (x.mapError f) := by
  intro e h
  cases x with
  | ok b => cases h
  | error d =>
    cases h
    exact hx d rfl

theorem bind {x : Except ε β} {f : β → Except ε γ} (hx : Avoids kind x)
    (hf : ∀ b, Avoids kind (f b)) : Avoids kind (x >>= f) := by
  intro e h
  rcases bind_except_eq_error_iff.1 h with hfirst | ⟨b, -, hlater⟩
  · exact hx e hfirst
  · exact hf b e hlater

theorem forM {f : β → Except ε Unit} (hf : ∀ b, Avoids kind (f b)) (l : List β) :
    Avoids kind (l.forM f) := by
  intro e h
  obtain ⟨b, -, hb⟩ := exists_of_forM_except_eq_error h
  exact hf b e hb

theorem mapM {f : β → Except ε γ} (hf : ∀ b, Avoids kind (f b)) (l : List β) :
    Avoids kind (l.mapM f) := by
  intro e h
  obtain ⟨b, -, hb⟩ := exists_of_mapM_eq_error h
  exact hf b e hb

theorem foldlM {f : γ → β → Except ε γ} (hf : ∀ c b, Avoids kind (f c b)) (l : List β) (c : γ) :
    Avoids kind (l.foldlM f c) := by
  induction l generalizing c with
  | nil => exact ok c
  | cons b l ih =>
    rw [List.foldlM_cons]
    exact bind (hf c b) ih

end Avoids

namespace Step

variable {s s' : σ} {e : Error}

/-! ## Single steps -/

theorem ask_eq_ok {f : σ → Except Error β} {b : β} (h : f s = .ok b) : ask f s = .ok b s := by
  rw [ask, h]

theorem ask_eq_ok_iff {f : σ → Except Error β} {b : β} :
    ask f s = .ok b s' ↔ f s = .ok b ∧ s' = s := by
  unfold ask
  cases f s with
  | error e => simp
  | ok b' => simp [eq_comm]

theorem ask_eq_error_iff {f : σ → Except Error β} :
    (ask f s : EStateM.Result Error σ β) = .error e s' ↔ f s = .error e ∧ s' = s := by
  unfold ask
  cases f s with
  | error e' => simp [eq_comm]
  | ok b => simp

theorem attempt_eq_ok_iff {f : σ → Except Error σ} : attempt f s = .ok () s' ↔ f s = .ok s' := by
  unfold attempt
  cases f s with
  | error e => simp
  | ok s₁ => simp

theorem attempt_eq_error_iff {f : σ → Except Error σ} :
    attempt f s = .error e s' ↔ f s = .error e ∧ s' = s := by
  unfold attempt
  cases f s with
  | error e' => simp [eq_comm]
  | ok s₁ => simp

section Within

variable {get : σ → τ} {set : τ → σ → σ} {step : Step τ β}

theorem within_eq_ok_iff {b : β} :
    within get set step s = .ok b s' ↔ ∃ u, step (get s) = .ok b u ∧ s' = set u s := by
  unfold within
  cases step (get s) with
  | error e u => simp
  | ok b' u => simp [and_comm, eq_comm]

theorem within_eq_error_iff :
    within get set step s = .error e s' ↔ ∃ u, step (get s) = .error e u ∧ s' = set u s := by
  unfold within
  cases step (get s) with
  | error e' u => simp [and_comm, eq_comm]
  | ok b u => simp

end Within

/-! ## Outcomes that are worked out -/

section Outcome

variable {step : Step σ β}

theorem stateAfter_of_eq_ok {b : β} (h : step s = .ok b s') : stateAfter step s = s' := by
  unfold stateAfter
  rw [h]

theorem stateAfter_of_eq_error (h : step s = .error e s') : stateAfter step s = s' := by
  unfold stateAfter
  rw [h]

theorem eq_ok_of_answer {b : β} (h : answer step s = .ok b) :
    step s = .ok b (stateAfter step s) := by
  unfold answer at h
  unfold stateAfter
  cases hstep : step s with
  | ok b' s' =>
    rw [hstep] at h
    cases h
    rfl
  | error e s' =>
    rw [hstep] at h
    cases h

theorem eq_error_of_answer (h : answer step s = .error e) :
    step s = .error e (stateAfter step s) := by
  unfold answer at h
  unfold stateAfter
  cases hstep : step s with
  | ok b s' =>
    rw [hstep] at h
    cases h
  | error e' s' =>
    rw [hstep] at h
    cases h
    rfl

/-- A check of the answer that goes through shows that there is an answer. -/
theorem exists_of_answer_any {check : β → Bool} (h : (answer step s).toOption.any check = true) :
    ∃ b, step s = .ok b (stateAfter step s) ∧ check b = true := by
  cases hanswer : answer step s with
  | error e =>
    rw [hanswer] at h
    cases h
  | ok b =>
    rw [hanswer] at h
    exact ⟨b, eq_ok_of_answer hanswer, h⟩

/-- The fault of the request with which a step fails, if it fails with one. -/
def configFault? (step : Step σ β) (s : σ) : Option ConfigFault :=
  match answer step s with
  | .error (.config f) => some f
  | _ => none

theorem eq_error_of_configFault? {f : ConfigFault} (h : configFault? step s = some f) :
    step s = .error (.config f) (stateAfter step s) := by
  unfold configFault? at h
  split at h
  · rename_i f' hanswer
    cases h
    exact eq_error_of_answer hanswer
  · cases h

end Outcome

/-! ## Chains and traversals -/

section Bind

variable {x : Step σ β} {f : β → Step σ γ}

theorem bind_of_eq_ok {b : β} {s₁ : σ} (h : x s = .ok b s₁) : (x >>= f) s = f b s₁ := by
  change EStateM.bind x f s = _
  rw [EStateM.bind, h]

theorem bind_eq_ok_iff {c : γ} :
    (x >>= f) s = .ok c s' ↔ ∃ b s₁, x s = .ok b s₁ ∧ f b s₁ = .ok c s' := by
  change EStateM.bind x f s = _ ↔ _
  rw [EStateM.bind]
  cases x s with
  | error e s₁ => simp
  | ok b s₁ => simp [and_assoc]

theorem bind_eq_error_iff :
    (x >>= f) s = .error e s' ↔
      x s = .error e s' ∨ ∃ b s₁, x s = .ok b s₁ ∧ f b s₁ = .error e s' := by
  change EStateM.bind x f s = _ ↔ _
  rw [EStateM.bind]
  cases x s with
  | error e s₁ => simp
  | ok b s₁ => simp [and_assoc]

end Bind

variable {f : β → Step σ Unit}

theorem forM_append_eq_ok_iff {l l' : List β} :
    (l ++ l').forM f s = .ok () s' ↔ ∃ s₁, l.forM f s = .ok () s₁ ∧ l'.forM f s₁ = .ok () s' := by
  rw [List.forM_eq_forM, List.forM_append, bind_eq_ok_iff]
  constructor
  · rintro ⟨⟨⟩, s₁, h⟩
    exact ⟨s₁, h⟩
  · rintro ⟨s₁, h⟩
    exact ⟨(), s₁, h⟩

/-- A traversal fails at one element, when those before it went through. -/
theorem exists_of_forM_eq_error {l : List β} (h : l.forM f s = .error e s') :
    ∃ done a rest s₁, l = done ++ a :: rest ∧ done.forM f s = .ok () s₁ ∧ f a s₁ = .error e s' := by
  induction l generalizing s with
  | nil => cases h
  | cons a l ih =>
    rcases bind_eq_error_iff.1 h with hfirst | ⟨⟨⟩, s₁, hfirst, hlater⟩
    · exact ⟨[], a, l, s, rfl, rfl, hfirst⟩
    · obtain ⟨done, a', rest, s₂, rfl, hdone, hfault⟩ := ih hlater
      exact ⟨a :: done, a', rest, s₂, rfl, bind_eq_ok_iff.2 ⟨(), s₁, hfirst, hdone⟩, hfault⟩

/-! ## What a step leaves as it is -/

/-- A step keeps a part of the state, whether it succeeds or not. -/
def Keeps {δ : Type} (part : σ → δ) (step : Step σ β) : Prop :=
  ∀ s, part (stateAfter step s) = part s

namespace Keeps

variable {δ : Type} {part : σ → δ}

theorem pure (b : β) : Keeps part (Pure.pure b : Step σ β) :=
  fun _ => rfl

theorem throw (e : Error) : Keeps part (MonadExcept.throw e : Step σ β) :=
  fun _ => rfl

theorem get : Keeps part (MonadState.get : Step σ σ) :=
  fun _ => rfl

theorem ask (f : σ → Except Error β) : Keeps part (Step.ask f) := by
  intro s
  unfold stateAfter Step.ask
  cases f s with
  | error e => rfl
  | ok b => rfl

theorem attempt {f : σ → Except Error σ} (hf : ∀ s s', f s = .ok s' → part s' = part s) :
    Keeps part (Step.attempt f) := by
  intro s
  unfold stateAfter Step.attempt
  cases h : f s with
  | error e => rfl
  | ok s' => exact hf s s' h

theorem within {get : σ → τ} {set : τ → σ → σ} {step : Step τ β} {part' : τ → δ}
    (hset : ∀ u s, part (set u s) = part' u) (hget : ∀ s, part' (get s) = part s)
    (hstep : Keeps part' step) : Keeps part (Step.within get set step) := by
  intro s
  have hinner := hstep (get s)
  unfold stateAfter at hinner ⊢
  unfold Step.within
  cases h : step (get s) with
  | error e u =>
    rw [h] at hinner
    exact (hset u s).trans (hinner.trans (hget s))
  | ok b u =>
    rw [h] at hinner
    exact (hset u s).trans (hinner.trans (hget s))

theorem bind {x : Step σ β} {f : β → Step σ γ} (hx : Keeps part x) (hf : ∀ b, Keeps part (f b)) :
    Keeps part (x >>= f) := by
  intro s
  have hfirst := hx s
  cases h : x s with
  | error e s₁ =>
    rw [stateAfter_of_eq_error h] at hfirst
    rw [stateAfter_of_eq_error (bind_eq_error_iff.2 (.inl h)), hfirst]
  | ok b s₁ =>
    rw [stateAfter_of_eq_ok h] at hfirst
    have hrest := hf b s₁
    unfold stateAfter at hrest ⊢
    rw [bind_of_eq_ok h]
    exact hrest.trans hfirst

theorem forM {f : β → Step σ Unit} (hf : ∀ b, Keeps part (f b)) (l : List β) :
    Keeps part (l.forM f) := by
  induction l with
  | nil => exact pure ()
  | cons b l ih => exact bind (hf b) fun _ => ih

theorem mapM {f : β → Step σ γ} (hf : ∀ b, Keeps part (f b)) (l : List β) :
    Keeps part (l.mapM f) := by
  induction l with
  | nil => exact pure []
  | cons b l ih =>
    rw [List.mapM_cons]
    exact bind (hf b) fun c => bind ih fun cs => pure (c :: cs)

end Keeps

/-! ## Failures that change nothing -/

/-- A step that fails leaves the state as it was. -/
def FailsUnchanged (step : Step σ β) : Prop :=
  ∀ s e s', step s = .error e s' → s' = s

namespace FailsUnchanged

theorem of_keeps {step : Step σ β} (h : Keeps id step) : FailsUnchanged step := by
  intro s e s' hfault
  have hs := h s
  rwa [stateAfter_of_eq_error hfault] at hs

theorem change (f : σ → σ) : FailsUnchanged (modify f : Step σ Unit) := by
  intro s e s' h
  cases h

theorem ite {c : Prop} [Decidable c] {x y : Step σ β} (hx : FailsUnchanged x)
    (hy : FailsUnchanged y) : FailsUnchanged (if c then x else y) := by
  split
  · exact hx
  · exact hy

/-- A step may fail as long as nothing was changed before. -/
theorem bind {x : Step σ β} {f : β → Step σ γ} (hx : Keeps id x) (hf : ∀ b, FailsUnchanged (f b)) :
    FailsUnchanged (x >>= f) := by
  intro s e s' h
  rcases bind_eq_error_iff.1 h with hfirst | ⟨b, s₁, hfirst, hlater⟩
  · exact of_keeps hx s e s' hfirst
  · have hs := hx s
    rw [stateAfter_of_eq_ok hfirst] at hs
    obtain rfl : s₁ = s := hs
    exact hf b s₁ e s' hlater

end FailsUnchanged

/-! ## Errors that a step never fails with -/

/-- A step never fails with an error of a kind. -/
def Avoids (kind : Error → Prop) (step : Step σ β) : Prop :=
  ∀ s e s', step s = .error e s' → ¬ kind e

namespace Avoids

variable {kind : Error → Prop}

theorem pure (b : β) : Avoids kind (Pure.pure b : Step σ β) := by
  intro s e s' h
  cases h

theorem get : Avoids kind (MonadState.get : Step σ σ) := by
  intro s e s' h
  cases h

theorem change (f : σ → σ) : Avoids kind (modify f : Step σ Unit) := by
  intro s e s' h
  cases h

theorem throw {e : Error} (he : ¬ kind e) : Avoids kind (MonadExcept.throw e : Step σ β) := by
  intro s e' s' h
  cases h
  exact he

theorem ask {f : σ → Except Error β} (hf : ∀ s, VariHist.Avoids kind (f s)) :
    Avoids kind (Step.ask f) :=
  fun s e _ h => hf s e (ask_eq_error_iff.1 h).1

theorem attempt {f : σ → Except Error σ} (hf : ∀ s, VariHist.Avoids kind (f s)) :
    Avoids kind (Step.attempt f) :=
  fun s e _ h => hf s e (attempt_eq_error_iff.1 h).1

theorem within {get : σ → τ} {set : τ → σ → σ} {step : Step τ β} (h : Avoids kind step) :
    Avoids kind (Step.within get set step) := by
  intro s e s' hfault
  obtain ⟨u, hinner, -⟩ := within_eq_error_iff.1 hfault
  exact h (get s) e u hinner

theorem bind {x : Step σ β} {f : β → Step σ γ} (hx : Avoids kind x)
    (hf : ∀ b, Avoids kind (f b)) : Avoids kind (x >>= f) := by
  intro s e s' h
  rcases bind_eq_error_iff.1 h with hfirst | ⟨b, s₁, -, hlater⟩
  · exact hx s e s' hfirst
  · exact hf b s₁ e s' hlater

theorem forM {f : β → Step σ Unit} {l : List β} (hf : ∀ b ∈ l, Avoids kind (f b)) :
    Avoids kind (l.forM f) := by
  intro s e s' h
  obtain ⟨done, b, rest, s₁, rfl, -, hb⟩ := exists_of_forM_eq_error h
  exact hf b (by simp) s₁ e s' hb

theorem mapM {f : β → Step σ γ} (hf : ∀ b, Avoids kind (f b)) (l : List β) :
    Avoids kind (l.mapM f) := by
  induction l with
  | nil => exact pure []
  | cons b l ih =>
    rw [List.mapM_cons]
    exact bind (hf b) fun c => bind ih fun cs => pure (c :: cs)

end Avoids

end Step

end VariHist
