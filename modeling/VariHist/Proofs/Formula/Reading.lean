import VariHist.Proofs.Formula.Grammar
import VariHist.Proofs.Systematics.Definitions

/-!
# The reader accepts what the grammar derives

The reader takes the longest formula from the front of a list of tokens.  Whatever it returns is
the tree of a derivation (soundness, by induction on the calls of the reader), and it returns the
tree of every derivation that stops where no operator goes on (completeness, by induction on the
derivation).  A whole formula stops at the end of the tokens.

* `reads_level_iff`, `readsChain_sign_iff`, `reads_unsigned_iff`, `reads_call_iff`,
  `readsArguments_iff` and others beside them — what each function of the reader returns, in terms
  of those that it calls.
* `Reads.exists_derivation` — soundness.
* `Derivation.reads` — completeness.
* `readTokens_eq_ok_iff_derivation` — both, for whole formulas.
-/

namespace VariHist.Formula

/-! ## What each function of the reader returns -/

/-- The reader of a nonterminal. -/
def read : (s : Nonterminal) → (ts : List Token) → Reading (Term String) ts
  | .level l, ts => readLevel l ts
  | .signed, ts => readSigned ts
  | .atom, ts => readAtom ts

/-- The reader of a nonterminal takes a term from the front of `ts` and leaves `us`. -/
def Reads (s : Nonterminal) (ts : List Token) (t : Term String) (us : List Token) : Prop :=
  ∃ rest, read s ts = .ok (t, rest) ∧ rest.1 = us

/-- After the operand `left`, the reader of a level goes on to the term `t` and leaves `us`. -/
def ReadsChain (l : Level) (left : Term String) (ts : List Token) (t : Term String)
    (us : List Token) : Prop :=
  ∃ rest, readChain l left ts = .ok (t, rest) ∧ rest.1 = us

/-- The reader of arguments takes terms from the front of `ts` and leaves `us`. -/
def ReadsArguments (ts : List Token) (terms : List (Term String)) (us : List Token) : Prop :=
  ∃ rest, readArguments ts = .ok (terms, rest) ∧ rest.1 = us

theorem Reads.length_lt {s : Nonterminal} {ts us : List Token} {t : Term String}
    (h : Reads s ts t us) : us.length < ts.length := by
  obtain ⟨rest, -, rfl⟩ := h
  exact rest.2

/-- The reader knows the signs of the grammar. -/
theorem Level.operator?_eq_some_iff {l : Level} {token : Token} {op : Operator} :
    l.operator? token = some op ↔ l.Sign token op := by
  constructor
  · intro h
    cases l <;> cases token with
    | operator op' => cases op' <;> cases h <;> constructor
    | minus => cases h <;> constructor
    | _ => cases h
  · rintro (_ | _) <;> rfl

theorem Level.chains_iff {l : Level} : l.chains = true ↔ l ≠ .comparison := by
  cases l <;> simp [Level.chains]

theorem readOperand_eq (l : Level) (ts : List Token) : readOperand l ts = read l.operand ts := by
  rw [readOperand]
  cases l <;> rfl

theorem reads_level_iff {l : Level} {ts vs : List Token} {t : Term String} :
    Reads (.level l) ts t vs ↔
      ∃ left us, Reads l.operand ts left us ∧ ReadsChain l left us t vs := by
  unfold Reads ReadsChain
  simp only [read]
  rw [readLevel, readOperand_eq]
  simp only [bind_except_eq_ok_iff]
  constructor
  · rintro ⟨-, ⟨⟨left, us⟩, hleft, ⟨t', vs'⟩, hmore, ⟨⟩⟩, rfl⟩
    exact ⟨left, _, ⟨us, hleft, rfl⟩, vs', hmore, rfl⟩
  · rintro ⟨left, _, ⟨us, hleft, rfl⟩, vs', hmore, rfl⟩
    exact ⟨_, ⟨_, hleft, _, hmore, rfl⟩, rfl⟩

/-- A chain ends where no sign of its level comes next. -/
theorem readsChain_end_iff {l : Level} {left t : Term String} {ts us : List Token}
    (h : ∀ token ∈ ts.head?, ∀ op, ¬ l.Sign token op) :
    ReadsChain l left ts t us ↔ t = left ∧ us = ts := by
  unfold ReadsChain
  cases ts with
  | nil =>
    rw [readChain]
    constructor
    · rintro ⟨_, ⟨⟩, rfl⟩
      exact ⟨rfl, rfl⟩
    · rintro ⟨rfl, rfl⟩
      exact ⟨_, rfl, rfl⟩
  | cons token ts =>
    have none_sign : l.operator? token = none := by
      rw [Option.eq_none_iff_forall_ne_some]
      intro op hop
      exact h token rfl op (Level.operator?_eq_some_iff.mp hop)
    rw [readChain]
    split
    · constructor
      · rintro ⟨_, ⟨⟩, rfl⟩
        exact ⟨rfl, rfl⟩
      · rintro ⟨rfl, rfl⟩
        exact ⟨_, rfl, rfl⟩
    · rename_i op hop
      rw [none_sign] at hop
      cases hop

theorem readsChain_sign_iff {l : Level} {left t : Term String} {token : Token} {op : Operator}
    {ts vs : List Token} (sign : l.Sign token op) :
    ReadsChain l left (token :: ts) t vs ↔
      ∃ right us, Reads l.operand ts right us ∧
        if l.chains then ReadsChain l (.binary op left right) us t vs
        else t = .binary op left right ∧ vs = us := by
  unfold ReadsChain Reads
  rw [← Level.operator?_eq_some_iff] at sign
  rw [readChain]
  split
  · rename_i hop
    rw [sign] at hop
    cases hop
  · rename_i op' hop
    rw [sign] at hop
    cases hop
    simp only [readOperand_eq, bind_except_eq_ok_iff]
    cases l.chains with
    | true =>
      simp only [if_true, bind_except_eq_ok_iff]
      constructor
      · rintro ⟨_, ⟨⟨right, us⟩, hright, ⟨t', vs⟩, hmore, ⟨⟩⟩, rfl⟩
        exact ⟨right, _, ⟨us, hright, rfl⟩, vs, hmore, rfl⟩
      · rintro ⟨right, _, ⟨us, hright, rfl⟩, vs, hmore, rfl⟩
        exact ⟨_, ⟨_, hright, _, hmore, rfl⟩, rfl⟩
    | false =>
      simp only [Bool.false_eq_true, if_false]
      constructor
      · rintro ⟨_, ⟨⟨right, us⟩, hright, ⟨⟩⟩, rfl⟩
        exact ⟨right, _, ⟨us, hright, rfl⟩, rfl, rfl⟩
      · rintro ⟨right, _, ⟨us, hright, rfl⟩, rfl, rfl⟩
        exact ⟨_, ⟨_, hright, rfl⟩, rfl⟩

/-! ### Signs before a term -/

theorem reads_minus_iff {ts us : List Token} {t : Term String} :
    Reads .signed (.minus :: ts) t us ↔ ∃ u, Reads .signed ts u us ∧ t = .neg u := by
  unfold Reads
  simp only [read]
  rw [readSigned]
  simp only [bind_except_eq_ok_iff]
  constructor
  · rintro ⟨-, ⟨⟨u, us⟩, hu, ⟨⟩⟩, rfl⟩
    exact ⟨u, ⟨us, hu, rfl⟩, rfl⟩
  · rintro ⟨u, ⟨us, hu, rfl⟩, rfl⟩
    exact ⟨_, ⟨_, hu, rfl⟩, rfl⟩

theorem reads_bang_iff {ts us : List Token} {t : Term String} :
    Reads .signed (.bang :: ts) t us ↔ ∃ u, Reads .signed ts u us ∧ t = .not u := by
  unfold Reads
  simp only [read]
  rw [readSigned]
  simp only [bind_except_eq_ok_iff]
  constructor
  · rintro ⟨-, ⟨⟨u, us⟩, hu, ⟨⟩⟩, rfl⟩
    exact ⟨u, ⟨us, hu, rfl⟩, rfl⟩
  · rintro ⟨u, ⟨us, hu, rfl⟩, rfl⟩
    exact ⟨_, ⟨_, hu, rfl⟩, rfl⟩

/-- A minus, a bang or neither comes next. -/
theorem signed_cases (ts : List Token) :
    (∃ rest, ts = .minus :: rest) ∨ (∃ rest, ts = .bang :: rest) ∨
      (∀ rest, ts ≠ .minus :: rest) ∧ ∀ rest, ts ≠ .bang :: rest := by
  rcases ts with _ | ⟨token, rest⟩
  · simp
  · cases token <;> simp

theorem reads_unsigned_iff {ts us : List Token} {t : Term String}
    (minus : ∀ rest, ts ≠ .minus :: rest) (bang : ∀ rest, ts ≠ .bang :: rest) :
    Reads .signed ts t us ↔ Reads .atom ts t us := by
  unfold Reads
  simp only [read]
  rw [readSigned]
  · exact minus
  · exact bang

/-! ### Atoms -/

theorem closeParen_eq_ok_iff {ts : List Token}
    {rest : { rest : List Token // rest.length < ts.length }} :
    closeParen ts = .ok rest ↔ ts = .rightParen :: rest.1 := by
  unfold closeParen
  split
  · constructor
    · rintro ⟨⟩
      rfl
    · intro h
      simp only [List.cons.injEq, true_and] at h
      simp [h]
  · rename_i other
    constructor
    · rintro ⟨⟩
    · intro h
      exact absurd h (other _)

/-- A function is called with as many arguments as it takes. -/
theorem callTerm_eq_ok_iff {name : String} {f : Function} {terms : List (Term String)}
    {t : Term String} :
    callTerm name f terms = .ok t ↔ ∃ ts, terms = List.ofFn ts ∧ t = f.call ts := by
  constructor
  · intro h
    unfold callTerm at h
    split at h
    · cases h
      exact ⟨fun _ => _, rfl, rfl⟩
    · cases h
      rename_i f t u
      exact ⟨![t, u], rfl, rfl⟩
    · cases h
  · rintro ⟨ts, rfl, rfl⟩
    cases f <;> rfl

/-- An atom starts with a number, a name or an opening parenthesis. -/
theorem Reads.atom_starts {ts us : List Token} {t : Term String} (h : Reads .atom ts t us) :
    (∃ value rest, ts = .number value :: rest) ∨ (∃ name rest, ts = .ident name :: rest) ∨
      ∃ rest, ts = .leftParen :: rest := by
  rcases ts with _ | ⟨token, ts⟩
  · obtain ⟨rest, h, -⟩ := h
    simp [read, readAtom] at h
  · cases token with
    | number value => exact .inl ⟨value, ts, rfl⟩
    | ident name => exact .inr (.inl ⟨name, ts, rfl⟩)
    | leftParen => exact .inr (.inr ⟨ts, rfl⟩)
    | _ =>
      obtain ⟨rest, h, -⟩ := h
      simp [read, readAtom] at h

theorem reads_number_iff {value : Float} {ts us : List Token} {t : Term String} :
    Reads .atom (.number value :: ts) t us ↔ t = .number value ∧ us = ts := by
  unfold Reads
  simp only [read]
  rw [readAtom]
  constructor
  · rintro ⟨_, ⟨⟩, rfl⟩
    exact ⟨rfl, rfl⟩
  · rintro ⟨rfl, rfl⟩
    exact ⟨_, rfl, rfl⟩

theorem reads_column_iff {name : String} {ts us : List Token} {t : Term String}
    (plain : ts.head? ≠ some .leftParen) :
    Reads .atom (.ident name :: ts) t us ↔ t = .column name ∧ us = ts := by
  unfold Reads
  simp only [read]
  rw [readAtom]
  · constructor
    · rintro ⟨_, ⟨⟩, rfl⟩
      exact ⟨rfl, rfl⟩
    · rintro ⟨rfl, rfl⟩
      exact ⟨_, rfl, rfl⟩
  · rintro rest rfl
    exact plain rfl

theorem reads_parenthesis_iff {ts us : List Token} {t : Term String} :
    Reads .atom (.leftParen :: ts) t us ↔ Reads (.level .or) ts t (.rightParen :: us) := by
  unfold Reads
  simp only [read]
  rw [readAtom]
  simp only [bind_except_eq_ok_iff, closeParen_eq_ok_iff]
  constructor
  · rintro ⟨_, ⟨⟨t', us⟩, ht, vs, hvs, ⟨⟩⟩, rfl⟩
    exact ⟨us, ht, hvs⟩
  · rintro ⟨vs, ht, hvs⟩
    exact ⟨_, ⟨_, ht, ⟨us, by simp [hvs]⟩, hvs, rfl⟩, rfl⟩

theorem reads_call_iff {name : String} {ts us : List Token} {t : Term String} :
    Reads .atom (.ident name :: .leftParen :: ts) t us ↔
      ∃ f args, Function.ofName? name = some f ∧
        ReadsArguments ts (List.ofFn args) (.rightParen :: us) ∧ t = Function.call f args := by
  unfold Reads ReadsArguments
  simp only [read]
  rw [readAtom]
  cases hf : Function.ofName? name with
  | none => simp
  | some f =>
    simp only [bind_except_eq_ok_iff, closeParen_eq_ok_iff, callTerm_eq_ok_iff]
    constructor
    · rintro ⟨_, ⟨⟨terms, us⟩, hterms, vs, hvs, t', ⟨args, rfl, rfl⟩, ⟨⟩⟩, rfl⟩
      exact ⟨f, args, rfl, ⟨us, hterms, hvs⟩, rfl⟩
    · rintro ⟨_, args, ⟨⟩, ⟨vs, hterms, hvs⟩, rfl⟩
      exact ⟨_, ⟨_, hterms, ⟨us, by simp [hvs]⟩, hvs, _, ⟨args, rfl, rfl⟩, rfl⟩, rfl⟩

/-! ### Arguments -/

theorem readsArguments_iff {ts vs : List Token} {terms : List (Term String)} :
    ReadsArguments ts terms vs ↔
      ∃ t us, Reads (.level .or) ts t us ∧
        ((us.head? ≠ some .comma ∧ terms = [t] ∧ vs = us) ∨
          ∃ us' terms', us = .comma :: us' ∧ ReadsArguments us' terms' vs ∧
            terms = t :: terms') := by
  unfold Reads
  simp only [read]
  unfold ReadsArguments
  rw [readArguments]
  simp only [bind_except_eq_ok_iff]
  constructor
  · rintro ⟨_, ⟨⟨t, us⟩, ht, h⟩, rfl⟩
    refine ⟨t, _, ⟨us, ht, rfl⟩, ?_⟩
    split at h
    · rename_i us' hus
      rw [bind_except_eq_ok_iff] at h
      obtain ⟨⟨terms', vs⟩, hmore, ⟨⟩⟩ := h
      exact .inr ⟨us', terms', hus, ⟨vs, hmore, rfl⟩, rfl⟩
    · rename_i other
      cases h
      refine .inl ⟨?_, rfl, rfl⟩
      intro comma
      obtain ⟨us', hus⟩ := List.head?_eq_some_iff.mp comma
      exact other us' hus
  · rintro ⟨t, us, ⟨rest, ht, rfl⟩, h⟩
    obtain ⟨us, shorter⟩ := rest
    rcases h with ⟨plain, rfl, rfl⟩ | ⟨us', terms', rfl, ⟨vs, hmore, rfl⟩, rfl⟩
    · refine ⟨⟨vs, shorter⟩, ⟨_, ht, ?_⟩, rfl⟩
      cases vs with
      | nil => rfl
      | cons token vs => cases token <;> first | rfl | exact absurd rfl plain
    · exact ⟨_, ⟨_, ht, bind_except_eq_ok_iff.mpr ⟨_, hmore, rfl⟩⟩, rfl⟩

/-! ## Soundness -/

/-- How deep the reader of a nonterminal may call itself before it takes a token. -/
def Nonterminal.depth : Nonterminal → Nat
  | .level l => l.height + 2
  | .signed => 1
  | .atom => 0

theorem Level.depth_operand (l : Level) : l.operand.depth < (Nonterminal.level l).depth := by
  cases l <;> decide

theorem Nonterminal.depth_le (s : Nonterminal) : s.depth ≤ 7 := by
  rcases s with l | _ | _
  · cases l <;> decide
  · decide
  · decide

mutual

/-- Whatever is read is the tree of a derivation. -/
theorem Reads.exists_derivation {s : Nonterminal} {ts us : List Token} {t : Term String}
    (h : Reads s ts t us) : ∃ d : Derivation s ts us, d.term = t := by
  match s with
  | .level l =>
    obtain ⟨left, rest, hleft, hchain⟩ := reads_level_iff.mp h
    have := hleft.length_lt
    obtain ⟨first, rfl⟩ := hleft.exists_derivation
    by_cases hl : l = .comparison
    · subst hl
      exact hchain.exists_comparison first rfl
    · obtain ⟨more, rfl⟩ := hchain.exists_repetition hl
      exact ⟨.chain hl first more, rfl⟩
  | .signed =>
    rcases signed_cases ts with ⟨rest, hts⟩ | ⟨rest, hts⟩ | ⟨minus, bang⟩
    · have shorter : rest.length < ts.length := by simp [hts]
      obtain ⟨u, hu, rfl⟩ := reads_minus_iff.mp (hts ▸ h)
      obtain ⟨d, rfl⟩ := hu.exists_derivation
      subst hts
      exact ⟨.neg d, rfl⟩
    · have shorter : rest.length < ts.length := by simp [hts]
      obtain ⟨u, hu, rfl⟩ := reads_bang_iff.mp (hts ▸ h)
      obtain ⟨d, rfl⟩ := hu.exists_derivation
      subst hts
      exact ⟨.not d, rfl⟩
    · obtain ⟨d, rfl⟩ := ((reads_unsigned_iff minus bang).mp h).exists_derivation
      exact ⟨.unsigned d, rfl⟩
  | .atom =>
    rcases h.atom_starts with ⟨value, rest, hts⟩ | ⟨name, rest, hts⟩ | ⟨rest, hts⟩
    · obtain ⟨rfl, rfl⟩ := reads_number_iff.mp (hts ▸ h)
      subst hts
      exact ⟨.number value, rfl⟩
    · by_cases plain : rest.head? = some .leftParen
      · obtain ⟨rest', hrest⟩ := List.head?_eq_some_iff.mp plain
        have shorter : rest'.length < ts.length := by simp [hts, hrest]
        obtain ⟨f, args, known, hargs, rfl⟩ := reads_call_iff.mp (hrest ▸ hts ▸ h)
        obtain ⟨a, rfl⟩ := hargs.exists_arguments
        subst hrest hts
        exact ⟨.call f known a, rfl⟩
      · obtain ⟨rfl, rfl⟩ := (reads_column_iff plain).mp (hts ▸ h)
        subst hts
        exact ⟨.column name plain, rfl⟩
    · have shorter : rest.length < ts.length := by simp [hts]
      obtain ⟨d, rfl⟩ := (reads_parenthesis_iff.mp (hts ▸ h)).exists_derivation
      subst hts
      exact ⟨.parenthesis d, rfl⟩
termination_by 9 * ts.length + s.depth
decreasing_by
  · have := l.depth_operand
    omega
  · omega
  · omega
  · omega
  · omega
  · exact Nat.lt_succ_self _
  · omega
  · have := Nonterminal.depth_le (.level .or)
    omega

/-- A sum followed by the chain of a comparison is the tree of a comparison. -/
theorem ReadsChain.exists_comparison {t u : Term String} {ts us vs : List Token}
    (h : ReadsChain .comparison u us t vs) (left : Derivation (.level .sum) ts us)
    (hu : left.term = u) : ∃ d : Derivation (.level .comparison) ts vs, d.term = t := by
  by_cases hend : ∀ token ∈ us.head?, ∀ op, ¬ Level.comparison.Sign token op
  · obtain ⟨rfl, rfl⟩ := (readsChain_end_iff hend).mp h
    exact ⟨.alone left, hu⟩
  · push Not at hend
    obtain ⟨token, htoken, op, sign⟩ := hend
    obtain ⟨us', hus⟩ := List.head?_eq_some_iff.mp htoken
    obtain ⟨right, _, hright, rfl, rfl⟩ := (readsChain_sign_iff sign).mp (hus ▸ h)
    obtain ⟨right, rfl⟩ := hright.exists_derivation
    subst hus hu
    exact ⟨.compared op sign left right, rfl⟩
termination_by 9 * us.length
decreasing_by
  have := Nonterminal.depth_le Level.comparison.operand
  simp only [hus, List.length_cons]; omega

/-- A chain that is read is the tree of a repetition. -/
theorem ReadsChain.exists_repetition {l : Level} {left t : Term String} {ts us : List Token}
    (h : ReadsChain l left ts t us) (hl : l ≠ .comparison) :
    ∃ r : Repetition l ts us, r.join left = t := by
  by_cases hend : ∀ token ∈ ts.head?, ∀ op, ¬ l.Sign token op
  · obtain ⟨rfl, rfl⟩ := (readsChain_end_iff hend).mp h
    exact ⟨.done, rfl⟩
  · push Not at hend
    obtain ⟨token, htoken, op, sign⟩ := hend
    obtain ⟨ts', hts⟩ := List.head?_eq_some_iff.mp htoken
    obtain ⟨right, vs, hright, hmore⟩ := (readsChain_sign_iff sign).mp (hts ▸ h)
    have := hright.length_lt
    rw [if_pos (Level.chains_iff.mpr hl)] at hmore
    obtain ⟨operand, rfl⟩ := hright.exists_derivation
    obtain ⟨more, rfl⟩ := hmore.exists_repetition hl
    subst hts
    exact ⟨.next op sign operand more, rfl⟩
termination_by 9 * ts.length
decreasing_by
  · have := l.operand.depth_le
    simp only [hts, List.length_cons]; omega
  · simp only [hts, List.length_cons]; omega

/-- Arguments that are read are the trees of a list of arguments. -/
theorem ReadsArguments.exists_arguments {ts us : List Token} {n : Nat}
    {args : Fin n → Term String} (h : ReadsArguments ts (List.ofFn args) us) :
    ∃ a : Arguments n ts us, a.terms = args := by
  obtain ⟨t, vs, ht, h⟩ := readsArguments_iff.mp h
  have := ht.length_lt
  obtain ⟨-, hterms, rfl⟩ | ⟨vs', terms', hvs, hmore, hterms⟩ := h
  · obtain ⟨d, rfl⟩ := ht.exists_derivation
    obtain rfl : n = 1 := by simpa using congrArg List.length hterms
    have first : args 0 = d.term := by simpa using hterms
    exact ⟨.last d, by funext i; rw [Fin.eq_zero i, first]; rfl⟩
  · obtain ⟨d, rfl⟩ := ht.exists_derivation
    cases n with
    | zero => cases hterms
    | succ n =>
      rw [List.ofFn_succ, List.cons.injEq] at hterms
      obtain ⟨hfirst, rfl⟩ := hterms
      obtain ⟨more, hmore⟩ := hmore.exists_arguments
      cases n with
      | zero => nomatch more
      | succ n =>
        subst hvs
        refine ⟨.next d more, ?_⟩
        rw [Arguments.terms, hmore, ← hfirst]
        exact Fin.cons_self_tail args
termination_by 9 * ts.length + 8
decreasing_by
  · have := Nonterminal.depth_le (.level .or)
    omega
  · have := Nonterminal.depth_le (.level .or)
    omega
  · simp only [hvs, List.length_cons] at this; omega

end

/-! ## Completeness -/

theorem Level.Stops.no_sign {l : Level} {ts : List Token} (h : l.Stops ts) :
    ∀ token ∈ ts.head?, ∀ op, ¬ l.Sign token op :=
  fun token ht op => h token ht l op (Nat.le_refl _)

mutual

/-- The tree of a derivation is read, if the derivation stops where no operator goes on. -/
theorem Derivation.reads : ∀ {s : Nonterminal} {ts us : List Token} (d : Derivation s ts us),
    s.Stops us → Reads s ts d.term us
  | _, _, _, .chain chains first more, h =>
    reads_level_iff.mpr
      ⟨_, _, first.reads (more.stops_operand h), more.reads chains h first.term⟩
  | _, _, _, .alone sum, h => by
    have left := sum.reads (Level.Stops.operand h)
    exact reads_level_iff.mpr ⟨_, _, left, (readsChain_end_iff h.no_sign).mpr ⟨rfl, rfl⟩⟩
  | _, _, _, .compared op sign left right, h => by
    have hleft := left.reads (sign.stops_operand _)
    have hright := right.reads (Level.Stops.operand h)
    exact reads_level_iff.mpr
      ⟨_, _, hleft, (readsChain_sign_iff sign).mpr ⟨_, _, hright, rfl, rfl⟩⟩
  | _, _, _, .neg signed, _ => reads_minus_iff.mpr ⟨_, signed.reads trivial, rfl⟩
  | _, _, _, .not signed, _ => reads_bang_iff.mpr ⟨_, signed.reads trivial, rfl⟩
  | _, _, _, .unsigned atom, _ => by
    refine (reads_unsigned_iff ?_ ?_).mpr (atom.reads trivial)
    · rintro rest rfl
      nomatch atom
    · rintro rest rfl
      nomatch atom
  | _, _, _, .number value, _ => reads_number_iff.mpr ⟨rfl, rfl⟩
  | _, _, _, .column name plain, _ => (reads_column_iff plain).mpr ⟨rfl, rfl⟩
  | _, _, _, .parenthesis inner, _ =>
    reads_parenthesis_iff.mpr (inner.reads (Level.stops_rightParen _ _))
  | _, _, _, .call f known arguments, _ => by
    have hargs := arguments.reads (by simp) (Level.stops_rightParen _ _)
    exact reads_call_iff.mpr ⟨f, _, known, hargs, rfl⟩

/-- The tree of a repetition is read after any left operand. -/
theorem Repetition.reads : ∀ {l : Level} {ts us : List Token} (r : Repetition l ts us),
    l ≠ .comparison → l.Stops us → ∀ left, ReadsChain l left ts (r.join left) us
  | _, _, _, .done, _, h, _ => (readsChain_end_iff h.no_sign).mpr ⟨rfl, rfl⟩
  | _, _, _, .next op sign operand more, hl, h, left => by
    have hright := operand.reads (more.stops_operand h)
    refine (readsChain_sign_iff sign).mpr ⟨_, _, hright, ?_⟩
    rw [if_pos (Level.chains_iff.mpr hl)]
    exact more.reads hl h _

/-- The trees of arguments are read, if no other argument follows. -/
theorem Arguments.reads : ∀ {n : Nat} {ts us : List Token} (a : Arguments n ts us),
    us.head? ≠ some .comma → Level.or.Stops us → ReadsArguments ts (List.ofFn a.terms) us
  | _, _, _, .last argument, hlast, h =>
    readsArguments_iff.mpr ⟨_, _, argument.reads h, .inl ⟨hlast, rfl, rfl⟩⟩
  | _, _, _, .next argument more, hlast, h => by
    have hfirst := argument.reads (Level.stops_comma _ _)
    refine readsArguments_iff.mpr ⟨_, _, hfirst, .inr ⟨_, _, rfl, more.reads hlast h, ?_⟩⟩
    rw [List.ofFn_succ, Arguments.terms]
    rfl

end

/-! ## Whole formulas -/

/-- Tokens are read as a formula if the reader leaves none of them. -/
theorem readTokens_eq_ok_iff {source : String} {tokens : List Token} {t : Term String} :
    readTokens source tokens = .ok t ↔ Reads (.level .or) tokens t [] := by
  unfold readTokens Reads
  rw [bind_except_eq_ok_iff]
  constructor
  · rintro ⟨⟨u, rest⟩, hu, h⟩
    cases hrest : rest.1 with
    | nil =>
      simp only [hrest] at h
      cases h
      exact ⟨rest, hu, hrest⟩
    | cons token more =>
      simp only [hrest] at h
      cases h
  · rintro ⟨rest, ht, hrest⟩
    refine ⟨_, ht, ?_⟩
    simp only [hrest]
    rfl

/-- What is read as a formula is the tree of a derivation. -/
theorem readTokens_eq_ok_iff_derivation {source : String} {tokens : List Token}
    {t : Term String} :
    readTokens source tokens = .ok t ↔
      ∃ d : Derivation (.level .or) tokens [], d.term = t := by
  rw [readTokens_eq_ok_iff]
  constructor
  · exact Reads.exists_derivation
  · rintro ⟨d, rfl⟩
    exact d.reads (Level.stops_nil _)

/-- Tokens are refused as a formula if they have no derivation. -/
theorem readTokens_eq_error_iff {source : String} {tokens : List Token} :
    (∃ fault, readTokens source tokens = .error fault) ↔
      IsEmpty (Derivation (.level .or) tokens []) := by
  constructor
  · rintro ⟨fault, h⟩
    refine ⟨fun d => ?_⟩
    rw [readTokens_eq_ok_iff_derivation.mpr ⟨d, rfl⟩] at h
    cases h
  · intro none_derived
    cases h : readTokens source tokens with
    | error fault => exact ⟨fault, rfl⟩
    | ok t =>
      obtain ⟨d, -⟩ := readTokens_eq_ok_iff_derivation.mp h
      exact none_derived.elim d

/-- The reader accepts exactly the lists of tokens that the grammar derives, each of them in one
way, and returns the tree of the derivation; it ends with a fault on every other list.  A text is
compiled to the tree of its tokens, over the columns in the order of first mention. -/
theorem reader_accepts_grammar :
    (∀ tokens : List Token, Subsingleton (Derivation (.level .or) tokens [])) ∧
    (∀ source tokens t, readTokens source tokens = .ok t ↔
      ∃ d : Derivation (.level .or) tokens [], d.term = t) ∧
    (∀ source tokens, (∃ fault, readTokens source tokens = .error fault) ↔
      IsEmpty (Derivation (.level .or) tokens [])) ∧
    ∀ source f, compile source = .ok f ↔
      ∃ tokens, tokenize source = .ok tokens ∧
        ∃ d : Derivation (.level .or) tokens [], ofTerm d.term = f := by
  refine ⟨inferInstance, fun _ _ _ => readTokens_eq_ok_iff_derivation,
    fun _ _ => readTokens_eq_error_iff, ?_⟩
  intro source f
  have compiled : compile source = .ok f ↔ ∃ t, parse source = .ok t ∧ ofTerm t = f := by
    unfold compile
    cases parse source <;> simp [Except.map]
  rw [compiled]
  simp only [parse, bind_except_eq_ok_iff, readTokens_eq_ok_iff_derivation]
  constructor
  · rintro ⟨t, ⟨tokens, htokens, d, rfl⟩, rfl⟩
    exact ⟨tokens, htokens, d, rfl⟩
  · rintro ⟨tokens, htokens, d, rfl⟩
    exact ⟨d.term, ⟨tokens, htokens, d, rfl⟩, rfl⟩

end VariHist.Formula
