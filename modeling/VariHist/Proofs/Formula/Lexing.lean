import Mathlib
import VariHist.Formula.Compile
import VariHist.Proofs.Step

/-!
# What the scanner reads

A text is divided into tokens with white space around them.  Each token is spelled by its own
characters and goes on as far as it can.  A text is scanned exactly if it has such a division, and
it has at most one.  White space ends every token, so more of it between tokens changes nothing.

* `Spells`, `GoesOn` — the texts of a token, and the characters with which one goes on.
* `Graphic` — tokens are spelled in ASCII, without white space.
* `takes_iff` — the scanner takes one token: the one that is spelled there and ends there.
* `Divides` — a text as pieces, each with the white space before it.
* `scan_eq_ok_iff` — by induction, the scanner takes the tokens of a division.
* `Divides.unique`, `Divides.regap` — there is one division, and it stays when white space is put
  in.
* `divides_of_gaps` — tokens with white space between them do not run together.
* `Divides.ascii` — a text with a division is ASCII.
-/

namespace VariHist.Formula

/-! ## Spellings -/

/-- The operators, the parentheses and the comma with their texts. -/
def signs : List (List Char × Token) :=
  [(['&', '&'], .operator .and), (['|', '|'], .operator .or), (['=', '='], .operator .eq),
    (['!', '='], .operator .ne), (['<', '='], .operator .le), (['>', '='], .operator .ge),
    (['+'], .operator .add), (['-'], .minus), (['*'], .operator .mul), (['/'], .operator .div),
    (['<'], .operator .lt), (['>'], .operator .gt), (['!'], .bang), (['('], .leftParen),
    ([')'], .rightParen), ([','], .comma)]

/-- A number begins with a digit or a point. -/
def NumberStart (c : Char) : Prop :=
  c.isDigit ∨ c = '.'

/-- In a number, `c` may stand after `previous`: a digit, a point, an exponent mark, or a sign right
after an exponent mark. -/
def NumberFollows (previous c : Char) : Prop :=
  c.isDigit ∨ c = '.' ∨ c = 'e' ∨ c = 'E' ∨
    (c = '+' ∨ c = '-') ∧ (previous = 'e' ∨ previous = 'E')

/-- A name begins with a letter or an underscore. -/
def NameStart (c : Char) : Prop :=
  c.isAlpha ∨ c = '_'

/-- A name goes on with letters, digits and underscores. -/
def NameFollows (c : Char) : Prop :=
  c.isAlphanum ∨ c = '_'

/-- The characters that spell a token. -/
inductive Spells : List Char → Token → Prop
  | sign {lexeme : List Char} {token : Token} (h : (lexeme, token) ∈ signs) : Spells lexeme token
  | number {c : Char} {cs : List Char} {value : Float} (hstart : NumberStart c)
    (hfollow : List.IsChain NumberFollows (c :: cs))
    (hread : Decimal.readFloat? (c :: cs) = some value) : Spells (c :: cs) (.number value)
  | name {c : Char} {cs : List Char} (hstart : NameStart c) (hfollow : ∀ d ∈ cs, NameFollows d) :
    Spells (c :: cs) (.ident (String.ofList (c :: cs)))

/-- Characters that spell a token go on with one more. -/
inductive GoesOn : List Char → Char → Prop
  | sign {lexeme : List Char} {token : Token} {d : Char} (h : (lexeme ++ [d], token) ∈ signs) :
    GoesOn lexeme d
  | number {c last d : Char} {cs : List Char} (hstart : NumberStart c)
    (hlast : (c :: cs).getLast? = some last) (hfollow : NumberFollows last d) : GoesOn (c :: cs) d
  | name {c d : Char} {cs : List Char} (hstart : NameStart c) (hfollow : NameFollows d) :
    GoesOn (c :: cs) d

/-- The characters of a token end before this text. -/
def EndsBefore (lexeme rest : List Char) : Prop :=
  ∀ d, rest.head? = some d → ¬ GoesOn lexeme d

theorem startsNumber_iff {c : Char} : startsNumber c = true ↔ NumberStart c := by
  simp [startsNumber, NumberStart]

theorem continuesNumber_iff {p c : Char} : continuesNumber p c = true ↔ NumberFollows p c := by
  simp [continuesNumber, NumberFollows, or_assoc]

theorem startsName_iff {c : Char} : startsName c = true ↔ NameStart c := by
  simp [startsName, NameStart]

theorem continuesName_iff {c : Char} : continuesName c = true ↔ NameFollows c := by
  simp [continuesName, NameFollows]

/-- The signs are those that the scanner knows. -/
theorem mem_signs_iff {lexeme : List Char} {token : Token} :
    (lexeme, token) ∈ signs ↔
      (∃ c d op, lexeme = [c, d] ∧ token = .operator op ∧ pairOperator? c d = some op) ∨
        ∃ c, lexeme = [c] ∧ signToken? c = some token := by
  constructor
  · intro h
    simp only [signs, List.mem_cons, Prod.mk.injEq, List.not_mem_nil, or_false] at h
    rcases h with ⟨rfl, rfl⟩ | ⟨rfl, rfl⟩ | ⟨rfl, rfl⟩ | ⟨rfl, rfl⟩ | ⟨rfl, rfl⟩ | ⟨rfl, rfl⟩ | h
    all_goals first | exact .inl ⟨_, _, _, rfl, rfl, rfl⟩ | skip
    rcases h with ⟨rfl, rfl⟩ | ⟨rfl, rfl⟩ | ⟨rfl, rfl⟩ | ⟨rfl, rfl⟩ | ⟨rfl, rfl⟩ | ⟨rfl, rfl⟩ |
      ⟨rfl, rfl⟩ | ⟨rfl, rfl⟩ | ⟨rfl, rfl⟩ | ⟨rfl, rfl⟩
    all_goals exact .inr ⟨_, rfl, rfl⟩
  · rintro (⟨c, d, op, rfl, rfl, h⟩ | ⟨c, rfl, h⟩)
    · unfold pairOperator? at h
      split at h <;> first | cases h; simp [signs] | cases h
    · unfold signToken? at h
      split at h <;> first | cases h; simp [signs] | cases h

/-- Characters of one kind, and where they end. -/
theorem takeWhile_dropWhile_eq_iff {p : Char → Bool} {cs body rest : List Char} :
    cs.takeWhile p = body ∧ cs.dropWhile p = rest ↔
      cs = body ++ rest ∧ (∀ d ∈ body, p d = true) ∧ ∀ d, rest.head? = some d → p d = false := by
  constructor
  · rintro ⟨rfl, rfl⟩
    refine ⟨List.takeWhile_append_dropWhile.symm, fun d hd => List.mem_takeWhile_imp hd, ?_⟩
    intro d hd
    have hstop := List.head?_dropWhile_not p cs
    rw [hd] at hstop
    exact hstop
  · rintro ⟨rfl, hbody, hend⟩
    rw [List.takeWhile_append_of_pos hbody, List.dropWhile_append_of_pos hbody]
    cases rest with
    | nil => simp
    | cons d rest => simp [hend d rfl]

/-! ## The characters of tokens -/

/-- An ASCII character that is no white space. -/
def Graphic (c : Char) : Prop :=
  isSpace c = false ∧ c.toNat < 128

theorem isSpace_iff {c : Char} :
    isSpace c = true ↔ c = ' ' ∨ c = '\t' ∨ c = '\n' ∨ c = '\x0c' ∨ c = '\r' := by
  simp [isSpace, or_assoc]

theorem toNat_lt_of_isSpace {c : Char} (h : isSpace c = true) : c.toNat < 128 := by
  rcases isSpace_iff.1 h with rfl | rfl | rfl | rfl | rfl <;> decide

theorem graphic_of_isAlphanum {c : Char} (h : c.isAlphanum = true) : Graphic c := by
  constructor
  · rw [Bool.eq_false_iff, ne_eq, isSpace_iff]
    rintro (rfl | rfl | rfl | rfl | rfl) <;> exact absurd h (by decide)
  · simp [Char.isAlphanum, Char.isAlpha, Char.isUpper, Char.isLower, Char.isDigit,
      UInt32.le_iff_toNat_le] at h
    have hval : c.toNat = c.val.toNat := rfl
    omega

theorem graphic_of_isDigit {c : Char} (h : c.isDigit = true) : Graphic c :=
  graphic_of_isAlphanum (by rw [Char.isAlphanum, h, Bool.or_true])

theorem NumberStart.graphic {c : Char} (h : NumberStart c) : Graphic c := by
  rcases h with h | rfl
  · exact graphic_of_isDigit h
  · exact ⟨by decide, by decide⟩

theorem NumberFollows.graphic {p c : Char} (h : NumberFollows p c) : Graphic c := by
  rcases h with h | rfl | rfl | rfl | ⟨rfl | rfl, -⟩
  · exact graphic_of_isDigit h
  all_goals exact ⟨by decide, by decide⟩

theorem NameFollows.graphic {c : Char} (h : NameFollows c) : Graphic c := by
  rcases h with h | rfl
  · exact graphic_of_isAlphanum h
  · exact ⟨by decide, by decide⟩

theorem NameStart.follows {c : Char} (h : NameStart c) : NameFollows c :=
  h.imp_left fun h => by rw [Char.isAlphanum, h, Bool.true_or]

theorem graphic_of_mem_signs {lexeme : List Char} {token : Token} (h : (lexeme, token) ∈ signs)
    {c : Char} (hc : c ∈ lexeme) : Graphic c := by
  have hall : ∀ s ∈ signs, ∀ c ∈ s.1, isSpace c = false ∧ c.toNat < 128 := by
    simp [signs, isSpace]
  exact hall _ h c hc

/-- A token is spelled by at least one character. -/
theorem Spells.exists_cons {lexeme : List Char} {token : Token} (h : Spells lexeme token) :
    ∃ c cs, lexeme = c :: cs := by
  rcases h with h | - | -
  · rcases mem_signs_iff.1 h with ⟨c, d, -, rfl, -⟩ | ⟨c, rfl, -⟩
    · exact ⟨c, [d], rfl⟩
    · exact ⟨c, [], rfl⟩
  · exact ⟨_, _, rfl⟩
  · exact ⟨_, _, rfl⟩

/-- A token is spelled in ASCII, without white space. -/
theorem Spells.graphic {lexeme : List Char} {token : Token} (h : Spells lexeme token) {c : Char}
    (hc : c ∈ lexeme) : Graphic c := by
  cases h with
  | sign h => exact graphic_of_mem_signs h hc
  | number hstart hfollow _ =>
    rcases List.mem_cons.1 hc with rfl | hc
    · exact hstart.graphic
    · obtain ⟨i, hi, rfl⟩ := List.mem_iff_getElem.1 hc
      exact (List.isChain_iff_getElem.1 hfollow i (Nat.succ_lt_succ hi)).graphic
  | name hstart hfollow =>
    rcases List.mem_cons.1 hc with rfl | hc
    · exact hstart.follows.graphic
    · exact (hfollow c hc).graphic

/-- White space ends every token. -/
theorem not_goesOn_of_isSpace {lexeme : List Char} {d : Char} (hd : isSpace d = true) :
    ¬ GoesOn lexeme d := by
  intro h
  have hgraphic : Graphic d := by
    rcases h with h | ⟨-, -, h⟩ | ⟨-, h⟩
    · exact graphic_of_mem_signs h (List.mem_append_right _ (List.mem_singleton_self d))
    · exact h.graphic
    · exact h.graphic
  exact Bool.false_ne_true (hgraphic.1.symm.trans hd)

/-- What a sign begins with begins nothing else. -/
theorem sign_start {c : Char} {cs : List Char} {token : Token} (h : (c :: cs, token) ∈ signs) :
    ¬ NumberStart c ∧ ¬ NameStart c ∧ isSpace c = false := by
  have hall : ∀ s ∈ signs, (s.1.head?.map fun c => (startsNumber c, startsName c, isSpace c)) =
      some (false, false, false) := by decide +kernel
  have hc := hall _ h
  simp only [List.head?_cons, Option.map_some, Option.some.injEq, Prod.mk.injEq] at hc
  rw [← startsNumber_iff, ← startsName_iff, hc.1, hc.2.1]
  exact ⟨Bool.false_ne_true, Bool.false_ne_true, hc.2.2⟩

theorem NameStart.not_numberStart {c : Char} (h : NameStart c) : ¬ NumberStart c := by
  rintro (hdigit | rfl)
  · rcases h with halpha | rfl
    · simp [Char.isAlpha, Char.isUpper, Char.isLower, Char.isDigit, UInt32.le_iff_toNat_le]
        at halpha hdigit
      omega
    · exact absurd hdigit (by decide)
  · rcases h with halpha | h
    · exact absurd halpha (by decide)
    · exact absurd h (by decide)

/-- After an operator of two characters nothing belongs to it. -/
theorem endsBefore_pair {c d : Char} {rest : List Char} {token : Token}
    (h : ([c, d], token) ∈ signs) : EndsBefore [c, d] rest := by
  rintro d' - (h' | ⟨hstart, -, -⟩ | ⟨hstart, -⟩)
  · -- no sign has three characters
    rcases mem_signs_iff.1 h' with ⟨_, _, _, heq, -, -⟩ | ⟨_, heq, -⟩ <;> cases heq
  · exact absurd hstart (sign_start h).1
  · exact absurd hstart (sign_start h).2.1

/-- A sign of one character ends where no sign of two characters begins. -/
theorem endsBefore_sign_iff {c : Char} {rest : List Char} {token : Token}
    (h : ([c], token) ∈ signs) :
    EndsBefore [c] rest ↔ rest.head?.bind (pairOperator? c) = none := by
  rw [Option.bind_eq_none_iff]
  refine forall_congr' fun d => forall_congr' fun _ => ?_
  rw [Option.eq_none_iff_forall_ne_some]
  constructor
  · intro hend op hop
    exact hend (.sign (mem_signs_iff.2 (.inl ⟨c, d, op, rfl, rfl, hop⟩)))
  · rintro hnone (h' | ⟨hstart, -, -⟩ | ⟨hstart, -⟩)
    · rcases mem_signs_iff.1 h' with ⟨_, _, op, heq, -, hop⟩ | ⟨_, heq, -⟩
      · cases heq
        exact hnone op hop
      · cases heq
    · exact absurd hstart (sign_start h).1
    · exact absurd hstart (sign_start h).2.1

/-- A number ends before what may not stand after its last character. -/
theorem endsBefore_number_iff {c : Char} {cs rest : List Char} (hstart : NumberStart c) :
    EndsBefore (c :: cs) rest ↔ ∀ d last, rest.head? = some d →
      (c :: cs).getLast? = some last → ¬ NumberFollows last d := by
  constructor
  · intro hend d last hd hlast hfollow
    exact hend d hd (.number hstart hlast hfollow)
  · rintro hend d hd (h | ⟨-, hlast, hfollow⟩ | ⟨hname, -⟩)
    · exact absurd hstart (sign_start h).1
    · exact hend d _ hd hlast hfollow
    · exact absurd hstart hname.not_numberStart

/-- A name ends before what a name does not go on with. -/
theorem endsBefore_name_iff {c : Char} {cs rest : List Char} (hstart : NameStart c) :
    EndsBefore (c :: cs) rest ↔ ∀ d, rest.head? = some d → continuesName d = false := by
  refine forall_congr' fun d => forall_congr' fun _ => ?_
  rw [Bool.eq_false_iff, ne_eq, continuesName_iff]
  constructor
  · exact fun hend hfollow => hend (.name hstart hfollow)
  · rintro hnot (h | ⟨hnumber, -, -⟩ | ⟨-, hfollow⟩)
    · exact absurd hstart (sign_start h).2.1
    · exact absurd hnumber hstart.not_numberStart
    · exact hnot hfollow

/-! ## One token -/

/-- The part of a number that is taken is the longest in which every character may stand. -/
theorem spanNumber_eq_iff {p : Char} {cs body rest : List Char} :
    spanNumber p cs = (body, rest) ↔ cs = body ++ rest ∧ List.IsChain NumberFollows (p :: body) ∧
      ∀ d last, rest.head? = some d → (p :: body).getLast? = some last →
        ¬ NumberFollows last d := by
  induction cs generalizing p body with
  | nil =>
    rw [spanNumber]
    constructor
    · intro h
      cases h
      simp
    · rintro ⟨h, -, -⟩
      obtain ⟨rfl, rfl⟩ := List.append_eq_nil_iff.1 h.symm
      rfl
  | cons c cs ih =>
    rw [spanNumber]
    by_cases hc : NumberFollows p c
    · rw [if_pos (continuesNumber_iff.2 hc)]
      cases body with
      | nil =>
        constructor
        · intro h
          cases (Prod.mk.inj h).1
        · rintro ⟨rfl, -, hend⟩
          exact absurd hc (hend c p rfl rfl)
      | cons b body =>
        have hstep : (c :: (spanNumber c cs).1, (spanNumber c cs).2) = (b :: body, rest) ↔
            c = b ∧ spanNumber c cs = (body, rest) := by
          rw [Prod.ext_iff, Prod.ext_iff, List.cons.injEq, and_assoc]
        rw [List.cons_append, List.cons.injEq, List.isChain_cons_cons, List.getLast?_cons_cons]
        refine hstep.trans ⟨?_, ?_⟩
        · rintro ⟨rfl, h⟩
          obtain ⟨hcs, hchain, hend⟩ := ih.1 h
          exact ⟨⟨rfl, hcs⟩, ⟨hc, hchain⟩, hend⟩
        · rintro ⟨⟨rfl, hcs⟩, ⟨-, hchain⟩, hend⟩
          exact ⟨rfl, ih.2 ⟨hcs, hchain, hend⟩⟩
    · rw [if_neg (continuesNumber_iff.not.2 hc)]
      constructor
      · intro h
        cases h
        simp [hc]
      · rintro ⟨hcs, hchain, -⟩
        cases body with
        | nil => rw [hcs]; rfl
        | cons b body =>
          rw [List.cons_append, List.cons.injEq] at hcs
          exact absurd (hcs.1 ▸ (List.isChain_cons_cons.1 hchain).1) hc

section NextToken

variable {source : String} {c : Char} {cs rest : List Char} {token : Token} {op : Operator}

theorem nextToken_of_pair (hpair : cs.head?.bind (pairOperator? c) = some op) :
    nextToken source c cs = .ok (.operator op, ⟨cs.tail, by simp⟩) := by
  simp only [nextToken, hpair]

theorem nextToken_of_sign (hpair : cs.head?.bind (pairOperator? c) = none)
    (hsign : signToken? c = some token) :
    nextToken source c cs = .ok (token, ⟨cs, le_rfl⟩) := by
  simp only [nextToken, hpair, hsign]

theorem nextToken_of_number (hpair : cs.head?.bind (pairOperator? c) = none)
    (hsign : signToken? c = none) (hstart : NumberStart c) {value : Float}
    (hread : Decimal.readFloat? (c :: (spanNumber c cs).1) = some value) :
    nextToken source c cs =
      .ok (.number value, ⟨(spanNumber c cs).2, spanNumber_rest_length c cs⟩) := by
  simp only [nextToken, hpair, hsign, if_pos (startsNumber_iff.2 hstart), hread]

theorem nextToken_of_badNumber (hpair : cs.head?.bind (pairOperator? c) = none)
    (hsign : signToken? c = none) (hstart : NumberStart c)
    (hread : Decimal.readFloat? (c :: (spanNumber c cs).1) = none) :
    nextToken source c cs =
      .error (.badNumber (String.ofList (c :: (spanNumber c cs).1))) := by
  simp only [nextToken, hpair, hsign, if_pos (startsNumber_iff.2 hstart), hread]

theorem nextToken_of_name (hpair : cs.head?.bind (pairOperator? c) = none)
    (hsign : signToken? c = none) (hstart : NameStart c) :
    nextToken source c cs = .ok (.ident (String.ofList (c :: cs.takeWhile continuesName)),
      ⟨cs.dropWhile continuesName, length_dropWhile_le _ cs⟩) := by
  simp only [nextToken, hpair, hsign, if_neg (startsNumber_iff.not.2 hstart.not_numberStart),
    if_pos (startsName_iff.2 hstart)]

theorem nextToken_of_none (hpair : cs.head?.bind (pairOperator? c) = none)
    (hsign : signToken? c = none) (hnumber : ¬ NumberStart c) (hname : ¬ NameStart c) :
    nextToken source c cs = .error (.badCharacter (leadByte c) source) := by
  simp only [nextToken, hpair, hsign, if_neg (startsNumber_iff.not.2 hnumber),
    if_neg (startsName_iff.not.2 hname)]

/-- A token is taken from the front of a text and leaves `rest`. -/
def Takes (source : String) (c : Char) (cs : List Char) (token : Token) (rest : List Char) : Prop :=
  ∃ h, nextToken source c cs = .ok (token, ⟨rest, h⟩)

theorem takes_iff_of_eq {taken : Token} {left : { left : List Char // left.length ≤ cs.length }}
    (h : nextToken source c cs = .ok (taken, left)) :
    Takes source c cs token rest ↔ token = taken ∧ rest = left.1 := by
  rw [Takes, h]
  simp only [Except.ok.injEq, Prod.mk.injEq, Subtype.ext_iff]
  constructor
  · rintro ⟨-, rfl, hrest⟩
    exact ⟨rfl, hrest.symm⟩
  · rintro ⟨rfl, rfl⟩
    exact ⟨left.2, rfl, rfl⟩

theorem not_takes_of_eq {fault : Fault} (h : nextToken source c cs = .error fault) :
    ¬ Takes source c cs token rest := by
  rintro ⟨_, hok⟩
  rw [h] at hok
  cases hok

/-- No sign has a character that is not ASCII. -/
theorem signToken?_eq_none (hc : 128 ≤ c.toNat) : signToken? c = none := by
  rw [Option.eq_none_iff_forall_ne_some]
  intro sign hsign
  have hgraphic := graphic_of_mem_signs (mem_signs_iff.2 (.inr ⟨c, rfl, hsign⟩))
    (List.mem_singleton_self c)
  exact absurd hgraphic.2 (Nat.not_lt_of_le hc)

/-- A text that begins no sign is not taken for one. -/
theorem no_sign (h : ∀ cs token, (c :: cs, token) ∉ signs) :
    cs.head?.bind (pairOperator? c) = none ∧ signToken? c = none := by
  constructor
  · rw [Option.bind_eq_none_iff]
    intro d _
    rw [Option.eq_none_iff_forall_ne_some]
    intro op hop
    exact h [d] _ (mem_signs_iff.2 (.inl ⟨c, d, op, rfl, rfl, hop⟩))
  · rw [Option.eq_none_iff_forall_ne_some]
    intro sign hsign
    exact h [] sign (mem_signs_iff.2 (.inr ⟨c, rfl, hsign⟩))

/-- The token that is taken from the front of a text is spelled there, and it ends there. -/
theorem Takes.exists_spells (h : Takes source c cs token rest) :
    ∃ body, cs = body ++ rest ∧ Spells (c :: body) token ∧ EndsBefore (c :: body) rest := by
  cases hpair : cs.head?.bind (pairOperator? c) with
  | some op =>
    obtain ⟨rfl, rfl⟩ := (takes_iff_of_eq (nextToken_of_pair hpair)).1 h
    obtain ⟨d, hd, hop⟩ := Option.bind_eq_some_iff.1 hpair
    obtain ⟨cs, rfl⟩ := List.head?_eq_some_iff.1 hd
    have hmem := mem_signs_iff.2 (.inl ⟨c, d, op, rfl, rfl, hop⟩)
    exact ⟨[d], rfl, .sign hmem, endsBefore_pair hmem⟩
  | none =>
    cases hsign : signToken? c with
    | some sign =>
      obtain ⟨rfl, rfl⟩ := (takes_iff_of_eq (nextToken_of_sign hpair hsign)).1 h
      have hmem := mem_signs_iff.2 (.inr ⟨c, rfl, hsign⟩)
      exact ⟨[], rfl, .sign hmem, (endsBefore_sign_iff hmem).2 hpair⟩
    | none =>
      by_cases hnumber : NumberStart c
      · cases hread : Decimal.readFloat? (c :: (spanNumber c cs).1) with
        | none =>
          exact absurd h (not_takes_of_eq (nextToken_of_badNumber hpair hsign hnumber hread))
        | some value =>
          obtain ⟨rfl, hrest⟩ :=
            (takes_iff_of_eq (nextToken_of_number hpair hsign hnumber hread)).1 h
          have hspan : spanNumber c cs = ((spanNumber c cs).1, rest) := by rw [hrest]
          obtain ⟨hcs, hchain, hend⟩ := spanNumber_eq_iff.1 hspan
          exact ⟨_, hcs, .number hnumber hchain hread, (endsBefore_number_iff hnumber).2 hend⟩
      · by_cases hname : NameStart c
        · obtain ⟨rfl, hrest⟩ := (takes_iff_of_eq (nextToken_of_name hpair hsign hname)).1 h
          obtain ⟨hcs, hbody, hend⟩ := takeWhile_dropWhile_eq_iff.1 ⟨rfl, hrest.symm⟩
          have hfollow : ∀ d ∈ cs.takeWhile continuesName, NameFollows d :=
            fun d hd => continuesName_iff.1 (hbody d hd)
          exact ⟨_, hcs, .name hname hfollow, (endsBefore_name_iff hname).2 hend⟩
        · exact absurd h (not_takes_of_eq (nextToken_of_none hpair hsign hnumber hname))

/-- What is spelled at the front of a text and ends there is taken. -/
theorem Spells.takes {body : List Char} (h : Spells (c :: body) token)
    (hend : EndsBefore (c :: body) rest) : Takes source c (body ++ rest) token rest := by
  cases h with
  | sign hmem =>
    rcases mem_signs_iff.1 hmem with ⟨_, d, op, heq, rfl, hop⟩ | ⟨_, heq, hsign⟩
    · cases heq
      have hpair : (d :: rest).head?.bind (pairOperator? c) = some op := hop
      exact (takes_iff_of_eq (nextToken_of_pair hpair)).2 ⟨rfl, rfl⟩
    · cases heq
      have hpair := (endsBefore_sign_iff hmem).1 hend
      exact (takes_iff_of_eq (nextToken_of_sign hpair hsign)).2 ⟨rfl, rfl⟩
  | @number _ _ value hstart hfollow hread =>
    obtain ⟨hpair, hsign⟩ : (body ++ rest).head?.bind (pairOperator? c) = none ∧
        signToken? c = none := no_sign fun _ _ hmem => (sign_start hmem).1 hstart
    have hspan : spanNumber c (body ++ rest) = (body, rest) :=
      spanNumber_eq_iff.2 ⟨rfl, hfollow, (endsBefore_number_iff hstart).1 hend⟩
    have hread' : Decimal.readFloat? (c :: (spanNumber c (body ++ rest)).1) = some value := by
      rw [hspan]
      exact hread
    exact (takes_iff_of_eq (nextToken_of_number hpair hsign hstart hread')).2
      ⟨rfl, congrArg Prod.snd hspan.symm⟩
  | name hstart hfollow =>
    obtain ⟨hpair, hsign⟩ : (body ++ rest).head?.bind (pairOperator? c) = none ∧
        signToken? c = none := no_sign fun _ _ hmem => (sign_start hmem).2.1 hstart
    obtain ⟨htake, hdrop⟩ := takeWhile_dropWhile_eq_iff.2
      ⟨rfl, fun d hd => continuesName_iff.2 (hfollow d hd), (endsBefore_name_iff hstart).1 hend⟩
    exact (takes_iff_of_eq (nextToken_of_name hpair hsign hstart)).2
      ⟨congrArg (fun cs => Token.ident (String.ofList (c :: cs))) htake.symm, hdrop.symm⟩

/-- The scanner takes the token that is spelled at the front of a text and ends there. -/
theorem takes_iff : Takes source c cs token rest ↔
    ∃ body, cs = body ++ rest ∧ Spells (c :: body) token ∧ EndsBefore (c :: body) rest := by
  constructor
  · exact Takes.exists_spells
  · rintro ⟨body, rfl, hspells, hend⟩
    exact hspells.takes hend

theorem Takes.unique {token' : Token} {rest' : List Char} (h : Takes source c cs token rest)
    (h' : Takes source c cs token' rest') : token = token' ∧ rest = rest' := by
  obtain ⟨_, h⟩ := h
  obtain ⟨_, h'⟩ := h'
  rw [h] at h'
  cases h'
  exact ⟨rfl, rfl⟩

end NextToken

/-! ## Divisions -/

/-- A text of white space. -/
def Blank (cs : List Char) : Prop :=
  ∀ c ∈ cs, isSpace c = true

/-- A token in a text, with the white space before it. -/
@[ext]
structure Piece where
  gap : List Char
  lexeme : List Char
  token : Token

/-- The text of pieces, and white space after them. -/
def textOf (pieces : List Piece) (trailing : List Char) : List Char :=
  pieces.flatMap (fun p => p.gap ++ p.lexeme) ++ trailing

@[simp] theorem textOf_nil (trailing : List Char) : textOf [] trailing = trailing := rfl

@[simp] theorem textOf_cons (p : Piece) (pieces : List Piece) (trailing : List Char) :
    textOf (p :: pieces) trailing = p.gap ++ (p.lexeme ++ textOf pieces trailing) := by
  rw [textOf, List.flatMap_cons, List.append_assoc, List.append_assoc]
  rfl

/-- Pieces of a text: white space before each token, which is spelled there and goes on as far as it
can, and white space after the last one. -/
inductive Divides : List Piece → List Char → Prop
  | done {trailing : List Char} (h : Blank trailing) : Divides [] trailing
  | piece {p : Piece} {pieces : List Piece} {trailing : List Char} (hgap : Blank p.gap)
    (hspells : Spells p.lexeme p.token) (hend : EndsBefore p.lexeme (textOf pieces trailing))
    (h : Divides pieces trailing) : Divides (p :: pieces) trailing

section Scan

variable {source : String} {c : Char} {cs trailing trailing' : List Char} {tokens : List Token}
  {pieces pieces' : List Piece}

theorem scan_cons_of_isSpace (hc : isSpace c = true) : scan source (c :: cs) = scan source cs := by
  rw [scan, if_pos hc]

theorem scan_append_of_blank {gap : List Char} (h : Blank gap) :
    scan source (gap ++ cs) = scan source cs := by
  induction gap with
  | nil => rfl
  | cons c gap ih =>
    rw [List.cons_append, scan_cons_of_isSpace (h c List.mem_cons_self),
      ih fun d hd => h d (List.mem_cons_of_mem c hd)]

theorem scan_of_nextToken {token : Token} {left : { left : List Char // left.length ≤ cs.length }}
    (hc : isSpace c = false) (h : nextToken source c cs = .ok (token, left)) :
    scan source (c :: cs) = (scan source left.1).map (token :: ·) := by
  rw [scan, if_neg (Bool.eq_false_iff.1 hc), h]
  change (scan source left.1 >>= fun tokens => pure (token :: tokens)) = _
  cases scan source left.1 <;> rfl

theorem scan_of_nextToken_error {fault : Fault} (hc : isSpace c = false)
    (h : nextToken source c cs = .error fault) : scan source (c :: cs) = .error fault := by
  rw [scan, if_neg (Bool.eq_false_iff.1 hc), h]
  rfl

theorem scan_cons_eq_ok_iff (hc : isSpace c = false) :
    scan source (c :: cs) = .ok tokens ↔ ∃ token rest tokens', Takes source c cs token rest ∧
      scan source rest = .ok tokens' ∧ token :: tokens' = tokens := by
  rw [scan, if_neg (Bool.eq_false_iff.1 hc), bind_except_eq_ok_iff]
  constructor
  · rintro ⟨⟨token, rest⟩, hnext, h⟩
    obtain ⟨tokens', hscan, h⟩ := bind_except_eq_ok_iff.1 h
    exact ⟨token, rest.1, tokens', ⟨rest.2, hnext⟩, hscan, Except.ok.inj h⟩
  · rintro ⟨token, rest, tokens', ⟨hrest, hnext⟩, hscan, rfl⟩
    exact ⟨_, hnext, bind_except_eq_ok_iff.2 ⟨tokens', hscan, rfl⟩⟩

/-- White space in front of a text belongs to the first gap. -/
theorem Divides.exists_cons (h : Divides pieces trailing) (hc : isSpace c = true) :
    ∃ pieces' trailing', Divides pieces' trailing' ∧
      textOf pieces' trailing' = c :: textOf pieces trailing ∧
      pieces'.map Piece.token = pieces.map Piece.token := by
  cases h with
  | done h => exact ⟨[], c :: trailing, .done (List.forall_mem_cons.2 ⟨hc, h⟩), rfl, rfl⟩
  | @piece p pieces _ hgap hspells hend h =>
    refine ⟨{ p with gap := c :: p.gap } :: pieces, trailing, ?_, ?_, rfl⟩
    · exact .piece (List.forall_mem_cons.2 ⟨hc, hgap⟩) hspells hend h
    · rw [textOf_cons, textOf_cons]
      rfl

/-- A text with a division is scanned into its tokens. -/
theorem Divides.scan_eq (h : Divides pieces trailing) :
    scan source (textOf pieces trailing) = .ok (pieces.map Piece.token) := by
  induction h with
  | @done trailing h =>
    have hscan : scan source (trailing ++ []) = scan source [] := scan_append_of_blank h
    rw [List.append_nil] at hscan
    rw [textOf_nil, hscan, scan]
    rfl
  | @piece p pieces trailing hgap hspells hend _ ih =>
    rw [textOf_cons, scan_append_of_blank hgap]
    obtain ⟨c, body, hlexeme⟩ := hspells.exists_cons
    rw [hlexeme] at hspells hend ⊢
    exact (scan_cons_eq_ok_iff (hspells.graphic List.mem_cons_self).1).2
      ⟨_, _, _, hspells.takes hend, ih, rfl⟩

/-- A text that is scanned has a division into the tokens. -/
theorem exists_divides_of_scan (h : scan source cs = .ok tokens) :
    ∃ pieces trailing, Divides pieces trailing ∧ textOf pieces trailing = cs ∧
      pieces.map Piece.token = tokens := by
  induction hn : cs.length using Nat.strong_induction_on generalizing cs tokens with
  | _ n ih =>
    cases cs with
    | nil =>
      rw [scan] at h
      cases h
      exact ⟨[], [], .done (List.forall_mem_nil _), rfl, rfl⟩
    | cons c cs =>
      subst hn
      by_cases hc : isSpace c = true
      · rw [scan_cons_of_isSpace hc] at h
        obtain ⟨pieces, trailing, hdiv, rfl, rfl⟩ := ih _ (by simp) h rfl
        exact hdiv.exists_cons hc
      · obtain ⟨token, rest, tokens, htakes, hscan, rfl⟩ :=
          (scan_cons_eq_ok_iff (Bool.eq_false_iff.2 hc)).1 h
        obtain ⟨body, rfl, hspells, hend⟩ := takes_iff.1 htakes
        obtain ⟨pieces, trailing, hdiv, rfl, rfl⟩ := ih _ (by simp) hscan rfl
        exact ⟨⟨[], c :: body, token⟩ :: pieces, trailing,
          .piece (List.forall_mem_nil _) hspells hend hdiv, by simp, rfl⟩

/-- A text is scanned exactly if it has a division, and then into its tokens. -/
theorem scan_eq_ok_iff : scan source cs = .ok tokens ↔
    ∃ pieces trailing, Divides pieces trailing ∧ textOf pieces trailing = cs ∧
      pieces.map Piece.token = tokens := by
  constructor
  · exact exists_divides_of_scan
  · rintro ⟨pieces, trailing, hdiv, rfl, rfl⟩
    exact hdiv.scan_eq

end Scan

section Divides

variable {cs cs' gap gap' trailing trailing' : List Char} {pieces pieces' : List Piece}

/-- Where a token begins is where the white space before it ends. -/
theorem blank_append_inj (hgap : Blank gap) (hgap' : Blank gap')
    (hcs : ∀ d, cs.head? = some d → isSpace d = false)
    (hcs' : ∀ d, cs'.head? = some d → isSpace d = false) (h : gap ++ cs = gap' ++ cs') :
    gap = gap' ∧ cs = cs' := by
  obtain ⟨htake, hdrop⟩ := takeWhile_dropWhile_eq_iff.2 ⟨rfl, hgap, hcs⟩
  obtain ⟨htake', hdrop'⟩ := takeWhile_dropWhile_eq_iff.2 ⟨h, hgap', hcs'⟩
  exact ⟨htake.symm.trans htake', hdrop.symm.trans hdrop'⟩

/-- What spells a token does not begin with white space. -/
theorem Spells.head_graphic {lexeme : List Char} {token : Token} (h : Spells lexeme token) :
    ∀ d, (lexeme ++ cs).head? = some d → isSpace d = false := by
  obtain ⟨c, body, rfl⟩ := h.exists_cons
  intro d hd
  cases hd
  exact (h.graphic List.mem_cons_self).1

theorem not_blank_textOf_cons {p : Piece} (h : Spells p.lexeme p.token) :
    ¬ Blank (textOf (p :: pieces) trailing) := by
  intro hblank
  obtain ⟨c, body, hlexeme⟩ := h.exists_cons
  have hc : c ∈ p.lexeme := hlexeme ▸ List.mem_cons_self
  have hspace : isSpace c = true := hblank c (by rw [textOf_cons]; simp [hc])
  exact Bool.false_ne_true ((h.graphic hc).1.symm.trans hspace)

/-- At the front of a text only one token is spelled that ends where it has to. -/
theorem Spells.unique {lexeme lexeme' : List Char} {token token' : Token}
    (h : Spells lexeme token) (hend : EndsBefore lexeme cs) (h' : Spells lexeme' token')
    (hend' : EndsBefore lexeme' cs') (htext : lexeme ++ cs = lexeme' ++ cs') :
    lexeme = lexeme' ∧ token = token' ∧ cs = cs' := by
  obtain ⟨c, body, rfl⟩ := h.exists_cons
  obtain ⟨c', body', rfl⟩ := h'.exists_cons
  rw [List.cons_append, List.cons_append, List.cons.injEq] at htext
  obtain ⟨rfl, hbody⟩ := htext
  have htakes : Takes "" c (body ++ cs) token cs := h.takes hend
  rw [hbody] at htakes
  obtain ⟨rfl, rfl⟩ := htakes.unique (h'.takes hend')
  exact ⟨congrArg _ (List.append_cancel_right hbody), rfl, rfl⟩

/-- A text has at most one division. -/
theorem Divides.unique (h : Divides pieces trailing) (h' : Divides pieces' trailing')
    (htext : textOf pieces trailing = textOf pieces' trailing') :
    pieces = pieces' ∧ trailing = trailing' := by
  induction h generalizing pieces' trailing' with
  | done hblank =>
    cases h' with
    | done => exact ⟨rfl, htext⟩
    | piece _ hspells' _ _ =>
      rw [textOf_nil] at htext
      exact absurd (htext ▸ hblank) (not_blank_textOf_cons hspells')
  | piece hgap hspells hend _ ih =>
    cases h' with
    | done hblank' =>
      rw [textOf_nil] at htext
      exact absurd (htext ▸ hblank') (not_blank_textOf_cons hspells)
    | piece hgap' hspells' hend' h' =>
      rw [textOf_cons, textOf_cons] at htext
      obtain ⟨heq, hrest⟩ := blank_append_inj hgap hgap' hspells.head_graphic
        hspells'.head_graphic htext
      obtain ⟨hlexeme, htoken, hrest⟩ := hspells.unique hend hspells' hend' hrest
      obtain ⟨rfl, rfl⟩ := ih h' hrest
      exact ⟨congrArg (· :: _) (Piece.ext heq hlexeme htoken), rfl⟩

/-- A text with a division is ASCII. -/
theorem Divides.ascii (h : Divides pieces trailing) {c : Char} (hc : c ∈ textOf pieces trailing) :
    c.toNat < 128 := by
  induction h with
  | done h => exact toNat_lt_of_isSpace (h c hc)
  | piece hgap hspells _ _ ih =>
    rw [textOf_cons, List.mem_append, List.mem_append] at hc
    rcases hc with hc | hc | hc
    · exact toNat_lt_of_isSpace (hgap c hc)
    · exact (hspells.graphic hc).2
    · exact ih hc

/-! ## White space put in -/

/-- The same token with more white space before it. -/
structure Spaced (p p' : Piece) : Prop where
  lexeme : p'.lexeme = p.lexeme
  token : p'.token = p.token
  blank : Blank p'.gap
  gap : p.gap.Sublist p'.gap

theorem map_token_of_spaced (h : List.Forall₂ Spaced pieces pieces') :
    pieces'.map Piece.token = pieces.map Piece.token := by
  induction h with
  | nil => rfl
  | cons hp _ ih => rw [List.map_cons, List.map_cons, hp.token, ih]

/-- A token ends before white space. -/
theorem endsBefore_of_head {lexeme : List Char}
    (h : ∀ d, cs.head? = some d → isSpace d = true) : EndsBefore lexeme cs :=
  fun d hd => not_goesOn_of_isSpace (h d hd)

/-- A token ends where it ended before, if at most white space is put in after it. -/
theorem EndsBefore.of_gap {lexeme : List Char} (h : EndsBefore lexeme (gap ++ cs))
    (hsub : gap.Sublist gap') (hblank : Blank gap') (hhead : cs'.head? = cs.head?) :
    EndsBefore lexeme (gap' ++ cs') := by
  cases gap' with
  | nil =>
    rw [List.sublist_nil.1 hsub] at h
    exact fun d hd => h d (hhead ▸ hd)
  | cons d gap' =>
    refine endsBefore_of_head fun d' hd' => ?_
    cases hd'
    exact hblank d List.mem_cons_self

/-- White space may be put in before and after every token. -/
theorem Divides.regap (h : Divides pieces trailing) (hpieces : List.Forall₂ Spaced pieces pieces')
    (htrailing : trailing.Sublist trailing') (hblank : Blank trailing') :
    Divides pieces' trailing' := by
  induction h generalizing pieces' with
  | done =>
    cases hpieces
    exact .done hblank
  | @piece p pieces trailing hgap hspells hend h ih =>
    cases hpieces with
    | @cons _ p' _ pieces' hp hpieces =>
      refine .piece hp.blank (hp.lexeme ▸ hp.token ▸ hspells) ?_ (ih hpieces htrailing)
      rw [hp.lexeme]
      -- after the token there is the gap of the next one, or the white space at the end
      cases hpieces with
      | nil =>
        rw [textOf_nil] at hend
        rw [textOf_nil, ← List.append_nil trailing']
        have hend' : EndsBefore p.lexeme (trailing ++ []) := by rwa [List.append_nil]
        exact hend'.of_gap htrailing hblank rfl
      | cons hq hpieces =>
        cases h with
        | piece _ hspells' _ _ =>
          obtain ⟨c, body, hlexeme⟩ := hspells'.exists_cons
          rw [textOf_cons] at hend ⊢
          refine hend.of_gap hq.gap hq.blank ?_
          rw [hq.lexeme, hlexeme]
          rfl

/-- Tokens with white space between them do not run together. -/
theorem divides_of_gaps (hpieces : ∀ p ∈ pieces, Blank p.gap ∧ Spells p.lexeme p.token)
    (hgaps : ∀ p ∈ pieces.tail, p.gap ≠ []) (htrailing : Blank trailing) :
    Divides pieces trailing := by
  induction pieces with
  | nil => exact .done htrailing
  | cons p pieces ih =>
    obtain ⟨hgap, hspells⟩ := hpieces p List.mem_cons_self
    refine .piece hgap hspells (endsBefore_of_head fun d hd => ?_)
      (ih (fun q hq => hpieces q (List.mem_cons_of_mem p hq)) fun q hq =>
        hgaps q (List.mem_of_mem_tail hq))
    cases pieces with
    | nil => exact htrailing d (List.mem_of_mem_head? hd)
    | cons q pieces =>
      obtain ⟨d', gap, hq⟩ := List.exists_cons_of_ne_nil (hgaps q List.mem_cons_self)
      rw [textOf_cons, hq] at hd
      cases hd
      exact (hpieces q (by simp)).1 d (hq ▸ List.mem_cons_self)

end Divides

end VariHist.Formula
