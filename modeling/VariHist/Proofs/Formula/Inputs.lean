import Mathlib
import VariHist.Proofs.Formula.Reading
import VariHist.Proofs.Systematics.Registrations

/-!
# The inputs of a formula

A formula that is ready to be evaluated knows its columns by position, and is given the numbers of
its inputs as a list.  Here the positions are related to the names in the text.

* `Derivation.columnNames_eq` — the columns that a tree mentions are the names among its tokens that
  no opening parenthesis follows, in their order.
* `Term.numbered_nil` — each position was fixed at the first mention of its column, and no later
  mention moves it.
* `Term.eval?_eq_some` — with a number for every input, no look-up of the evaluation fails.
* `eval_ofTerm` — the value is the one that the tree has with its columns looked up by name.
-/

namespace VariHist.Formula

open NameMap

/-! ## Names among the tokens -/

/-- The names that no opening parenthesis follows, in the order of the tokens. -/
def columnNames : List Token → List String
  | .ident _ :: .leftParen :: ts => columnNames ts
  | .ident name :: ts => name :: columnNames ts
  | _ :: ts => columnNames ts
  | [] => []

theorem columnNames_ident {name : String} {ts : List Token} (plain : ts.head? ≠ some .leftParen) :
    columnNames (.ident name :: ts) = name :: columnNames ts := by
  rw [columnNames]
  rintro rest rfl
  exact plain rfl

theorem columnNames_sign {l : Level} {token : Token} {op : Operator} {ts : List Token}
    (sign : l.Sign token op) : columnNames (token :: ts) = columnNames ts := by
  cases sign <;> simp [columnNames]

/-- A call mentions what its arguments mention, one after another. -/
theorem mentions_call (f : Function) (args : Fin f.arity → Term String) :
    (f.call args).mentions = (List.ofFn args).flatMap Term.mentions := by
  cases f with
  | one f =>
    change Fin 1 → Term String at args
    change (args 0).mentions = (List.ofFn args).flatMap Term.mentions
    simp
  | two f =>
    change Fin 2 → Term String at args
    change (args 0).mentions ++ (args 1).mentions = (List.ofFn args).flatMap Term.mentions
    simp

theorem ofFn_terms_next {n : Nat} {ts us vs : List Token}
    (argument : Derivation (.level .or) ts (.comma :: us)) (more : Arguments (n + 1) us vs) :
    List.ofFn (Arguments.next argument more).terms = argument.term :: List.ofFn more.terms := by
  rw [List.ofFn_succ, Arguments.terms]
  rfl

mutual

/-- A derivation uses up the names that its tree mentions. -/
theorem Derivation.columnNames_eq : ∀ {s : Nonterminal} {ts us : List Token}
    (d : Derivation s ts us), columnNames ts = d.term.mentions ++ columnNames us
  | _, _, _, .chain _ first more => first.columnNames_eq.trans (more.columnNames_eq first.term)
  | _, _, _, .alone sum => sum.columnNames_eq
  | _, _, _, .compared op sign left right => by
    rw [left.columnNames_eq, columnNames_sign sign, right.columnNames_eq, ← List.append_assoc]
    rfl
  | _, _, _, .neg signed => signed.columnNames_eq
  | _, _, _, .not signed => signed.columnNames_eq
  | _, _, _, .unsigned atom => atom.columnNames_eq
  | _, _, _, .number value => rfl
  | _, _, _, .column name plain => columnNames_ident plain
  | _, _, _, .parenthesis inner => inner.columnNames_eq
  | _, _, _, .call f known arguments => by
    rw [columnNames, arguments.columnNames_eq, ← mentions_call]
    rfl

/-- A repetition uses up the names that its tree mentions after those of the left operand. -/
theorem Repetition.columnNames_eq : ∀ {l : Level} {ts us : List Token} (r : Repetition l ts us)
    (left : Term String),
    left.mentions ++ columnNames ts = (r.join left).mentions ++ columnNames us
  | _, _, _, .done, left => rfl
  | _, _, _, .next op sign operand more, left => by
    rw [columnNames_sign sign, operand.columnNames_eq, ← List.append_assoc]
    exact more.columnNames_eq (.binary op left operand.term)

/-- Arguments use up the names that they mention. -/
theorem Arguments.columnNames_eq : ∀ {n : Nat} {ts us : List Token} (a : Arguments n ts us),
    columnNames ts = (List.ofFn a.terms).flatMap Term.mentions ++ columnNames us
  | _, _, _, .last argument => by
    rw [argument.columnNames_eq]
    simp [Arguments.terms]
  | _, _, _, .next argument more => by
    have hmore := congrArg (argument.term.mentions ++ ·) more.columnNames_eq
    refine argument.columnNames_eq.trans (hmore.trans ?_)
    rw [ofFn_terms_next, List.flatMap_cons, List.append_assoc]

end

/-- A tree that is read mentions the names among the tokens that no opening parenthesis follows. -/
theorem mentions_of_readTokens {source : String} {tokens : List Token} {t : Term String}
    (h : readTokens source tokens = .ok t) : t.mentions = columnNames tokens := by
  obtain ⟨d, rfl⟩ := readTokens_eq_ok_iff_derivation.mp h
  rw [d.columnNames_eq]
  exact (List.append_nil _).symm

/-! ## The order of first mention -/

/-- A list has the elements of another, each once, in the order in which they are first met
there. -/
structure FirstMentions (inputs names : List String) : Prop where
  nodup : inputs.Nodup
  mem : ∀ c, c ∈ inputs ↔ c ∈ names
  inOrder : inputs.Pairwise fun a b => names.idxOf a < names.idxOf b

theorem pairwise_eraseDups (names : List String) :
    names.eraseDups.Pairwise fun a b => names.idxOf a < names.idxOf b := by
  induction names using List.reverseRecOn with
  | nil => exact .nil
  | append_singleton names c ih =>
    have hold : names.eraseDups.Pairwise fun a b =>
        (names ++ [c]).idxOf a < (names ++ [c]).idxOf b := by
      refine ih.imp_of_mem fun ha hb hab => ?_
      rw [List.idxOf_append_of_mem (List.mem_eraseDups.1 ha),
        List.idxOf_append_of_mem (List.mem_eraseDups.1 hb)]
      exact hab
    rw [← insertNew_eraseDups, insertNew]
    by_cases hc : c ∈ names
    · rw [if_pos (List.contains_iff_mem.2 (List.mem_eraseDups.2 hc))]
      exact hold
    · rw [if_neg (mt List.contains_iff_mem.1 (mt List.mem_eraseDups.1 hc))]
      refine List.pairwise_append.2 ⟨hold, List.pairwise_singleton _ _, ?_⟩
      intro a ha b hb
      rw [List.mem_singleton.1 hb, List.idxOf_append_of_mem (List.mem_eraseDups.1 ha),
        List.idxOf_append, if_neg hc]
      have := List.idxOf_lt_length_iff.2 (List.mem_eraseDups.1 ha)
      omega

/-- Without its repetitions, a list has its elements in the order in which they are first met. -/
theorem firstMentions_eraseDups (names : List String) : FirstMentions names.eraseDups names where
  nodup := by
    refine (pairwise_eraseDups names).imp fun hab heq => ?_
    rw [heq] at hab
    exact Nat.lt_irrefl _ hab
  mem c := List.mem_eraseDups
  inOrder := pairwise_eraseDups names

/-! ## Positions handed out along the way -/

theorem prefix_insertNew (met : List String) (c : String) : met <+: insertNew met c := by
  unfold insertNew
  split
  · exact List.prefix_refl met
  · exact List.prefix_append met [c]

theorem idxOf_eq_of_insertNew {met all : List String} {c : String}
    (h : insertNew met c <+: all) : met.idxOf c = all.idxOf c := by
  obtain ⟨rest, rfl⟩ := h
  rw [List.idxOf_append_of_mem (mem_insertNew.2 (Or.inr rfl)), insertNew]
  by_cases hc : c ∈ met
  · rw [if_pos (List.contains_iff_mem.2 hc)]
  · rw [if_neg (mt List.contains_iff_mem.1 hc), List.idxOf_append, if_neg hc,
      List.idxOf_cons_self, Nat.zero_add, List.idxOf_eq_length hc]

namespace Term

/-- Numbers the columns of a term from left to right, after the columns `met` were numbered: a
column that was met has its position, and any other one gets the next. -/
def numbered (met : List String) : Term String → Term Nat × List String
  | .number value => (.number value, met)
  | .column c => (.column (met.idxOf c), insertNew met c)
  | .neg t => ((t.numbered met).1.neg, (t.numbered met).2)
  | .not t => ((t.numbered met).1.not, (t.numbered met).2)
  | .binary op l r =>
    let left := l.numbered met
    let right := r.numbered left.2
    (.binary op left.1 right.1, right.2)
  | .call₁ f t => (.call₁ f (t.numbered met).1, (t.numbered met).2)
  | .call₂ f t u =>
    let first := t.numbered met
    let second := u.numbered first.2
    (.call₂ f first.1 second.1, second.2)

/-- What is met is inserted one by one. -/
theorem numbered_snd (met : List String) (t : Term String) :
    (t.numbered met).2 = t.mentions.foldl insertNew met := by
  induction t generalizing met with
  | number value => rfl
  | column c => rfl
  | neg t ih => exact ih met
  | not t ih => exact ih met
  | binary op l r ihl ihr =>
    change (r.numbered (l.numbered met).2).2 = _
    rw [ihr, ihl, mentions, List.foldl_append]
  | call₁ f t ih => exact ih met
  | call₂ f t u iht ihu =>
    change (u.numbered (t.numbered met).2).2 = _
    rw [ihu, iht, mentions, List.foldl_append]

/-- Numbering keeps the numbers that were handed out before. -/
theorem prefix_numbered (met : List String) (t : Term String) : met <+: (t.numbered met).2 := by
  rw [numbered_snd]
  induction t.mentions generalizing met with
  | nil => exact List.prefix_refl met
  | cons c names ih => exact (prefix_insertNew met c).trans (ih _)

/-- The numbers are the positions in every list that goes on from what was met: the list of all
inputs, which is complete only when the whole formula has been read. -/
theorem numbered_fst {met all : List String} {t : Term String} (h : (t.numbered met).2 <+: all) :
    (t.numbered met).1 = t.map fun c => all.idxOf c := by
  induction t generalizing met with
  | number value => rfl
  | column c => exact congrArg column (idxOf_eq_of_insertNew h)
  | neg t ih => exact congrArg neg (ih h)
  | not t ih => exact congrArg not (ih h)
  | binary op l r ihl ihr =>
    have hl := ihl ((prefix_numbered _ r).trans h)
    have hr := ihr h
    exact congrArg₂ (binary op) hl hr
  | call₁ f t ih => exact congrArg (call₁ f) (ih h)
  | call₂ f t u iht ihu =>
    have ht := iht ((prefix_numbered _ u).trans h)
    have hu := ihu h
    exact congrArg₂ (call₂ f) ht hu

/-- A formula has the positions that are handed out from left to right, and its inputs are the
columns met in the end. -/
theorem numbered_nil (t : Term String) : t.numbered [] = ((ofTerm t).term, (ofTerm t).inputs) := by
  have hinputs : (t.numbered []).2 = t.columns :=
    (numbered_snd [] t).trans foldl_insertNew_nil
  have hall : (t.numbered []).2 <+: t.columns := by rw [hinputs]
  exact Prod.ext (numbered_fst hall) hinputs

end Term

/-! ## Evaluation without a miss -/

/-- The value of a function for a list of arguments; none if an argument that it reads is
missing. -/
def Function.applyTo? : Function → List Float → Option Float
  | .one f, xs => xs[0]?.map f.apply
  | .two f, xs => xs[0]?.bind fun x => xs[1]?.map fun y => f.apply x y

/-- A node that the reader makes of a function and its arguments has all the arguments that the
function reads. -/
theorem applyTo?_of_callTerm {name : String} {f : Function} {args : List (Term String)}
    {t : Term String} (h : callTerm name f args = .ok t) (env : String → Float) :
    args.length = f.arity ∧ f.applyTo? (args.map (Term.eval env)) = some (t.eval env) := by
  obtain ⟨terms, rfl, rfl⟩ := callTerm_eq_ok_iff.mp h
  refine ⟨List.length_ofFn, ?_⟩
  cases f with
  | one f => rfl
  | two f => rfl

namespace Term

/-- The value of a term over positions for a list of values; none if a position is beyond the list,
wherever in the term it is. -/
def eval? (values : List Float) : Term Nat → Option Float
  | .number value => some value
  | .column i => values[i]?
  | .neg t => (t.eval? values).map fun x => -x
  | .not t => (t.eval? values).map fun x => truth (x ≤ 0)
  | .binary op l r => (l.eval? values).bind fun x => (r.eval? values).map fun y => op.apply x y
  | .call₁ f t => (t.eval? values).bind fun x => (Function.one f).applyTo? [x]
  | .call₂ f t u =>
    (t.eval? values).bind fun x => (u.eval? values).bind fun y => (Function.two f).applyTo? [x, y]

/-- If all positions are within the list, no look-up fails. -/
theorem eval?_eq_some {values : List Float} {t : Term Nat}
    (h : ∀ i ∈ t.mentions, i < values.length) :
    t.eval? values = some (t.eval fun i => values.getD i 0) := by
  induction t with
  | number value => rfl
  | column i =>
    have hi : i < values.length := h i (List.mem_singleton.2 rfl)
    simp [eval?, eval, hi]
  | neg t ih => rw [eval?, ih h]; rfl
  | not t ih => rw [eval?, ih h]; rfl
  | binary op l r ihl ihr =>
    rw [eval?, ihl fun i hi => h i (List.mem_append_left _ hi),
      ihr fun i hi => h i (List.mem_append_right _ hi)]
    rfl
  | call₁ f t ih => rw [eval?, ih h]; rfl
  | call₂ f t u iht ihu =>
    rw [eval?, iht fun i hi => h i (List.mem_append_left _ hi),
      ihu fun i hi => h i (List.mem_append_right _ hi)]
    rfl

theorem mentions_map {ι κ : Type} (f : ι → κ) (t : Term ι) :
    (t.map f).mentions = t.mentions.map f := by
  induction t <;> simp_all [map, mentions]

end Term

/-- Every position of a formula is the position of one of its inputs. -/
theorem lt_of_mem_mentions {t : Term String} {i : Nat} (h : i ∈ (ofTerm t).term.mentions) :
    i < (ofTerm t).inputs.length := by
  change i ∈ (t.map fun c => t.columns.idxOf c).mentions at h
  rw [Term.mentions_map] at h
  obtain ⟨c, hc, rfl⟩ := List.mem_map.1 h
  exact List.idxOf_lt_length_iff.2 (List.mem_eraseDups.2 hc)

/-- Given the values of its inputs in order, a formula has the value of its tree with the columns
looked up by name. -/
theorem eval_ofTerm (t : Term String) (env : String → Float) :
    (ofTerm t).eval ((ofTerm t).inputs.map env) = t.eval env := by
  change (t.map fun c => t.columns.idxOf c).eval _ = _
  rw [Term.eval_map]
  refine Term.eval_congr t fun c hc => ?_
  have hmem : c ∈ t.columns := List.mem_eraseDups.2 hc
  have hlookup : t.columns[t.columns.idxOf c]? = some c := List.getElem?_idxOf hmem
  change ((t.columns.map env)[t.columns.idxOf c]?).getD 0 = env c
  rw [List.getElem?_map, hlookup]
  rfl

end VariHist.Formula
