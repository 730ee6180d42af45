import Mathlib
import VariHist.Proofs.Formula.Lexing
import VariHist.Table.Basic

/-!
# Scanning bytes

A formula may be scanned by its bytes in UTF-8, one position after another, each byte taken as the
character of its number.  Such a scan cuts pieces out of the text by their byte positions, which
is an error inside a character.  It never happens: every byte that a token is found by is ASCII, and
so a piece begins and ends where characters do.

* `byteAt?`, `slice?`, `numberEnd`, `nameEnd`, `scanBytes` — the scan.
* `byteAt?_position`, `slice?_position_eq_some_iff` — what it finds where a character begins.
* `scanBytes_position` — from there it goes on as the scan of characters does, by induction on the
  rest of the text.
-/

namespace VariHist.Formula

/-! ## The scan -/

/-- The byte at a position, taken as the character of the same number. -/
def byteAt? (source : String) (i : Nat) : Option Char :=
  source.toByteArray.data[i]?.map fun b => Char.ofNat b.toNat

/-- The text between two positions; `none` unless both are between characters. -/
def slice? (source : String) (i j : Nat) : Option String :=
  if h : i ≤ j ∧ (⟨i⟩ : String.Pos.Raw).IsValid source ∧ (⟨j⟩ : String.Pos.Raw).IsValid source then
    some (String.extract ⟨⟨i⟩, h.2.1⟩ ⟨⟨j⟩, h.2.2⟩)
  else none

theorem lt_of_byteAt?_eq_some {source : String} {i : Nat} {c : Char}
    (h : byteAt? source i = some c) : i < source.utf8ByteSize := by
  obtain ⟨b, hb, -⟩ := Option.map_eq_some_iff.1 h
  exact (Array.getElem?_eq_some_iff.1 hb).1

/-- Does a number that begins at `start` go on with `d` at `i`?  A sign has to stand right after an
exponent mark. -/
def numberGoesOn (source : String) (start i : Nat) (d : Char) : Bool :=
  d.isDigit || d = '.' || d = 'e' || d = 'E' ||
    ((d = '+' || d = '-') && decide (start < i) &&
      (byteAt? source (i - 1)).any fun p => p = 'e' || p = 'E')

/-- Where a number that begins at `start` and goes on at least to `i` ends. -/
def numberEnd (source : String) (start i : Nat) : Nat :=
  match h : byteAt? source i with
  | none => i
  | some d => if numberGoesOn source start i d then numberEnd source start (i + 1) else i
termination_by source.utf8ByteSize - i
decreasing_by
  have := lt_of_byteAt?_eq_some h
  omega

/-- Where a name that goes on at least to `i` ends. -/
def nameEnd (source : String) (i : Nat) : Nat :=
  match h : byteAt? source i with
  | none => i
  | some d => if continuesName d then nameEnd source (i + 1) else i
termination_by source.utf8ByteSize - i
decreasing_by
  have := lt_of_byteAt?_eq_some h
  omega

/-- The operator that two characters spell. -/
def pairOf? (text : String) : Option Operator :=
  match text.toList with
  | [c, d] => pairOperator? c d
  | _ => none

section Ends

variable {source : String} {start i : Nat} {c d : Char}

theorem numberEnd_of_none (h : byteAt? source i = none) : numberEnd source start i = i := by
  rw [numberEnd]
  split
  · rfl
  · simp_all

theorem numberEnd_of_some (h : byteAt? source i = some d) : numberEnd source start i =
    if numberGoesOn source start i d then numberEnd source start (i + 1) else i := by
  rw [numberEnd]
  split
  · simp_all
  · simp_all

theorem nameEnd_of_none (h : byteAt? source i = none) : nameEnd source i = i := by
  rw [nameEnd]
  split
  · rfl
  · simp_all

theorem nameEnd_of_some (h : byteAt? source i = some d) :
    nameEnd source i = if continuesName d then nameEnd source (i + 1) else i := by
  rw [nameEnd]
  split
  · simp_all
  · simp_all

theorem le_numberEnd (source : String) (start i : Nat) : i ≤ numberEnd source start i := by
  fun_induction numberEnd source start i with
  | case1 => exact le_rfl
  | case2 i d h hd ih => exact Nat.le_of_succ_le ih
  | case3 => exact le_rfl

theorem le_nameEnd (source : String) (i : Nat) : i ≤ nameEnd source i := by
  fun_induction nameEnd source i with
  | case1 => exact le_rfl
  | case2 i d h hd ih => exact Nat.le_of_succ_le ih
  | case3 => exact le_rfl

/-- What a number begins with belongs to it. -/
theorem numberEnd_start (h : byteAt? source i = some c) (hc : startsNumber c = true) :
    numberEnd source i i = numberEnd source i (i + 1) := by
  have hgoes : numberGoesOn source i i c = true := by
    rcases startsNumber_iff.1 hc with hc | rfl
    · simp [numberGoesOn, hc]
    · simp [numberGoesOn]
  rw [numberEnd_of_some h, if_pos hgoes]

/-- What a name begins with belongs to it. -/
theorem nameEnd_start (h : byteAt? source i = some c) (hc : startsName c = true) :
    nameEnd source i = nameEnd source (i + 1) := by
  rw [nameEnd_of_some h, if_pos (continuesName_iff.2 (startsName_iff.1 hc).follows)]

theorem lt_numberEnd (h : byteAt? source i = some c) (hc : startsNumber c = true) :
    i < numberEnd source i i := by
  rw [numberEnd_start h hc]
  exact le_numberEnd source i (i + 1)

theorem lt_nameEnd (h : byteAt? source i = some c) (hc : startsName c = true) :
    i < nameEnd source i := by
  rw [nameEnd_start h hc]
  exact le_nameEnd source (i + 1)

end Ends

/-- The tokens of a formula from the byte at `i` on, after the tokens `found`; `none` if the text is
cut inside a character. -/
def scanBytes (source : String) (i : Nat) (found : List Token) :
    Option (Except Fault (List Token)) :=
  match h : byteAt? source i with
  | none => some (.ok found)
  | some c =>
    have := lt_of_byteAt?_eq_some h
    if isSpace c then scanBytes source (i + 1) found
    else
      match pairOf? ((slice? source i (i + 2)).getD "") with
      | some op => scanBytes source (i + 2) (found ++ [.operator op])
      | none =>
        match signToken? c with
        | some token => scanBytes source (i + 1) (found ++ [token])
        | none =>
          if hnumber : startsNumber c then
            have := lt_numberEnd h hnumber
            match slice? source i (numberEnd source i i) with
            | none => none
            | some text =>
              match Decimal.readFloat? text.toList with
              | some value => scanBytes source (numberEnd source i i) (found ++ [.number value])
              | none => some (.error (.badNumber text))
          else if hname : startsName c then
            have := lt_nameEnd h hname
            match slice? source i (nameEnd source i) with
            | none => none
            | some text => scanBytes source (nameEnd source i) (found ++ [.ident text])
          else some (.error (.badCharacter c source))
termination_by source.utf8ByteSize - i

/-- The tokens of a formula by a scan of its bytes. -/
def tokenizeBytes (source : String) : Option (Except Fault (List Token)) :=
  scanBytes source 0 []

/-! ## Positions between characters -/

/-- The bytes of characters. -/
def bytesOf (cs : List Char) : List UInt8 :=
  cs.flatMap String.utf8EncodeChar

/-- The position after characters. -/
def position (cs : List Char) : Nat :=
  (bytesOf cs).length

theorem toList_data_toByteArray (source : String) :
    source.toByteArray.data.toList = bytesOf source.toList := by
  rw [← String.utf8Encode_toList, List.utf8Encode, List.toList_data_toByteArray]
  rfl

theorem bytesOf_append (cs cs' : List Char) : bytesOf (cs ++ cs') = bytesOf cs ++ bytesOf cs' :=
  List.flatMap_append

theorem position_append (cs cs' : List Char) :
    position (cs ++ cs') = position cs + position cs' := by
  rw [position, bytesOf_append, List.length_append]
  rfl

theorem utf8ByteSize_eq_position (source : String) :
    source.utf8ByteSize = position source.toList := by
  rw [← String.size_toByteArray, position, ← toList_data_toByteArray]
  rfl

theorem utf8EncodeChar_of_ascii {c : Char} (hc : c.toNat < 128) :
    String.utf8EncodeChar c = [UInt8.ofNat c.toNat] :=
  if_pos (Nat.le_of_lt_succ hc)

/-- An ASCII character is one byte. -/
theorem position_singleton {c : Char} (hc : c.toNat < 128) : position [c] = 1 := by
  rw [position, bytesOf, List.flatMap_singleton, utf8EncodeChar_of_ascii hc]
  rfl

theorem char_toNat_lt (c : Char) : c.toNat < 0x110000 := by
  rcases c.valid with h | h
  · exact lt_trans h (by decide)
  · exact h.2

theorem head_ofNat {k n : Nat} (bytes : List UInt8) (h : k % 256 = n) :
    (UInt8.ofNat k :: bytes).head?.map (fun b => Char.ofNat b.toNat) = some (Char.ofNat n) := by
  rw [List.head?_cons, Option.map_some, UInt8.toNat_ofNat', ← h]

/-- The first byte of a character is the one that faults show. -/
theorem head_utf8EncodeChar (c : Char) :
    (String.utf8EncodeChar c).head?.map (fun b => Char.ofNat b.toNat) = some (leadByte c) := by
  have hval : c.val.toNat = c.toNat := rfl
  have hbound := char_toNat_lt c
  rw [leadByte]
  by_cases h1 : c.toNat < 0x80
  · rw [utf8EncodeChar_of_ascii h1, if_pos h1, head_ofNat (n := c.toNat) [] (by omega),
      Char.ofNat_toNat]
  rw [if_neg h1, String.utf8EncodeChar]
  simp only [hval]
  rw [if_neg (by omega)]
  by_cases h2 : c.toNat < 0x800
  · rw [if_pos (by omega), if_pos h2]
    exact head_ofNat _ (by omega)
  rw [if_neg (by omega), if_neg h2]
  by_cases h3 : c.toNat < 0x10000
  · rw [if_pos (by omega), if_pos h3]
    exact head_ofNat _ (by omega)
  · rw [if_neg (by omega), if_neg h3]
    exact head_ofNat _ (by omega)

/-- Where a character begins, its first byte is found. -/
theorem byteAt?_position {source : String} {cs cs' : List Char} (hs : source.toList = cs ++ cs') :
    byteAt? source (position cs) = cs'.head?.map leadByte := by
  rw [byteAt?, ← Array.getElem?_toList, toList_data_toByteArray, hs, bytesOf_append, position,
    List.getElem?_append_right le_rfl, Nat.sub_self, ← List.head?_eq_getElem?]
  cases cs' with
  | nil => rfl
  | cons c cs' =>
    rw [bytesOf, List.flatMap_cons, List.head?_append_of_ne_nil _ String.utf8EncodeChar_ne_nil]
    exact head_utf8EncodeChar c

/-- The faults show another character only in place of one that is not ASCII. -/
theorem leadByte_of_ascii {c : Char} (hc : c.toNat < 128) : leadByte c = c :=
  if_pos hc

theorem le_leadByte {c : Char} (hc : 128 ≤ c.toNat) : 128 ≤ (leadByte c).toNat := by
  have hbyte : ∀ n : Nat, 128 ≤ n → n < 256 → 128 ≤ (Char.ofNat n).toNat := by
    intro n h h'
    rwa [Char.toNat_ofNat, if_pos (.inl (by omega))]
  have hbound := char_toNat_lt c
  rw [leadByte, if_neg (by omega)]
  split_ifs
  all_goals exact hbyte _ (by omega) (by omega)

/-- A function that tells no characters apart that are not ASCII takes a character and its first
byte to the same. -/
theorem apply_leadByte {β : Type} {f : Char → β} {b : β} (hf : ∀ c : Char, 128 ≤ c.toNat → f c = b)
    (c : Char) : f (leadByte c) = f c := by
  by_cases hc : c.toNat < 128
  · rw [leadByte_of_ascii hc]
  · rw [hf c (Nat.le_of_not_lt hc), hf _ (le_leadByte (Nat.le_of_not_lt hc))]

theorem eq_nil_of_position_eq_zero {cs : List Char} (h : position cs = 0) : cs = [] := by
  cases cs with
  | nil => rfl
  | cons c cs =>
    have hnil : bytesOf (c :: cs) = [] := List.eq_nil_of_length_eq_zero h
    rw [bytesOf, List.flatMap_cons, List.append_eq_nil_iff] at hnil
    exact absurd hnil.1 String.utf8EncodeChar_ne_nil

/-- The positions between characters are those after the first of them. -/
theorem isValid_iff {source : String} {i : Nat} : (⟨i⟩ : String.Pos.Raw).IsValid source ↔
    ∃ cs cs', source.toList = cs ++ cs' ∧ i = position cs := by
  rw [String.Pos.Raw.isValid_iff_exists_append]
  constructor
  · rintro ⟨before, after, rfl, hi⟩
    refine ⟨before.toList, after.toList, String.toList_append, ?_⟩
    rw [← utf8ByteSize_eq_position]
    exact congrArg String.Pos.Raw.byteIdx hi
  · rintro ⟨cs, cs', hs, rfl⟩
    refine ⟨String.ofList cs, String.ofList cs', ?_, ?_⟩
    · rw [← String.toList_inj, String.toList_append, String.toList_ofList, String.toList_ofList, hs]
    · rw [String.Pos.Raw.ext_iff, String.byteIdx_rawEndPos, utf8ByteSize_eq_position,
        String.toList_ofList]

/-- The text between two positions is what the characters between them spell. -/
theorem extract_eq {source : String} {p q : source.Pos} {cs body rest : List Char}
    (hs : source.toList = cs ++ (body ++ rest)) (hp : p.offset.byteIdx = position cs)
    (hq : q.offset.byteIdx = position (cs ++ body)) : String.extract p q = String.ofList body := by
  rw [← String.toByteArray_inj, String.toByteArray_extract, String.toByteArray_ofList, hp, hq]
  refine ByteArray.ext (Array.toList_inj.1 ?_)
  rw [ByteArray.data_extract, Array.toList_extract, toList_data_toByteArray, hs, List.utf8Encode,
    List.toList_data_toByteArray, List.extract_eq_take_drop, bytesOf_append, bytesOf_append,
    position_append, Nat.add_sub_cancel_left, position, List.drop_left', List.take_left']
  all_goals rfl

/-- From where a character begins, a text is cut out that the next characters spell. -/
theorem slice?_position_eq_some_iff {source text : String} {cs cs' : List Char} {j : Nat}
    (hs : source.toList = cs ++ cs') :
    slice? source (position cs) j = some text ↔
      ∃ rest, cs' = text.toList ++ rest ∧ j = position (cs ++ text.toList) := by
  rw [slice?]
  constructor
  · intro h
    split at h
    · rename_i hcut
      obtain ⟨ds, ds', hs', rfl⟩ := isValid_iff.1 hcut.2.2
      obtain ⟨body, rfl, rfl⟩ : ∃ body, ds = cs ++ body ∧ cs' = body ++ ds' := by
        rcases List.append_eq_append_iff.1 (hs.symm.trans hs') with h | ⟨extra, rfl, hds'⟩
        · exact h
        · -- the second position would be before the first one
          have hextra : position extra = 0 := by
            have := hcut.1
            rw [position_append] at this
            omega
          obtain rfl := eq_nil_of_position_eq_zero hextra
          exact ⟨[], by simp, hds'.symm⟩
      rw [extract_eq hs rfl rfl] at h
      rw [← Option.some.inj h, String.toList_ofList]
      exact ⟨ds', rfl, rfl⟩
    · cases h
  · rintro ⟨rest, rfl, rfl⟩
    have hcut : position cs ≤ position (cs ++ text.toList) ∧
        (⟨position cs⟩ : String.Pos.Raw).IsValid source ∧
        (⟨position (cs ++ text.toList)⟩ : String.Pos.Raw).IsValid source := by
      refine ⟨?_, isValid_iff.2 ⟨_, _, hs, rfl⟩, isValid_iff.2 ⟨_, rest, ?_, rfl⟩⟩
      · rw [position_append]
        exact Nat.le_add_right _ _
      · rw [hs, List.append_assoc]
    rw [dif_pos hcut, extract_eq hs rfl rfl, String.ofList_toList]

/-! ## From position to position -/

section Positions

variable {source : String} {cs rest : List Char} {c p : Char} {start : Nat}

theorem leadByte_eq_of_graphic {f : Char → Bool} (hf : ∀ c, f c = true → Graphic c) (c : Char) :
    f (leadByte c) = f c := by
  refine apply_leadByte (b := false) (fun c hc => ?_) c
  rw [Bool.eq_false_iff]
  exact fun h => absurd (hf c h).2 (Nat.not_lt_of_le hc)

theorem isSpace_leadByte (c : Char) : isSpace (leadByte c) = isSpace c := by
  refine apply_leadByte (b := false) (fun c hc => ?_) c
  rw [Bool.eq_false_iff]
  exact fun h => absurd (toNat_lt_of_isSpace h) (Nat.not_lt_of_le hc)

theorem signToken?_leadByte (c : Char) : signToken? (leadByte c) = signToken? c :=
  apply_leadByte (fun _ => signToken?_eq_none) c

theorem startsNumber_leadByte (c : Char) : startsNumber (leadByte c) = startsNumber c :=
  leadByte_eq_of_graphic (fun _ h => (startsNumber_iff.1 h).graphic) c

theorem startsName_leadByte (c : Char) : startsName (leadByte c) = startsName c :=
  leadByte_eq_of_graphic (fun _ h => (startsName_iff.1 h).follows.graphic) c

theorem position_concat (hc : c.toNat < 128) : position (cs ++ [c]) = position cs + 1 := by
  rw [position_append, position_singleton hc]

/-- After an ASCII character a number goes on as the scan of characters has it. -/
theorem numberGoesOn_position (hs : source.toList = cs ++ [p] ++ rest) (hp : p.toNat < 128)
    (hstart : start ≤ position cs) (d : Char) :
    numberGoesOn source start (position (cs ++ [p])) d = continuesNumber p d := by
  have hprevious : byteAt? source (position (cs ++ [p]) - 1) = some p := by
    rw [List.append_assoc] at hs
    rw [position_concat hp, Nat.add_sub_cancel, byteAt?_position hs]
    exact congrArg some (leadByte_of_ascii hp)
  have hlt : start < position (cs ++ [p]) := by
    rw [position_concat hp]
    exact Nat.lt_succ_of_le hstart
  rw [numberGoesOn, hprevious, decide_eq_true hlt, Bool.and_true]
  rfl

/-- After an ASCII character a number ends where it does in the scan of characters. -/
theorem numberEnd_position (hs : source.toList = cs ++ [p] ++ rest) (hp : p.toNat < 128)
    (hstart : start ≤ position cs) :
    numberEnd source start (position (cs ++ [p])) =
      position (cs ++ [p] ++ (spanNumber p rest).1) := by
  induction rest generalizing cs p with
  | nil =>
    rw [numberEnd_of_none (by rw [byteAt?_position hs]; rfl), spanNumber, List.append_nil]
  | cons d rest ih =>
    have hbyte : byteAt? source (position (cs ++ [p])) = some (leadByte d) := byteAt?_position hs
    rw [numberEnd_of_some hbyte, numberGoesOn_position hs hp hstart,
      leadByte_eq_of_graphic (fun _ h => (continuesNumber_iff.1 h).graphic), spanNumber]
    split
    · rename_i hd
      have hascii := (continuesNumber_iff.1 hd).graphic.2
      have hs' : source.toList = cs ++ [p] ++ [d] ++ rest := by rw [hs]; simp
      have hstart' : start ≤ position (cs ++ [p]) := by
        rw [position_concat hp]
        exact Nat.le_succ_of_le hstart
      rw [← position_concat hascii, ih hs' hascii hstart']
      simp
    · rw [List.append_nil]

/-- A name ends where it does in the scan of characters. -/
theorem nameEnd_position (hs : source.toList = cs ++ rest) :
    nameEnd source (position cs) = position (cs ++ rest.takeWhile continuesName) := by
  induction rest generalizing cs with
  | nil =>
    rw [nameEnd_of_none (by rw [byteAt?_position hs]; rfl), List.takeWhile_nil, List.append_nil]
  | cons d rest ih =>
    have hbyte : byteAt? source (position cs) = some (leadByte d) := byteAt?_position hs
    rw [nameEnd_of_some hbyte,
      leadByte_eq_of_graphic (fun _ h => (continuesName_iff.1 h).graphic), List.takeWhile_cons]
    split
    · rename_i hd
      have hs' : source.toList = cs ++ [d] ++ rest := by rw [hs]; simp
      rw [← position_concat (continuesName_iff.1 hd).graphic.2, ih hs']
      simp
    · rw [List.append_nil]

/-- A text that ends between characters is cut out. -/
theorem slice?_eq {body : List Char} (hs : source.toList = cs ++ (body ++ rest)) :
    slice? source (position cs) (position (cs ++ body)) = some (String.ofList body) := by
  refine (slice?_position_eq_some_iff hs).2 ⟨rest, ?_, ?_⟩
  all_goals rw [String.toList_ofList]

theorem pairOf?_eq_some_iff {text : String} {op : Operator} :
    pairOf? text = some op ↔ ∃ c d, text.toList = [c, d] ∧ pairOperator? c d = some op := by
  rw [pairOf?]
  constructor
  · intro h
    split at h
    · exact ⟨_, _, ‹_›, h⟩
    · cases h
  · rintro ⟨c, d, htext, hop⟩
    rw [htext]
    exact hop

theorem position_pair {d : Char} {op : Operator} (h : pairOperator? c d = some op) :
    position (cs ++ [c, d]) = position cs + 2 := by
  have hmem : ([c, d], Token.operator op) ∈ signs := mem_signs_iff.2 (.inl ⟨c, d, op, rfl, rfl, h⟩)
  have hc := (graphic_of_mem_signs hmem List.mem_cons_self).2
  have hd := (graphic_of_mem_signs hmem (List.mem_cons_of_mem c List.mem_cons_self)).2
  have hpair : cs ++ [c, d] = cs ++ [c] ++ [d] := by simp
  rw [hpair, position_concat hd, position_concat hc]

/-- The two bytes from where a character begins spell an operator if it does with the next one. -/
theorem pairOf?_position (hs : source.toList = cs ++ c :: rest) :
    pairOf? ((slice? source (position cs) (position cs + 2)).getD "") =
      rest.head?.bind (pairOperator? c) := by
  refine Option.ext fun op => ?_
  rw [pairOf?_eq_some_iff, Option.bind_eq_some_iff]
  constructor
  · rintro ⟨c', d, htext, hop⟩
    cases hslice : slice? source (position cs) (position cs + 2) with
    | none =>
      rw [hslice] at htext
      cases htext
    | some text =>
      rw [hslice, Option.getD_some] at htext
      obtain ⟨rest', hrest, -⟩ := (slice?_position_eq_some_iff hs).1 hslice
      rw [htext] at hrest
      cases hrest
      exact ⟨d, rfl, hop⟩
  · rintro ⟨d, hd, hop⟩
    obtain ⟨rest, rfl⟩ := List.head?_eq_some_iff.1 hd
    have hslice : slice? source (position cs) (position cs + 2) = some (String.ofList [c, d]) := by
      rw [← position_pair hop]
      exact slice?_eq hs
    rw [hslice]
    exact ⟨c, d, String.toList_ofList, hop⟩

theorem numberEnd_eq (hs : source.toList = cs ++ c :: rest) (hc : NumberStart c) :
    numberEnd source (position cs) (position cs) =
      position (cs ++ c :: (spanNumber c rest).1) := by
  have hascii := hc.graphic.2
  have hbyte : byteAt? source (position cs) = some c := by
    rw [byteAt?_position hs]
    exact congrArg some (leadByte_of_ascii hascii)
  have hs' : source.toList = cs ++ [c] ++ rest := by rw [hs]; simp
  rw [numberEnd_start hbyte (startsNumber_iff.2 hc), ← position_concat hascii,
    numberEnd_position hs' hascii le_rfl]
  simp

theorem nameEnd_eq (hs : source.toList = cs ++ c :: rest) (hc : NameStart c) :
    nameEnd source (position cs) = position (cs ++ c :: rest.takeWhile continuesName) := by
  rw [nameEnd_position hs, List.takeWhile_cons_of_pos (continuesName_iff.2 hc.follows)]

/-- The text of a number is cut out between characters. -/
theorem slice?_numberEnd (hs : source.toList = cs ++ c :: rest) (hc : NumberStart c) :
    slice? source (position cs) (numberEnd source (position cs) (position cs)) =
      some (String.ofList (c :: (spanNumber c rest).1)) := by
  have hrest : rest = (spanNumber c rest).1 ++ (spanNumber c rest).2 := (spanNumber_eq_iff.1 rfl).1
  have hs' : source.toList = cs ++ (c :: (spanNumber c rest).1 ++ (spanNumber c rest).2) := by
    rw [List.cons_append, ← hrest, hs]
  rw [numberEnd_eq hs hc]
  exact slice?_eq hs'

/-- The text of a name is cut out between characters. -/
theorem slice?_nameEnd (hs : source.toList = cs ++ c :: rest) (hc : NameStart c) :
    slice? source (position cs) (nameEnd source (position cs)) =
      some (String.ofList (c :: rest.takeWhile continuesName)) := by
  have hs' : source.toList =
      cs ++ (c :: rest.takeWhile continuesName ++ rest.dropWhile continuesName) := by
    rw [List.cons_append, List.takeWhile_append_dropWhile, hs]
  rw [nameEnd_eq hs hc]
  exact slice?_eq hs'

/-! ## The whole scan -/

theorem scanBytes_of_none {i : Nat} {found : List Token} (h : byteAt? source i = none) :
    scanBytes source i found = some (.ok found) := by
  rw [scanBytes]
  split
  · rfl
  · simp_all

theorem scanBytes_of_some {i : Nat} {found : List Token} (h : byteAt? source i = some c) :
    scanBytes source i found =
      if isSpace c then scanBytes source (i + 1) found
      else
        match pairOf? ((slice? source i (i + 2)).getD "") with
        | some op => scanBytes source (i + 2) (found ++ [.operator op])
        | none =>
          match signToken? c with
          | some token => scanBytes source (i + 1) (found ++ [token])
          | none =>
            if startsNumber c then
              match slice? source i (numberEnd source i i) with
              | none => none
              | some text =>
                match Decimal.readFloat? text.toList with
                | some value => scanBytes source (numberEnd source i i) (found ++ [.number value])
                | none => some (.error (.badNumber text))
            else if startsName c then
              match slice? source i (nameEnd source i) with
              | none => none
              | some text => scanBytes source (nameEnd source i) (found ++ [.ident text])
            else some (.error (.badCharacter c source)) := by
  rw [scanBytes]
  split
  · simp_all
  · rename_i c' hc'
    obtain rfl := Option.some.inj (hc'.symm.trans h)
    rfl

/-- White space is passed over byte by byte. -/
theorem scanBytes_space (hs : source.toList = cs ++ c :: rest) (hspace : isSpace c = true)
    (found : List Token) :
    scanBytes source (position cs) found = scanBytes source (position (cs ++ [c])) found := by
  have hbyte : byteAt? source (position cs) = some (leadByte c) := byteAt?_position hs
  rw [scanBytes_of_some hbyte, isSpace_leadByte, if_pos hspace,
    position_concat (toNat_lt_of_isSpace hspace)]

/-- From where a character begins, the bytes yield the token or the fault that the characters do,
and a token takes as many bytes as its characters have. -/
theorem scanBytes_token (hs : source.toList = cs ++ c :: rest) (hspace : isSpace c = false)
    (found : List Token) :
    (∃ token body left, nextToken source c rest = .ok (token, left) ∧ rest = body ++ left.1 ∧
      scanBytes source (position cs) found =
        scanBytes source (position (cs ++ c :: body)) (found ++ [token])) ∨
    ∃ fault, nextToken source c rest = .error fault ∧
      scanBytes source (position cs) found = some (.error fault) := by
  have hbyte : byteAt? source (position cs) = some (leadByte c) := byteAt?_position hs
  rw [scanBytes_of_some hbyte, isSpace_leadByte, pairOf?_position hs, signToken?_leadByte,
    startsNumber_leadByte, startsName_leadByte, if_neg (Bool.eq_false_iff.1 hspace)]
  cases hpair : rest.head?.bind (pairOperator? c) with
  | some op =>
    obtain ⟨d, hd, hop⟩ := Option.bind_eq_some_iff.1 hpair
    obtain ⟨rest, rfl⟩ := List.head?_eq_some_iff.1 hd
    refine .inl ⟨_, [d], _, nextToken_of_pair hpair, rfl, ?_⟩
    rw [position_pair hop]
  | none =>
    cases hsign : signToken? c with
    | some token =>
      have hc : c.toNat < 128 := by
        by_contra hc
        rw [signToken?_eq_none (Nat.le_of_not_lt hc)] at hsign
        cases hsign
      refine .inl ⟨_, [], _, nextToken_of_sign hpair hsign, rfl, ?_⟩
      rw [position_concat hc]
    | none =>
      by_cases hnumber : NumberStart c
      · simp only [if_pos (startsNumber_iff.2 hnumber), slice?_numberEnd hs hnumber,
          String.toList_ofList]
        cases hread : Decimal.readFloat? (c :: (spanNumber c rest).1) with
        | some value =>
          refine .inl ⟨_, _, _, nextToken_of_number hpair hsign hnumber hread,
            (spanNumber_eq_iff.1 rfl).1, ?_⟩
          rw [numberEnd_eq hs hnumber]
        | none => exact .inr ⟨_, nextToken_of_badNumber hpair hsign hnumber hread, rfl⟩
      · by_cases hname : NameStart c
        · simp only [if_neg (startsNumber_iff.not.2 hnumber), if_pos (startsName_iff.2 hname),
            slice?_nameEnd hs hname]
          refine .inl ⟨_, _, _, nextToken_of_name hpair hsign hname,
            List.takeWhile_append_dropWhile.symm, ?_⟩
          rw [nameEnd_eq hs hname]
        · simp only [if_neg (startsNumber_iff.not.2 hnumber), if_neg (startsName_iff.not.2 hname)]
          exact .inr ⟨_, nextToken_of_none hpair hsign hnumber hname, rfl⟩

/-- From where a character begins, the bytes are scanned as the characters are. -/
theorem scanBytes_position (hs : source.toList = cs ++ rest) (found : List Token) :
    scanBytes source (position cs) found = some ((scan source rest).map (found ++ ·)) := by
  induction hn : rest.length using Nat.strong_induction_on generalizing cs rest found with
  | _ n ih =>
    subst hn
    cases rest with
    | nil =>
      rw [scanBytes_of_none (by rw [byteAt?_position hs]; rfl), scan, Except.map, List.append_nil]
    | cons c rest =>
      by_cases hspace : isSpace c = true
      · have hs' : source.toList = cs ++ [c] ++ rest := by rw [hs]; simp
        rw [scanBytes_space hs hspace, scan_cons_of_isSpace hspace]
        exact ih _ (Nat.lt_succ_self _) hs' found rfl
      · rw [Bool.not_eq_true] at hspace
        obtain ⟨token, body, left, hnext, hrest, hscan⟩ | ⟨fault, hnext, hscan⟩ :=
          scanBytes_token hs hspace found
        · have hs' : source.toList = cs ++ c :: body ++ left.1 := by
            rw [List.append_assoc, List.cons_append, ← hrest, hs]
          rw [hscan, ih _ (Nat.lt_succ_of_le left.2) hs' _ rfl, scan_of_nextToken hspace hnext]
          cases scan source left.1 <;> simp [Except.map]
        · rw [hscan, scan_of_nextToken_error hspace hnext]
          rfl

/-- A scan of the bytes never cuts a character, and it finds what the scan of characters does. -/
theorem tokenizeBytes_eq (source : String) : tokenizeBytes source = some (tokenize source) := by
  have hscan : scanBytes source (position []) [] =
      some ((scan source source.toList).map ([] ++ ·)) := scanBytes_position rfl []
  rw [tokenizeBytes, tokenize]
  refine hscan.trans (congrArg some ?_)
  cases scan source source.toList <;> rfl

end Positions

/-! ## Faithful tokens -/

/-- A formula that holds a character that is not ASCII is refused. -/
theorem exists_fault_of_not_ascii {source : String} {c : Char} (hc : c ∈ source.toList)
    (hascii : 128 ≤ c.toNat) : ∃ fault, tokenize source = .error fault := by
  cases h : tokenize source with
  | error fault => exact ⟨fault, rfl⟩
  | ok tokens =>
    obtain ⟨pieces, trailing, hdiv, htext, -⟩ := scan_eq_ok_iff.1 h
    exact absurd (hdiv.ascii (htext ▸ hc)) (Nat.not_lt_of_le hascii)

/-- A formula that is not scanned is not compiled, for the same fault. -/
theorem compile_of_tokenize_error {source : String} {fault : Fault}
    (h : tokenize source = .error fault) : compile source = .error fault := by
  rw [compile, parse, h]
  rfl

/-- Texts of tokens with white space between neighbours are scanned into these tokens.  A text that
is scanned has exactly one division into its tokens, and white space that is put in before, after
or between them leaves the tokens as they are.  A formula that holds a character that is not ASCII
is refused as a formula.  A scan of the bytes finds the same and never cuts a character. -/
theorem tokenize_faithful :
    (∀ (pieces : List Piece) (trailing : List Char),
      (∀ p ∈ pieces, Blank p.gap ∧ Spells p.lexeme p.token) → (∀ p ∈ pieces.tail, p.gap ≠ []) →
      Blank trailing →
      tokenize (String.ofList (textOf pieces trailing)) = .ok (pieces.map Piece.token)) ∧
    (∀ (source : String) (tokens : List Token), tokenize source = .ok tokens →
      ∃ pieces trailing, Divides pieces trailing ∧ textOf pieces trailing = source.toList ∧
        pieces.map Piece.token = tokens ∧
        (∀ pieces' trailing', Divides pieces' trailing' →
          textOf pieces' trailing' = source.toList → pieces' = pieces ∧ trailing' = trailing) ∧
        ∀ pieces' trailing', List.Forall₂ Spaced pieces pieces' →
          trailing.Sublist trailing' → Blank trailing' →
          tokenize (String.ofList (textOf pieces' trailing')) = .ok tokens) ∧
    (∀ (source : String) (c : Char), c ∈ source.toList → 128 ≤ c.toNat →
      ∃ fault, tokenize source = .error fault ∧ compile source = .error fault ∧
        ∀ {α : Type} (t : EventTable α) (name : String),
          t.defineFormula name source = .error (.formula fault)) ∧
    ∀ source : String, tokenizeBytes source = some (tokenize source) := by
  have hscan : ∀ {pieces : List Piece} {trailing : List Char}, Divides pieces trailing →
      tokenize (String.ofList (textOf pieces trailing)) = .ok (pieces.map Piece.token) := by
    intro pieces trailing hdiv
    rw [tokenize, String.toList_ofList]
    exact scan_eq_ok_iff.2 ⟨pieces, trailing, hdiv, rfl, rfl⟩
  refine ⟨?join, ?insert, ?ascii, tokenizeBytes_eq⟩
  case join =>
    intro pieces trailing hpieces hgaps htrailing
    exact hscan (divides_of_gaps hpieces hgaps htrailing)
  case insert =>
    intro source tokens h
    obtain ⟨pieces, trailing, hdiv, htext, rfl⟩ := scan_eq_ok_iff.1 h
    refine ⟨pieces, trailing, hdiv, htext, rfl, ?_, ?_⟩
    · intro pieces' trailing' hdiv' htext'
      exact hdiv'.unique hdiv (htext'.trans htext.symm)
    · intro pieces' trailing' hpieces htrailing hblank
      rw [hscan (hdiv.regap hpieces htrailing hblank), map_token_of_spaced hpieces]
  case ascii =>
    intro source c hc hascii
    obtain ⟨fault, hfault⟩ := exists_fault_of_not_ascii hc hascii
    have hcompile := compile_of_tokenize_error hfault
    refine ⟨fault, hfault, hcompile, fun t name => ?_⟩
    rw [EventTable.defineFormula, hcompile]

/-- Signs that would run together, and a minus after an exponent mark and after a number. -/
theorem tokenize_of_spaced_signs :
    tokenize "x < == 1e-3 -\n3" =
      .ok [.ident "x", .operator .lt, .operator .eq, .number (Decimal.Parsed.toFloat ⟨1, -3⟩),
        .minus, .number (Decimal.Parsed.toFloat ⟨3, 0⟩)] := by
  have hone : Decimal.readFloat? ['1', 'e', '-', '3'] = some (Decimal.Parsed.toFloat ⟨1, -3⟩) :=
    congrArg (Option.map Decimal.Parsed.toFloat)
      (by decide : Decimal.parse? ['1', 'e', '-', '3'] = some ⟨1, -3⟩)
  have hthree : Decimal.readFloat? ['3'] = some (Decimal.Parsed.toFloat ⟨3, 0⟩) :=
    congrArg (Option.map Decimal.Parsed.toFloat) (by decide : Decimal.parse? ['3'] = some ⟨3, 0⟩)
  have htokens := tokenize_faithful.1
    [⟨[], ['x'], .ident "x"⟩, ⟨[' '], ['<'], .operator .lt⟩, ⟨[' '], ['=', '='], .operator .eq⟩,
      ⟨[' '], ['1', 'e', '-', '3'], .number (Decimal.Parsed.toFloat ⟨1, -3⟩)⟩,
      ⟨[' '], ['-'], .minus⟩, ⟨['\n'], ['3'], .number (Decimal.Parsed.toFloat ⟨3, 0⟩)⟩] []
    ?_ ?_ ?_
  · exact htokens
  · simp only [List.forall_mem_cons]
    refine ⟨⟨?_, .name (.inl (by decide)) (by simp)⟩, ⟨?_, .sign (by simp [signs])⟩,
      ⟨?_, .sign (by simp [signs])⟩,
      ⟨?_, .number (.inl (by decide)) (by simp [NumberFollows, Char.isDigit]) hone⟩,
      ⟨?_, .sign (by simp [signs])⟩,
      ⟨?_, .number (.inl (by decide)) (by simp) hthree⟩, List.forall_mem_nil _⟩
    all_goals simp [Blank, isSpace]
  · simp
  · exact List.forall_mem_nil _

end VariHist.Formula
