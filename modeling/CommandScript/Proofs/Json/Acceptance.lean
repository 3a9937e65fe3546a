import CommandScript.Proofs.Json.Grammar
import Mathlib
/-! # What the JSON reader accepts

The reader accepts no text outside the grammar, and takes a text for nothing but the value that it
spells. What a string is said to denote, it denotes by the rules for escapes.
-/
namespace CommandScript.Json

section Strings
variable {cs raw rest text : List Char}

theorem exists_hexDigit {c : Char} (h : isHex c = true) : ∃ n, HexDigit c n := by
  have hsmall : ∀ i : Fin 128, isHex (Char.ofNat i) = true →
      ∃ n : Fin 16, HexDigit (Char.ofNat i) n := by decide
  have hlt : c.toNat < 128 := by
    simp only [isHex, Char.isDigit, Bool.or_eq_true, Bool.and_eq_true, decide_eq_true_eq,
      Char.le_def, UInt32.le_iff_toNat_le, ge_iff_le] at h
    have h9 : ('9' : Char).val.toNat = 57 := rfl
    have hf : ('f' : Char).val.toNat = 102 := rfl
    have hF : ('F' : Char).val.toNat = 70 := rfl
    unfold Char.toNat
    omega
  obtain ⟨n, hn⟩ := hsmall ⟨c.toNat, hlt⟩ (by rwa [Char.ofNat_toNat])
  rw [Char.ofNat_toNat] at hn
  exact ⟨n, hn⟩

theorem exists_codeUnit {a b c d : Char} (h : (isHex a && isHex b && isHex c && isHex d) = true) :
    ∃ n, CodeUnit a b c d n := by
  simp only [Bool.and_eq_true] at h
  obtain ⟨⟨⟨ha, hb⟩, hc⟩, hd⟩ := h
  obtain ⟨_, ha⟩ := exists_hexDigit ha
  obtain ⟨_, hb⟩ := exists_hexDigit hb
  obtain ⟨_, hc⟩ := exists_hexDigit hc
  obtain ⟨_, hd⟩ := exists_hexDigit hd
  exact ⟨_, .intro ha hb hc hd⟩

theorem exists_shortEscape {c : Char} (h : isShortEscape c = true) :
    ∃ e, (c, e) ∈ shortEscapes := by
  have hmem : c ∈ shortEscapes.map (·.1) := of_decide_eq_true h
  obtain ⟨⟨_, e⟩, he, rfl⟩ := List.mem_map.mp hmem
  exact ⟨e, he⟩

/-- What the reader takes for a string is one. -/
theorem rawString_of_scanString (h : scanString cs = some (raw, rest)) :
    RawString raw ∧ cs = raw ++ '"' :: rest := by
  induction cs using scanString.induct generalizing raw with
  | case1 => simp [scanString] at h
  | case2 rest =>
    simp only [scanString, Option.some.injEq, Prod.mk.injEq] at h
    obtain ⟨rfl, rfl⟩ := h
    exact ⟨.nil, rfl⟩
  | case3 a b c d cs hx ih =>
    simp only [scanString, hx, ↓reduceIte, Option.map_eq_some_iff] at h
    obtain ⟨⟨raw, rest⟩, hscan, ⟨⟩⟩ := h
    obtain ⟨hraw, rfl⟩ := ih hscan
    obtain ⟨n, hunit⟩ := exists_codeUnit hx
    exact ⟨.unit hunit hraw, rfl⟩
  | case4 a b c d cs hx => simp [scanString, hx] at h
  | case5 c cs hx hs ih =>
    rw [scanString] at h
    · simp only [hs, ↓reduceIte, Option.map_eq_some_iff] at h
      obtain ⟨⟨raw, rest⟩, hscan, ⟨⟩⟩ := h
      obtain ⟨hraw, rfl⟩ := ih hscan
      obtain ⟨e, he⟩ := exists_shortEscape hs
      exact ⟨.short he hraw, rfl⟩
    all_goals assumption
  | case6 c cs hx hs =>
    rw [scanString] at h
    · simp [hs] at h
    all_goals assumption
  | case7 c cs h₁ h₂ h₃ hc =>
    rw [scanString] at h
    · simp [hc] at h
    all_goals assumption
  | case8 c cs h₁ h₂ h₃ hc ih =>
    rw [scanString] at h
    · simp only [hc, ↓reduceIte, Option.map_eq_some_iff] at h
      obtain ⟨⟨raw, rest⟩, hscan, ⟨⟩⟩ := h
      obtain ⟨hraw, rfl⟩ := ih hscan
      obtain ⟨hslash, hcontrol⟩ := not_or.mp hc
      exact ⟨.plain h₁ hslash (Nat.le_of_not_lt hcontrol) hraw, rfl⟩
    all_goals assumption

theorem unescapeChars?_high {a b c d : Char} {n : Nat} (hunit : CodeUnit a b c d n)
    (hhigh : isHighSurrogate n = true) (hraw : RawString raw)
    (h : unescapeChars? ('\\' :: 'u' :: a :: b :: c :: d :: raw) = some text) :
    ∃ a' b' c' d' m raw' text', raw = '\\' :: 'u' :: a' :: b' :: c' :: d' :: raw' ∧
      CodeUnit a' b' c' d' m ∧ isLowSurrogate m = true ∧ RawString raw' ∧
      unescapeChars? raw' = some text' ∧ text = joinSurrogates n m :: text' := by
  rw [unescapeChars?, unit?_of_codeUnit hunit] at h
  simp only [hhigh, ↓reduceIte] at h
  cases hraw with
  | nil => cases h
  | plain _ hslash _ _ =>
    split at h
    · rename_i heq
      cases heq
      exact absurd rfl hslash
    · cases h
  | short hletter _ =>
    split at h
    · rename_i heq
      cases heq
      exact absurd hletter (by simp [shortEscapes])
    · cases h
  | unit hunit' hraw' =>
    simp only [unit?_of_codeUnit hunit'] at h
    split at h
    · rename_i hlow
      obtain ⟨text', htext, rfl⟩ := Option.map_eq_some_iff.mp h
      exact ⟨_, _, _, _, _, _, text', rfl, hunit', hlow, hraw', htext, rfl⟩
    · cases h

theorem isSurrogate_cases (n : Nat) :
    isHighSurrogate n = true ∨ isLowSurrogate n = true ∨ (n < 0xD800 ∨ 0xE000 ≤ n) := by
  simp only [isHighSurrogate, isLowSurrogate, Bool.and_eq_true, decide_eq_true_eq]
  omega

theorem denotes_pair {a b c d a' b' c' d' : Char} {n m : Nat} (hn : CodeUnit a b c d n)
    (hm : CodeUnit a' b' c' d' m) (hhigh : isHighSurrogate n = true)
    (hlow : isLowSurrogate m = true) (h : Denotes raw text) :
    Denotes ('\\' :: 'u' :: a :: b :: c :: d :: '\\' :: 'u' :: a' :: b' :: c' :: d' :: raw)
      (joinSurrogates n m :: text) := by
  simp only [isHighSurrogate, isLowSurrogate, Bool.and_eq_true, decide_eq_true_eq] at hhigh hlow
  obtain ⟨high, rfl⟩ := Nat.exists_eq_add_of_le hhigh.1
  obtain ⟨low, rfl⟩ := Nat.exists_eq_add_of_le hlow.1
  have hpair := Denotes.pair hn hm (by omega) (by omega) h
  rwa [joinSurrogates, Nat.add_sub_cancel_left, Nat.add_sub_cancel_left]

/-- What a string is said to denote, it denotes. -/
theorem denotes_of_unescapeChars? (hraw : RawString raw) (h : unescapeChars? raw = some text) :
    Denotes raw text := by
  induction hn : raw.length using Nat.strong_induction_on generalizing raw text with
  | _ n ih =>
    subst hn
    cases hraw with
    | nil =>
      cases h
      exact .nil
    | @plain c raw hquote hslash hcontrol hraw =>
      rw [unescapeChars?, if_neg hslash] at h
      · obtain ⟨text, htext, rfl⟩ := Option.map_eq_some_iff.mp h
        exact .plain hquote hslash hcontrol (ih _ (by simp) hraw htext rfl)
      · exact fun _ _ _ _ _ h _ => hslash h
      · exact fun _ _ h _ => hslash h
    | @short c e raw hletter hraw =>
      rw [unescapeChars?_short hletter] at h
      obtain ⟨text, htext, rfl⟩ := Option.map_eq_some_iff.mp h
      exact .short hletter (ih _ (by simp) hraw htext rfl)
    | @unit a b c d n raw hunit hraw =>
      rcases isSurrogate_cases n with hhigh | hlow | hscalar
      · obtain ⟨a', b', c', d', m, raw', text', rfl, hunit', hlow, hraw', htext, rfl⟩ :=
          unescapeChars?_high hunit hhigh hraw h
        refine denotes_pair hunit hunit' hhigh hlow (ih _ ?_ hraw' htext rfl)
        simp only [List.length_cons]
        omega
      · have hhigh : isHighSurrogate n = false := by
          simp only [isHighSurrogate, isLowSurrogate, Bool.and_eq_true, decide_eq_true_eq,
            Bool.and_eq_false_iff, decide_eq_false_iff_not] at hlow ⊢
          omega
        rw [unescapeChars?, unit?_of_codeUnit hunit] at h
        simp only [hhigh, hlow, Bool.false_eq_true, ↓reduceIte, reduceCtorEq] at h
      · rw [unescapeChars?_unit hunit hscalar] at h
        obtain ⟨text, htext, rfl⟩ := Option.map_eq_some_iff.mp h
        refine .unit hunit hscalar (ih _ ?_ hraw htext rfl)
        simp only [List.length_cons]
        omega

theorem denotes_of_unescape? {raw text : String} (hraw : RawString raw.toList)
    (h : unescape? raw = some text) : Denotes raw.toList text.toList := by
  obtain ⟨cs, hcs, rfl⟩ := Option.map_eq_some_iff.mp h
  rw [String.toList_ofList]
  exact denotes_of_unescapeChars? hraw hcs

end Strings

section Numbers
variable {cs rest : List Char}

theorem digitRun_takeWhile (h : 0 < (cs.takeWhile Char.isDigit).length) :
    DigitRun (cs.takeWhile Char.isDigit) :=
  ⟨List.ne_nil_of_length_pos h, fun _ hd => List.mem_takeWhile_imp hd⟩

theorem exponentPart_of_valid (h : validExponent cs = true) : ExponentPart cs := by
  cases cs with
  | nil => exact .none
  | cons mark cs =>
    simp only [validExponent, Bool.and_eq_true, Bool.or_eq_true, beq_iff_eq, Bool.not_eq_true',
      List.isEmpty_eq_false_iff, List.all_eq_true] at h
    obtain ⟨⟨hmark, hne⟩, hdigits⟩ := h
    have hmem : mark ∈ ['e', 'E'] := by simpa using hmark
    have hsplit : ∃ sign ∈ [[], ['+'], ['-']], cs = sign ++ dropSign cs := by
      unfold dropSign
      split
      · exact ⟨['-'], by decide, rfl⟩
      · exact ⟨['+'], by decide, rfl⟩
      · exact ⟨[], by decide, rfl⟩
    obtain ⟨sign, hsign, hcs⟩ := hsplit
    rw [hcs]
    exact .some hmem hsign ⟨hne, hdigits⟩

theorem parts_of_validFraction (h : validFraction cs = true) :
    ∃ fraction exponent, FractionPart fraction ∧ ExponentPart exponent ∧
      cs = fraction ++ exponent := by
  unfold validFraction at h
  split at h
  · rename_i cs
    obtain ⟨hlength, hexponent⟩ := Bool.and_eq_true_iff.mp h
    refine ⟨_, _, .some (digitRun_takeWhile (of_decide_eq_true hlength)),
      exponentPart_of_valid hexponent, ?_⟩
    rw [List.cons_append, List.takeWhile_append_dropWhile]
  · exact ⟨[], cs, .none, exponentPart_of_valid h, rfl⟩

theorem parts_of_validMagnitude (h : validMagnitude cs = true) :
    ∃ whole fraction exponent, WholePart whole ∧ FractionPart fraction ∧ ExponentPart exponent ∧
      cs = whole ++ (fraction ++ exponent) := by
  unfold validMagnitude at h
  split at h
  · obtain ⟨fraction, exponent, hf, he, rfl⟩ := parts_of_validFraction h
    exact ⟨['0'], fraction, exponent, .zero, hf, he, rfl⟩
  · rename_i c cs hzero
    obtain ⟨hc, hvalid⟩ := Bool.and_eq_true_iff.mp h
    obtain ⟨fraction, exponent, hf, he, hcs⟩ := parts_of_validFraction hvalid
    have hrun : DigitRun (c :: cs.takeWhile Char.isDigit) :=
      ⟨List.cons_ne_nil _ _, List.forall_mem_cons.mpr ⟨hc, fun _ hd => List.mem_takeWhile_imp hd⟩⟩
    refine ⟨c :: cs.takeWhile Char.isDigit, fraction, exponent, .digits hzero hrun, hf, he, ?_⟩
    rw [← hcs, List.cons_append, List.takeWhile_append_dropWhile]
  · cases h

theorem numberText_of_valid (h : validNumber cs = true) : NumberText cs := by
  have hnone : [] ∈ [[], ['-']] := List.mem_cons_self
  have hminus : ['-'] ∈ [[], ['-']] := List.mem_of_mem_tail List.mem_cons_self
  unfold validNumber at h
  split at h
  · obtain ⟨whole, fraction, exponent, hw, hf, he, rfl⟩ := parts_of_validMagnitude h
    exact .intro hminus hw hf he
  · obtain ⟨whole, fraction, exponent, hw, hf, he, rfl⟩ := parts_of_validMagnitude h
    exact .intro hnone hw hf he

end Numbers

section Soundness
variable {cs rest : List Char} {j : Json} {js : List Json} {ms : List (String × Json)}

theorem exists_blanks (cs : List Char) : ∃ b, Blanks b ∧ cs = b ++ blanks cs := by
  refine ⟨cs.takeWhile isBlank, fun c hc => ?_, List.takeWhile_append_dropWhile.symm⟩
  have hblank : isBlank c = true := List.mem_takeWhile_imp hc
  simpa [isBlank, or_assoc] using hblank

/-- A piece was read off the front of a text, up to and over its closing bracket. -/
def ReadOff : Piece → List Char → List Char → Prop
  | .value j, cs, rest => ∃ b w, Blanks b ∧ Spelled (.value j) w ∧ cs = b ++ (w ++ rest)
  | .items js, cs, rest => ∃ w, Spelled (.items js) w ∧ cs = w ++ ']' :: rest
  | .members ms, cs, rest => ∃ w, Spelled (.members ms) w ∧ cs = w ++ '}' :: rest

theorem readOff_of_blanks {w : List Char} (h : Spelled (.value j) w) (hw : blanks cs = w ++ rest) :
    ReadOff (.value j) cs rest := by
  obtain ⟨b, hb, hcs⟩ := exists_blanks cs
  exact ⟨b, w, hb, h, by rw [← hw, ← hcs]⟩

theorem readOff_number (h : (scanNumber (blanks cs)).map Taken.pair = some (j, rest)) :
    ReadOff (.value j) cs rest := by
  obtain ⟨t, ht, hpair⟩ := Option.map_eq_some_iff.mp h
  cases hpair
  simp only [scanNumber] at ht
  split at ht
  · rename_i hvalid
    split at ht
    · cases ht
      exact readOff_of_blanks (.number (numberText_of_valid hvalid))
        List.takeWhile_append_dropWhile.symm
    · cases ht
  · cases ht

theorem readOff_value
    (hitems : ∀ cs' rest js, cs'.length < cs.length → readItems cs' = some (js, rest) →
      ReadOff (.items js) cs' rest)
    (hmembers : ∀ cs' rest ms, cs'.length < cs.length → readMembers cs' = some (ms, rest) →
      ReadOff (.members ms) cs' rest)
    (h : readValue cs = some (j, rest)) : ReadOff (.value j) cs rest := by
  rw [readValue, value] at h
  split at h
  · rename_i hblanks
    cases h
    exact readOff_of_blanks .null hblanks
  · rename_i hblanks
    cases h
    exact readOff_of_blanks .boolTrue hblanks
  · rename_i hblanks
    cases h
    exact readOff_of_blanks .boolFalse hblanks
  · rename_i rest' hblanks
    split at h
    · rename_i raw after hscan
      cases h
      obtain ⟨hraw, rfl⟩ := rawString_of_scanString hscan
      refine readOff_of_blanks (.string hraw) (hblanks.trans ?_)
      simp
    · cases h
  · rename_i rest' hblanks
    simp only at h
    split at h
    · rename_i after hend
      cases h
      obtain ⟨b, hb, hrest⟩ := exists_blanks rest'
      refine readOff_of_blanks (.emptyArray hb) (hblanks.trans ?_)
      rw [hend] at hrest
      simp [← hrest]
    · obtain ⟨t', ht', hpair'⟩ := Option.map_eq_some_iff.mp h
      obtain ⟨t, ht, rfl⟩ := Option.map_eq_some_iff.mp ht'
      cases hpair'
      have hread : readItems rest' = some (t.value, t.rest) := by rw [readItems, ht]; rfl
      obtain ⟨w, hw, hrest⟩ := hitems _ _ _ (length_lt_of_blanks '[' [] hblanks) hread
      refine readOff_of_blanks (.array hw) (hblanks.trans ?_)
      simp [hrest]
  · rename_i rest' hblanks
    simp only at h
    split at h
    · rename_i after hend
      cases h
      obtain ⟨b, hb, hrest⟩ := exists_blanks rest'
      refine readOff_of_blanks (.emptyObject hb) (hblanks.trans ?_)
      rw [hend] at hrest
      simp [← hrest]
    · obtain ⟨t', ht', hpair'⟩ := Option.map_eq_some_iff.mp h
      obtain ⟨t, ht, rfl⟩ := Option.map_eq_some_iff.mp ht'
      cases hpair'
      have hread : readMembers rest' = some (t.value, t.rest) := by rw [readMembers, ht]; rfl
      obtain ⟨w, hw, hrest⟩ := hmembers _ _ _ (length_lt_of_blanks '{' [] hblanks) hread
      refine readOff_of_blanks (.object hw) (hblanks.trans ?_)
      simp [hrest]
  · rename_i hblanks
    rw [Option.map_map] at h
    exact readOff_number h

/-- A value that was read, with the blanks in front of it and behind it. -/
theorem ReadOff.exists_padded {mark : Char} {first : List Char} (h : ReadOff (.value j) cs first)
    (hmark : blanks first = mark :: rest) :
    ∃ w p, Spelled (.value j) w ∧ Padded w p ∧ cs = p ++ mark :: rest := by
  obtain ⟨b, w, hb, hw, rfl⟩ := h
  obtain ⟨b', hb', hfirst⟩ := exists_blanks first
  refine ⟨w, b ++ (w ++ b'), hw, .intro hb hb', ?_⟩
  rw [hmark] at hfirst
  simp [hfirst]

theorem length_readValue_lt (h : readValue cs = some (j, rest)) : rest.length < cs.length := by
  obtain ⟨t, -, hpair⟩ := Option.map_eq_some_iff.mp h
  cases hpair
  exact t.lt

/-- How a row of items was read: a first one, and then the end or more of them. -/
theorem exists_of_readItems (h : readItems cs = some (js, rest)) :
    ∃ j first, readValue cs = some (j, first) ∧
      ((blanks first = ']' :: rest ∧ js = [j]) ∨
        ∃ more js', blanks first = ',' :: more ∧ readItems more = some (js', rest) ∧
          js = j :: js') := by
  obtain ⟨t, ht, hpair⟩ := Option.map_eq_some_iff.mp h
  cases hpair
  rw [items] at ht
  obtain ⟨first, hfirst, hmore⟩ := Option.bind_eq_some_iff.mp ht
  refine ⟨first.value, first.rest, by rw [readValue, hfirst]; rfl, ?_⟩
  split at hmore
  · rename_i more hcomma
    obtain ⟨t', ht', hpair⟩ := Option.bind_eq_some_iff.mp hmore
    cases hpair
    exact .inr ⟨more, t'.value, hcomma, by rw [readItems, ht']; rfl, rfl⟩
  · rename_i hend
    cases hmore
    exact .inl ⟨hend, rfl⟩
  · cases hmore

/-- How a row of members was read: a name, a colon, a value, and then the end or more of them. -/
theorem exists_of_readMembers (h : readMembers cs = some (ms, rest)) :
    ∃ named raw after behind j first, blanks cs = '"' :: named ∧
      scanString named = some (raw, after) ∧ blanks after = ':' :: behind ∧
      readValue behind = some (j, first) ∧
      ((blanks first = '}' :: rest ∧ ms = [(String.ofList raw, j)]) ∨
        ∃ more ms', blanks first = ',' :: more ∧ readMembers more = some (ms', rest) ∧
          ms = (String.ofList raw, j) :: ms') := by
  obtain ⟨t, ht, hpair⟩ := Option.map_eq_some_iff.mp h
  cases hpair
  rw [members] at ht
  split at ht
  case h_2 => cases ht
  rename_i named hname
  split at ht
  case h_2 => cases ht
  rename_i raw after hscan
  simp only at ht
  split at ht
  case h_2 => cases ht
  rename_i behind hcolon
  split at ht
  case h_2 => cases ht
  rename_i first hfirst
  refine ⟨named, raw, after, behind, first.value, first.rest, hname, hscan, hcolon,
    by rw [readValue, hfirst]; rfl, ?_⟩
  split at ht
  · rename_i more hcomma
    split at ht
    · rename_i t' ht'
      cases ht
      exact .inr ⟨more, t'.value, hcomma, by rw [readMembers, ht']; rfl, rfl⟩
    · cases ht
  · rename_i hend
    cases ht
    exact .inl ⟨hend, rfl⟩
  · cases ht

theorem readOff_items
    (hvalue : ∀ rest j, readValue cs = some (j, rest) → ReadOff (.value j) cs rest)
    (hitems : ∀ cs' rest js, cs'.length < cs.length → readItems cs' = some (js, rest) →
      ReadOff (.items js) cs' rest)
    (h : readItems cs = some (js, rest)) : ReadOff (.items js) cs rest := by
  obtain ⟨j, first, hfirst, ⟨hend, rfl⟩ | ⟨more, js', hcomma, hmore, rfl⟩⟩ := exists_of_readItems h
  · obtain ⟨w, p, hw, hp, hcs⟩ := (hvalue first j hfirst).exists_padded hend
    exact ⟨p, .item hw hp, hcs⟩
  · obtain ⟨w, p, hw, hp, hcs⟩ := (hvalue first j hfirst).exists_padded hcomma
    have hlt := Nat.lt_trans (length_lt_of_blanks ',' [] hcomma) (length_readValue_lt hfirst)
    obtain ⟨q, hq, hrest⟩ := hitems more rest js' hlt hmore
    refine ⟨_, .moreItems hw hp hq, ?_⟩
    simp [hcs, hrest]

/-- A name that was read with its colon, in front of a value in its blanks. -/
theorem exists_keyed {raw w v named after behind : List Char} (hname : blanks cs = '"' :: named)
    (hscan : scanString named = some (raw, after)) (hcolon : blanks after = ':' :: behind)
    (hv : Padded w v) {tail : List Char} (hbehind : behind = v ++ tail) :
    ∃ p, Keyed raw w p ∧ cs = p ++ tail := by
  obtain ⟨b, hb, hcs⟩ := exists_blanks cs
  obtain ⟨b', hb', hafter⟩ := exists_blanks after
  obtain ⟨hraw, hnamed⟩ := rawString_of_scanString hscan
  refine ⟨_, .intro hb hraw hb' hv, ?_⟩
  rw [hcolon, hbehind] at hafter
  rw [hname, hnamed, hafter] at hcs
  simp [hcs]

theorem readOff_members
    (hvalue : ∀ cs' rest j, cs'.length < cs.length → readValue cs' = some (j, rest) →
      ReadOff (.value j) cs' rest)
    (hmembers : ∀ cs' rest ms, cs'.length < cs.length → readMembers cs' = some (ms, rest) →
      ReadOff (.members ms) cs' rest)
    (h : readMembers cs = some (ms, rest)) : ReadOff (.members ms) cs rest := by
  obtain ⟨named, raw, after, behind, j, first, hname, hscan, hcolon, hfirst, hrow⟩ :=
    exists_of_readMembers h
  have hbehind := Nat.lt_trans (length_lt_of_blanks ':' [] hcolon)
    (Nat.lt_trans (length_scanString_lt hscan) (length_lt_of_blanks '"' [] hname))
  have hoff := hvalue behind first j hbehind hfirst
  rcases hrow with ⟨hend, rfl⟩ | ⟨more, ms', hcomma, hmore, rfl⟩
  · obtain ⟨w, v, hw, hv, htail⟩ := hoff.exists_padded hend
    obtain ⟨p, hp, hcs⟩ := exists_keyed hname hscan hcolon hv htail
    exact ⟨p, .member hw hp, hcs⟩
  · obtain ⟨w, v, hw, hv, htail⟩ := hoff.exists_padded hcomma
    obtain ⟨p, hp, hcs⟩ := exists_keyed hname hscan hcolon hv htail
    have hlt := Nat.lt_trans (length_lt_of_blanks ',' [] hcomma)
      (Nat.lt_trans (length_readValue_lt hfirst) hbehind)
    obtain ⟨q, hq, hrest⟩ := hmembers more rest ms' hlt hmore
    refine ⟨_, .moreMembers hw hp hq, ?_⟩
    simp [hcs, hrest]

/-- Whatever is read was spelled. -/
theorem readOff (cs : List Char) :
    (∀ rest j, readValue cs = some (j, rest) → ReadOff (.value j) cs rest) ∧
      (∀ rest js, readItems cs = some (js, rest) → ReadOff (.items js) cs rest) ∧
      ∀ rest ms, readMembers cs = some (ms, rest) → ReadOff (.members ms) cs rest := by
  induction hn : cs.length using Nat.strong_induction_on generalizing cs with
  | _ n ih =>
    subst hn
    have hitems : ∀ cs' rest js, cs'.length < cs.length → readItems cs' = some (js, rest) →
        ReadOff (.items js) cs' rest := fun cs' rest js hlt => (ih _ hlt cs' rfl).2.1 rest js
    have hmembers : ∀ cs' rest ms, cs'.length < cs.length → readMembers cs' = some (ms, rest) →
        ReadOff (.members ms) cs' rest := fun cs' rest ms hlt => (ih _ hlt cs' rfl).2.2 rest ms
    have hvalue : ∀ rest j, readValue cs = some (j, rest) → ReadOff (.value j) cs rest :=
      fun _ _ => readOff_value hitems hmembers
    refine ⟨hvalue, fun _ _ => readOff_items hvalue hitems, fun _ _ => ?_⟩
    exact readOff_members (fun cs' rest j hlt => (ih _ hlt cs' rfl).1 rest j) hmembers

/-- The reader accepts the texts of the grammar and nothing else. -/
theorem parse?_eq_some_iff {text : String} : parse? text = some j ↔ IsText j text := by
  refine ⟨fun h => ?_, parse?_of_isText⟩
  obtain ⟨t, ht, hend⟩ := Option.bind_eq_some_iff.mp h
  split at hend
  · rename_i hempty
    cases hend
    have hblanks := List.isEmpty_iff.mp hempty
    obtain ⟨b, w, hb, hw, htext⟩ :=
      (readOff text.toList).1 t.rest t.value (by rw [readValue, ht]; rfl)
    obtain ⟨b', hb', hrest⟩ := exists_blanks t.rest
    rw [hblanks, List.append_nil] at hrest
    refine ⟨w, hw, ?_⟩
    rw [htext, hrest]
    exact .intro hb hb'
  · cases hend

/-- The names of the members are written as strings are. -/
theorem Spelled.rawString_of_mem {w : List Char} (h : Spelled (.members ms) w) :
    ∀ m ∈ ms, RawString m.1.toList := by
  induction ms generalizing w with
  | nil => exact List.forall_mem_nil _
  | cons m ms ih =>
    have hname {raw v p : List Char} (hp : Keyed raw v p) :
        RawString (String.ofList raw).toList := by
      cases hp with
      | intro _ hraw _ _ => rwa [String.toList_ofList]
    cases h with
    | member _ hp => exact List.forall_mem_singleton.mpr (hname hp)
    | moreMembers _ hp hmore => exact List.forall_mem_cons.mpr ⟨hname hp, ih hmore⟩

theorem IsText.rawString_of_mem {text : String} (h : IsText (.object ms) text) :
    ∀ m ∈ ms, RawString m.1.toList := by
  obtain ⟨w, hw, -⟩ := h
  cases hw with
  | emptyObject _ => exact List.forall_mem_nil _
  | object h => exact h.rawString_of_mem

end Soundness

end CommandScript.Json
