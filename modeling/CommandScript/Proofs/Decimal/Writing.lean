import CommandScript.Decimal.Layout
import CommandScript.Decimal.Reading
import CommandScript.Proofs.Decimal.Rounding
import CommandScript.Proofs.Json.Grammar
import Mathlib
/-! # What a written double denotes

In full or with an exponent, the text of a finite double is a number of JSON, and it denotes a
decimal that rounds to the double. Reading the text and rounding gives the double back, down to the
sign of zero.
-/
namespace CommandScript.Decimal
open Binary64 Json

section Digits
variable {d : Digits}

/-- The number that some digits stand for. -/
def Digits.number (d : Digits) : ℚ :=
  Nat.ofDigitChars 10 d.digits 0 * 10 ^ (d.exponent + 1 - d.digits.length)

/-- Decimal digits, and no zero in front of them. -/
structure Digits.Proper (d : Digits) : Prop where
  isDigit : ∀ c ∈ d.digits, c.isDigit = true
  head : ∃ c cs, d.digits = c :: cs ∧ c ≠ '0'

theorem exists_append_trimZeros (cs : List Char) :
    ∃ k, cs = trimZeros cs ++ List.replicate k '0' := by
  have hzeros : ∀ c ∈ cs.reverse.takeWhile (· == '0'), c = '0' := by
    intro c hc
    simpa using List.mem_takeWhile_imp hc
  refine ⟨(cs.reverse.takeWhile (· == '0')).length, ?_⟩
  have hsplit := congrArg List.reverse
    (List.takeWhile_append_dropWhile (p := (· == '0')) (l := cs.reverse))
  rw [List.reverse_append, List.reverse_reverse, List.eq_replicate_of_mem hzeros,
    List.reverse_replicate] at hsplit
  exact hsplit.symm

theorem number_gridDigits (p : Int) (c : Nat) : (gridDigits p c).number = c * 10 ^ p := by
  obtain ⟨k, hk⟩ := exists_append_trimZeros (Nat.toDigits 10 c)
  have hvalue := Nat.ofDigitChars_ten_toDigits (n := c)
  have hlength := congrArg List.length hk
  rw [hk, Nat.ofDigitChars_append, Nat.ofDigitChars_replicate_zero] at hvalue
  rw [List.length_append, List.length_replicate] at hlength
  unfold Digits.number gridDigits
  dsimp only
  rw [hlength]
  generalize trimZeros (Nat.toDigits 10 c) = ds at *
  have hexponent : p + ((ds.length + k : Nat) : Int) - 1 + 1 - ds.length = p + k := by
    push_cast
    omega
  rw [hexponent, zpow_add₀ (by norm_num), zpow_natCast, ← hvalue]
  push_cast
  ring

theorem proper_gridDigits (p : Int) {c : Nat} (h : c ≠ 0) : (gridDigits p c).Proper := by
  obtain ⟨k, hk⟩ := exists_append_trimZeros (Nat.toDigits 10 c)
  obtain ⟨a, as, hhead, ha⟩ := exists_head_toDigits h
  refine ⟨fun x hx => ?_, ?_⟩
  · refine isDigit_of_mem_toDigits (n := c) ?_
    rw [hk]
    exact List.mem_append_left _ hx
  · unfold gridDigits
    dsimp only
    rw [hhead] at hk
    rw [hhead]
    cases htrim : trimZeros (a :: as) with
    | nil =>
      rw [htrim, List.nil_append] at hk
      have hmem : a ∈ List.replicate k '0' := hk ▸ List.mem_cons_self
      exact absurd (List.eq_of_mem_replicate hmem) ha
    | cons b bs =>
      rw [htrim, List.cons_append] at hk
      obtain ⟨rfl, -⟩ := List.cons.inj hk
      exact ⟨a, bs, rfl, ha⟩

theorem RoundsTo.pos {m : Nat} {q : Int} {x : ℚ} (hm : 0 < m) (h : RoundsTo m q x) : 0 < x := by
  have hpos := two_zpow_pos q
  have hlow := half_le_lowEnd m q
  have hm' : (1 : ℚ) ≤ m := Nat.one_le_cast.mpr hm
  have hle := h.low_le
  nlinarith

/-- The shortest digits of a double stand for a number that rounds to it. -/
theorem roundsTo_shortest {x : Float} (hm : (parts x).mantissa ≠ 0) (tie : Tie) :
    (shortest tie x).Proper ∧
      RoundsTo (parts x).mantissa (parts x).exponent (shortest tie x).number := by
  obtain ⟨p, c, hround, hsearch⟩ := search_interval (canonical_parts x) (Nat.pos_of_ne_zero hm) tie
  have hshortest : shortest tie x = gridDigits p c := hsearch
  rw [hshortest, number_gridDigits]
  refine ⟨proper_gridDigits p ?_, hround⟩
  rintro rfl
  have hpos := hround.pos (Nat.pos_of_ne_zero hm)
  simp at hpos

end Digits

section Texts

/-- The digits behind the point, and how they are written. -/
inductive FractionOf : List Char → List Char → Prop
  | none : FractionOf [] []
  | some {ds : List Char} (h : DigitRun ds) : FractionOf ds ('.' :: ds)

/-- A text without a sign, and the number that it denotes. -/
inductive IsDecimal : List Char → ℚ → Prop
  | intro {whole ds fraction exponent : List Char} {e : Int} (hwhole : WholePart whole)
    (hfraction : FractionOf ds fraction) (hexponent : ExponentPart exponent)
    (hvalue : readExponent? exponent = some e) :
    IsDecimal (whole ++ (fraction ++ exponent))
      (Nat.ofDigitChars 10 (whole ++ ds) 0 * 10 ^ (e - ds.length))

variable {cs : List Char} {x : ℚ} {d : Digits}

theorem FractionOf.part {ds fraction : List Char} (h : FractionOf ds fraction) :
    FractionPart fraction := by
  cases h with
  | none => exact .none
  | some h => exact .some h

theorem IsDecimal.numberText {sign : List Char} (hsign : sign ∈ [[], ['-']]) (h : IsDecimal cs x) :
    NumberText (sign ++ cs) := by
  cases h with
  | intro hwhole hfraction hexponent _ => exact .intro hsign hwhole hfraction.part hexponent

/-- The digits behind a point, if there is one, and what follows. -/
def splitFraction : List Char → List Char × List Char
  | '.' :: cs => (cs.takeWhile Char.isDigit, cs.dropWhile Char.isDigit)
  | cs => ([], cs)

/-- The digits of a text without a sign, and the exponent behind the last of them. -/
def decimal? (cs : List Char) : Option (Nat × Int) :=
  let whole := cs.takeWhile Char.isDigit
  let (fraction, rest) := splitFraction (cs.dropWhile Char.isDigit)
  match readNat? 10 (whole ++ fraction), readExponent? rest with
  | some n, some e => some (n, e - fraction.length)
  | _, _ => none

theorem splitFraction_append {ds fraction exponent : List Char} (hf : FractionOf ds fraction)
    (he : ExponentPart exponent) : splitFraction (fraction ++ exponent) = (ds, exponent) := by
  cases hf with
  | none =>
    rw [List.nil_append, splitFraction]
    rintro cs rfl
    cases he with
    | some hmark _ _ => exact absurd hmark (by decide)
  | some h =>
    have hstops := stops_exponent he
    rw [List.cons_append, splitFraction, takeWhile_append_of_stops h.2 hstops,
      dropWhile_append_of_stops h.2 hstops]

theorem readNat?_append {whole ds fraction : List Char} (hwhole : WholePart whole)
    (hfraction : FractionOf ds fraction) :
    readNat? 10 (whole ++ ds) = some (Nat.ofDigitChars 10 (whole ++ ds) 0) := by
  refine readNat?_of_digits ?_ (List.forall_mem_append.mpr ⟨hwhole.isDigit, ?_⟩)
  · exact fun h => hwhole.ne_nil (List.append_eq_nil_iff.mp h).1
  · cases hfraction with
    | none => simp
    | some h => exact h.2

/-- A text is read as the digits that it consists of. -/
theorem IsDecimal.exists_decimal? (h : IsDecimal cs x) :
    ∃ n e, decimal? cs = some (n, e) ∧ (n : ℚ) * 10 ^ e = x := by
  cases h with
  | @intro whole ds fraction exponent e hwhole hfraction hexponent hvalue =>
    refine ⟨_, _, ?_, rfl⟩
    have hdigits := hwhole.isDigit
    have hstops := stops_fraction hfraction.part hexponent
    unfold decimal?
    simp only [takeWhile_append_of_stops hdigits hstops, dropWhile_append_of_stops hdigits hstops,
      splitFraction_append hfraction hexponent, readNat?_append hwhole hfraction, hvalue]

/-- All digits are behind the point. -/
theorem isDecimal_small {ds : List Char} (hdigits : DigitRun ds) (k : Nat) :
    IsDecimal ('0' :: '.' :: (List.replicate k '0' ++ ds))
      (Nat.ofDigitChars 10 ds 0 * 10 ^ (-(k + ds.length : Nat) : Int)) := by
  have hzeros : DigitRun (List.replicate k '0' ++ ds) := by
    refine ⟨fun h => hdigits.1 (List.append_eq_nil_iff.mp h).2,
      List.forall_mem_append.mpr ⟨fun c hc => ?_, hdigits.2⟩⟩
    rw [List.eq_of_mem_replicate hc]
    rfl
  have h := IsDecimal.intro .zero (.some hzeros) .none rfl
  convert h using 2
  · simp
  · simp [Nat.ofDigitChars_append, Nat.ofDigitChars_cons]
  · simp

/-- The point comes behind all digits. -/
theorem isDecimal_large {ds : List Char} (hwhole : WholePart ds) (hzero : ds ≠ ['0']) (k : Nat) :
    IsDecimal (ds ++ List.replicate k '0' ++ ['.', '0'])
      (Nat.ofDigitChars 10 ds 0 * 10 ^ (k : Int)) := by
  have hpadded : WholePart (ds ++ List.replicate k '0') := by
    cases hwhole with
    | zero => exact absurd rfl hzero
    | digits hc h =>
      refine .digits hc ⟨by simp, List.forall_mem_append.mpr ⟨h.2, fun c hc => ?_⟩⟩
      rw [List.eq_of_mem_replicate hc]
      rfl
  have h := IsDecimal.intro hpadded (.some ⟨by simp, by simp⟩ : FractionOf ['0'] _) .none rfl
  convert h using 1
  · simp
  · rw [Nat.ofDigitChars_append, Nat.ofDigitChars_append, Nat.ofDigitChars_replicate_zero]
    simp [Nat.ofDigitChars_cons]
    ring

/-- The point comes between the digits. -/
theorem isDecimal_split {whole ds : List Char} (hwhole : WholePart whole) (hds : DigitRun ds) :
    IsDecimal (whole ++ '.' :: ds)
      (Nat.ofDigitChars 10 (whole ++ ds) 0 * 10 ^ (-ds.length : Int)) := by
  have h := IsDecimal.intro hwhole (.some hds) .none rfl
  simpa using h

theorem isDecimal_positional (h : d.Proper) : IsDecimal (positional d) d.number := by
  obtain ⟨digits, exponent⟩ := d
  obtain ⟨hdigits, c, cs, hhead, hc⟩ := h
  dsimp only at hdigits hhead
  subst hhead
  unfold positional Digits.number
  dsimp only
  split
  · rename_i hneg
    have h := isDecimal_small ⟨List.cons_ne_nil c cs, hdigits⟩ (-exponent - 1).toNat
    convert h using 3
    · rfl
    · omega
  · rename_i hneg
    split
    · rename_i hle
      have hwhole : WholePart (c :: cs) := .digits hc ⟨List.cons_ne_nil c cs, hdigits⟩
      have h := isDecimal_large hwhole (fun h => hc (List.cons.inj h).1)
        (exponent.toNat + 1 - (c :: cs).length)
      convert h using 3
      omega
    · rename_i hlt
      have hwhole : WholePart ((c :: cs).take (exponent.toNat + 1)) := by
        rw [List.take_succ_cons]
        refine .digits hc ⟨List.cons_ne_nil _ _, fun a ha => hdigits a ?_⟩
        exact List.mem_of_mem_take (i := exponent.toNat + 1) (by simpa using ha)
      have hds : DigitRun ((c :: cs).drop (exponent.toNat + 1)) := by
        refine ⟨fun h => hlt (List.drop_eq_nil_iff.mp h), fun a ha => hdigits a ?_⟩
        exact List.mem_of_mem_drop ha
      have h := isDecimal_split hwhole hds
      rw [List.take_append_drop] at h
      convert h using 3
      rw [List.length_drop]
      omega

/-- The exponent of a written number. -/
def exponentText (plus : Bool) (e : Int) : List Char :=
  'e' :: ((if e < 0 then ['-'] else if plus then ['+'] else []) ++ Nat.toDigits 10 e.natAbs)

theorem exponentPart_exponentText (plus : Bool) (e : Int) : ExponentPart (exponentText plus e) := by
  refine .some (by decide) ?_ ⟨Nat.toDigits_ne_nil, fun _ => isDigit_of_mem_toDigits⟩
  split
  · decide
  · split <;> decide

theorem readExponent?_exponentText (plus : Bool) (e : Int) :
    readExponent? (exponentText plus e) = some e := by
  simp only [exponentText, readExponent?, true_or, ↓reduceIte]
  by_cases hneg : e < 0
  · rw [if_pos hneg, List.singleton_append, readInt?_minus, Option.some.injEq]
    omega
  · rw [if_neg hneg]
    cases plus with
    | false =>
      rw [if_neg (by decide), List.nil_append, readInt?_digits, Option.some.injEq]
      omega
    | true =>
      rw [if_pos rfl, List.singleton_append, readInt?_plus, Option.some.injEq]
      omega

theorem isDecimal_scientific (h : d.Proper) (plus : Bool) :
    IsDecimal (scientific plus d) d.number := by
  obtain ⟨digits, exponent⟩ := d
  obtain ⟨hdigits, c, cs, hhead, hc⟩ := h
  dsimp only at hdigits hhead
  subst hhead
  have hwhole : WholePart [c] :=
    .digits hc ⟨by simp, by simpa using hdigits c List.mem_cons_self⟩
  have hpart := exponentPart_exponentText plus exponent
  have hvalue := readExponent?_exponentText plus exponent
  cases cs with
  | nil =>
    have h := IsDecimal.intro hwhole .none hpart hvalue
    convert h using 1
    · simp [scientific, exponentText]
    · simp [Digits.number]
  | cons r rs =>
    have h := IsDecimal.intro hwhole
      (.some ⟨by simp, fun a ha => hdigits a (List.mem_cons_of_mem _ ha)⟩)
      hpart hvalue
    convert h using 1
    · simp [scientific, exponentText]
    · simp [Digits.number]

end Texts

section Decoding
variable {m : Nat} {q : Int} {x : ℚ}

instance (m : Nat) (q : Int) : Decidable (Canonical m q) :=
  decidable_of_iff (m < 2 * leadingBit ∧ -1074 ≤ q ∧ q ≤ 972 ∧ (leadingBit ≤ m ∨ q = -1074))
    ⟨fun h => ⟨h.1, h.2.1, h.2.2.1, h.2.2.2⟩, fun h => ⟨h.lt, h.le, h.limit, h.full⟩⟩

/-- The multiples of a power of two next to a number, for every exponent of a double. -/
def candidates (x : ℚ) : List (Nat × Int) :=
  (List.range 2047).flatMap (fun k : Nat =>
    let q : Int := k - 1074
    let m := ⌊x / 2 ^ q⌋₊
    [(m, q), (m + 1, q)])

/-- The mantissa and the exponent of the double that a number rounds to. -/
def round? (x : ℚ) : Option (Nat × Int) :=
  (candidates x).find? (fun c => decide (Canonical c.1 c.2 ∧ RoundsTo c.1 c.2 x))

theorem mem_candidates (h : Canonical m q) (hm : 0 < m) (hx : RoundsTo m q x) :
    (m, q) ∈ candidates x := by
  have hpos := two_zpow_pos q
  have hq := h.le
  have hlimit := h.limit
  have hexponent : (((q + 1074).toNat : Nat) : Int) - 1074 = q := by omega
  simp only [candidates, List.mem_flatMap, List.mem_range]
  refine ⟨(q + 1074).toNat, by omega, ?_⟩
  simp only [hexponent, List.mem_cons, Prod.mk.injEq, and_true, List.not_mem_nil, or_false]
  have hlow : (m : ℚ) - 1 / 2 ≤ x / 2 ^ q :=
    (le_div_iff₀ hpos).mpr ((half_le_lowEnd m q).trans hx.low_le)
  have hhigh : x / 2 ^ q ≤ m + 1 / 2 := (div_le_iff₀ hpos).mpr hx.le_high
  have hm' : (1 : ℚ) ≤ m := Nat.one_le_cast.mpr hm
  by_cases hle : (m : ℚ) ≤ x / 2 ^ q
  · left
    refine ((Nat.floor_eq_iff ?_).mpr ⟨hle, ?_⟩).symm <;> linarith
  · right
    have hfloor : ⌊x / 2 ^ q⌋₊ = m - 1 := by
      refine (Nat.floor_eq_iff ?_).mpr ⟨?_, ?_⟩ <;> push_cast [Nat.cast_sub hm] <;> linarith
    omega

theorem round?_of_roundsTo (h : Canonical m q) (hm : 0 < m) (hx : RoundsTo m q x) :
    round? x = some (m, q) := by
  have hmem := mem_candidates h hm hx
  unfold round?
  generalize candidates x = cs at hmem
  cases hfind : cs.find? (fun c => decide (Canonical c.1 c.2 ∧ RoundsTo c.1 c.2 x)) with
  | none => exact absurd (decide_eq_true ⟨h, hx⟩) (List.find?_eq_none.mp hfind _ hmem)
  | some c =>
    have hboth := List.find?_some hfind
    rw [decide_eq_true_eq] at hboth
    obtain ⟨hcanonical, hround⟩ := hboth
    obtain ⟨rfl, rfl⟩ := RoundsTo.unique h hcanonical hx hround
    rfl

/-- The magnitude of the double that `n * 10 ^ e` rounds to. -/
def magnitude? (n : Nat) (e : Int) : Option (Nat × Int) :=
  if n = 0 then some (0, -1074) else round? (n * 10 ^ e)

/-- The double that a decimal text denotes. -/
def readDouble? (cs : List Char) : Option Float := do
  let (negative, unsigned) := splitSign cs
  let (n, e) ← decimal? unsigned
  let (m, q) ← magnitude? n e
  return Float.ofBits (bits ⟨negative, m, q⟩).toUInt64

/-- The number that the text of a double denotes, without the sign. -/
structure Fits (x : Float) (v : ℚ) : Prop where
  zero : (parts x).mantissa = 0 → v = 0
  nonzero : (parts x).mantissa ≠ 0 → RoundsTo (parts x).mantissa (parts x).exponent v

theorem isDecimal_zero : IsDecimal ['0', '.', '0'] 0 := by
  have h := IsDecimal.intro .zero (.some ⟨by simp, by simp⟩ : FractionOf ['0'] _) .none rfl
  simpa [Nat.ofDigitChars_cons] using h

theorem exists_write (layout : Layout) {x : Float} (h : x.isFinite = true) :
    ∃ cs v, (layout.write x).toList = (if (parts x).negative then ['-'] else []) ++ cs ∧
      IsDecimal cs v ∧ Fits x v := by
  have hsign : (if (parts x).negative then "-" else "" : String).toList =
      if (parts x).negative then ['-'] else [] := by
    split <;> rfl
  simp only [Layout.write, isNaN_of_isFinite h, isInf_of_isFinite h, Bool.false_eq_true, ↓reduceIte]
  by_cases hzero : (parts x).mantissa = 0
  · refine ⟨['0', '.', '0'], 0, ?_, isDecimal_zero, fun _ => rfl, fun hne => absurd hzero hne⟩
    rw [if_pos hzero, String.toList_append, hsign]
    rfl
  · obtain ⟨hproper, hround⟩ := roundsTo_shortest hzero layout.tie
    rw [if_neg hzero, String.toList_append, hsign, String.toList_ofList]
    refine ⟨_, (shortest layout.tie x).number, rfl, ?_, fun h => absurd h hzero, fun _ => hround⟩
    split
    · exact isDecimal_positional hproper
    · exact isDecimal_scientific hproper layout.plus

theorem numberText_write (layout : Layout) {x : Float} (h : x.isFinite = true) :
    NumberText (layout.write x).toList := by
  obtain ⟨cs, v, htext, hdecimal, -⟩ := exists_write layout h
  rw [htext]
  refine hdecimal.numberText ?_
  split <;> decide

theorem write_of_not_finite (layout : Layout) {x : Float} (h : x.isFinite = false) :
    layout.write x = layout.undefined ∨ layout.write x = layout.negativeInfinite ∨
      layout.write x = layout.infinite := by
  unfold Layout.write
  rcases Binary64.isNaN_or_isInf h with hnan | hinf
  · exact .inl (if_pos hnan)
  · split
    · exact .inl rfl
    · dsimp only
      split
      · exact .inr (.inl rfl)
      · exact .inr (.inr rfl)

theorem splitSign_of_isDecimal {cs : List Char} {v : ℚ} (h : IsDecimal cs v) (negative : Bool) :
    splitSign ((if negative then ['-'] else []) ++ cs) = (negative, cs) := by
  cases negative with
  | true => rfl
  | false =>
    cases h with
    | intro hwhole _ _ _ =>
      obtain ⟨c, cs, rfl, hc⟩ := hwhole.exists_digit
      exact splitSign_cons hc _

theorem magnitude?_of_fits {x : Float} {n : Nat} {e : Int} (h : Fits x (n * 10 ^ e)) :
    magnitude? n e = some ((parts x).mantissa, (parts x).exponent) := by
  have hcanonical := canonical_parts x
  unfold magnitude?
  by_cases hm : (parts x).mantissa = 0
  · have hexponent : (parts x).exponent = -1074 := by
      refine hcanonical.full.resolve_left ?_
      rw [hm]
      decide
    have hn : n = 0 := by
      have hproduct := h.zero hm
      have hten : (10 : ℚ) ^ e ≠ 0 := zpow_ne_zero e (by norm_num)
      exact_mod_cast (mul_eq_zero.mp hproduct).resolve_right hten
    rw [if_pos hn, hm, hexponent]
  · have hround := h.nonzero hm
    have hn : n ≠ 0 := by
      rintro rfl
      have hpos := hround.pos (Nat.pos_of_ne_zero hm)
      simp at hpos
    rw [if_neg hn, round?_of_roundsTo hcanonical (Nat.pos_of_ne_zero hm) hround]

/-- Writing a finite double loses nothing. -/
theorem readDouble?_write (layout : Layout) {x : Float} (h : x.isFinite = true) :
    readDouble? (layout.write x).toList = some x := by
  obtain ⟨cs, v, htext, hdecimal, hfits⟩ := exists_write layout h
  obtain ⟨n, e, hread, rfl⟩ := hdecimal.exists_decimal?
  rw [htext, readDouble?, splitSign_of_isDecimal hdecimal]
  simp only [hread, magnitude?_of_fits hfits, Option.bind_eq_bind, Option.bind_some]
  exact congrArg some (ofBits_bits_parts x)

end Decoding

end CommandScript.Decimal
