import CommandScript.Decimal.Shortest
import CommandScript.Proofs.Decimal.Digits
import CommandScript.Proofs.Decimal.Doubles
import Mathlib
/-! # Which decimals round to a double

Around each double lies the interval of the numbers that round to it. The intervals of two doubles
do not meet, so a number rounds to one double at most. Seventeen digits are enough to hit every
interval, and the shortest decimal of a double lies in the interval of that double.
-/
namespace CommandScript.Decimal
open Binary64

section Ends

def lowEnd (m : Nat) (q : Int) : ℚ :=
  (m - if m = leadingBit ∧ -1074 < q then 1 / 4 else 1 / 2) * 2 ^ q

def highEnd (m : Nat) (q : Int) : ℚ := (m + 1 / 2) * 2 ^ q

/-- The number rounds to `m * 2 ^ q`; at the ends of the interval, to the even mantissa. -/
structure RoundsTo (m : Nat) (q : Int) (x : ℚ) : Prop where
  low_le : lowEnd m q ≤ x
  le_high : x ≤ highEnd m q
  inner : m % 2 = 1 → lowEnd m q < x ∧ x < highEnd m q

instance (m : Nat) (q : Int) (x : ℚ) : Decidable (RoundsTo m q x) :=
  decidable_of_iff (lowEnd m q ≤ x ∧ x ≤ highEnd m q ∧
    (m % 2 = 1 → lowEnd m q < x ∧ x < highEnd m q))
    ⟨fun h => ⟨h.1, h.2.1, h.2.2⟩, fun h => ⟨h.low_le, h.le_high, h.inner⟩⟩

variable {m m' : Nat} {q q' : Int} {x : ℚ}

theorem two_zpow_pos (q : Int) : (0 : ℚ) < 2 ^ q := zpow_pos (by norm_num) q

theorem half_le_lowEnd (m : Nat) (q : Int) : ((m : ℚ) - 1 / 2) * 2 ^ q ≤ lowEnd m q := by
  have hpos := two_zpow_pos q
  unfold lowEnd
  split
  · nlinarith
  · exact le_refl _

/-- At a larger exponent nothing reaches below `(2 ^ 53 - 1 / 2) * 2 ^ q`. -/
theorem le_lowEnd_of_lt (h : Canonical m' q') (hle : -1074 ≤ q) (hlt : q < q') :
    ((2 * leadingBit : Nat) - 1 / 2 : ℚ) * 2 ^ q ≤ lowEnd m' q' := by
  have hpos := two_zpow_pos q
  have hfull : leadingBit ≤ m' := h.full.resolve_right (by omega)
  have hdouble : (2 : ℚ) * 2 ^ q ≤ 2 ^ q' := by
    have hnext : (2 : ℚ) * 2 ^ q = 2 ^ (q + 1) := by
      rw [zpow_add_one₀ (by norm_num), mul_comm]
    rw [hnext]
    exact zpow_le_zpow_right₀ (by norm_num) (by omega)
  have hquarter : ((leadingBit : ℚ) - 1 / 4) * 2 ^ q' ≤ lowEnd m' q' := by
    have hpos' := two_zpow_pos q'
    unfold lowEnd
    split
    · rename_i hleast
      rw [hleast.1]
    · rename_i hleast
      have hgt : leadingBit < m' := lt_of_le_of_ne hfull (fun heq => hleast ⟨heq.symm, by omega⟩)
      have hgt' : (leadingBit : ℚ) + 1 ≤ m' := by exact_mod_cast hgt
      nlinarith
  have hlead : (0 : ℚ) ≤ leadingBit - 1 / 4 := by norm_num [leadingBit]
  calc ((2 * leadingBit : Nat) - 1 / 2 : ℚ) * 2 ^ q
      = (leadingBit - 1 / 4) * (2 * 2 ^ q) := by push_cast; ring
    _ ≤ (leadingBit - 1 / 4) * 2 ^ q' := mul_le_mul_of_nonneg_left hdouble hlead
    _ ≤ lowEnd m' q' := hquarter

/-- The interval of a larger double lies above that of a smaller one. The two touch at most where
one of the mantissas is odd. -/
theorem highEnd_le_lowEnd (h : Canonical m q) (h' : Canonical m' q')
    (hlt : q < q' ∨ q = q' ∧ m < m') :
    highEnd m q ≤ lowEnd m' q' ∧ (m % 2 = 0 → m' % 2 = 0 → highEnd m q < lowEnd m' q') := by
  have hpos := two_zpow_pos q
  unfold highEnd
  rcases hlt with hlt | ⟨rfl, hlt⟩
  · have hlow := le_lowEnd_of_lt h' h.le hlt
    have hm := h.lt
    refine ⟨?_, fun heven _ => ?_⟩
    · have hm' : (m : ℚ) + 1 ≤ (2 * leadingBit : Nat) := by exact_mod_cast hm
      nlinarith
    · have hnext : m + 2 ≤ 2 * leadingBit := by omega
      have hm' : (m : ℚ) + 2 ≤ (2 * leadingBit : Nat) := by exact_mod_cast hnext
      nlinarith
  · have hlow := half_le_lowEnd m' q
    refine ⟨?_, fun heven heven' => ?_⟩
    · have hm' : (m : ℚ) + 1 ≤ m' := by exact_mod_cast hlt
      nlinarith
    · have hnext : m + 2 ≤ m' := by omega
      have hm' : (m : ℚ) + 2 ≤ m' := by exact_mod_cast hnext
      nlinarith

theorem not_roundsTo_of_lt (h : Canonical m q) (h' : Canonical m' q')
    (hlt : q < q' ∨ q = q' ∧ m < m') (hx : RoundsTo m q x) : ¬RoundsTo m' q' x := by
  intro hx'
  obtain ⟨hends, hstrict⟩ := highEnd_le_lowEnd h h' hlt
  have hhigh := hx.le_high
  have hlow := hx'.low_le
  rcases Nat.mod_two_eq_zero_or_one m with heven | hodd
  · rcases Nat.mod_two_eq_zero_or_one m' with heven' | hodd'
    · have := hstrict heven heven'
      linarith
    · have := (hx'.inner hodd').1
      linarith
  · have := (hx.inner hodd).2
    linarith

/-- A number rounds to one double at most. -/
theorem RoundsTo.unique (h : Canonical m q) (h' : Canonical m' q') (hx : RoundsTo m q x)
    (hx' : RoundsTo m' q' x) : m = m' ∧ q = q' := by
  have hne := fun hlt => not_roundsTo_of_lt h h' hlt hx hx'
  have hne' := fun hlt => not_roundsTo_of_lt h' h hlt hx' hx
  have hq : q = q' := by
    rcases lt_trichotomy q q' with hlt | heq | hlt
    · exact absurd (.inl hlt) hne
    · exact heq
    · exact absurd (.inl hlt) hne'
  refine ⟨?_, hq⟩
  rcases lt_trichotomy m m' with hlt | heq | hlt
  · exact absurd (.inr ⟨hq, hlt⟩) hne
  · exact heq
  · exact absurd (.inr ⟨hq.symm, hlt⟩) hne'

end Ends

section Grids
variable {i : Interval} {tie : Tie} {p : Int} {c : Nat}

/-- An integer power as a quotient of powers. -/
theorem zpow_mul_toNat {b : ℚ} (hb : b ≠ 0) (p : Int) : b ^ p * b ^ (-p).toNat = b ^ p.toNat := by
  rw [← zpow_natCast, ← zpow_natCast, ← zpow_add₀ hb]
  congr 1
  omega

theorem cast_pow_ten (k : Nat) : ((Nat.pow 10 k : Nat) : ℚ) = 10 ^ k := by
  rw [Nat.pow_eq, Nat.cast_pow, Nat.cast_ofNat]

/-- The point `c * 10 ^ p` lies between the ends; all is scaled to whole numbers. -/
def Interval.Meets (i : Interval) (p : Int) (c : Nat) : Prop :=
  let up := Nat.pow 10 (-p).toNat
  let step := i.unit * Nat.pow 10 p.toNat
  if i.closed then i.low * up ≤ c * step ∧ c * step ≤ i.high * up
  else i.low * up < c * step ∧ c * step < i.high * up

/-- The value lies strictly between the ends. -/
structure Interval.Proper (i : Interval) : Prop where
  low_lt : i.low < i.value
  lt_high : i.value < i.high
  unit_pos : 0 < i.unit

theorem Interval.meets_of_gridPoint? (hi : i.Proper) (h : i.gridPoint? tie p = some c) :
    i.Meets p c := by
  have hup : 0 < Nat.pow 10 (-p).toNat := Nat.pow_pos (by decide)
  have hstep : 0 < i.unit * Nat.pow 10 p.toNat :=
    Nat.mul_pos hi.unit_pos (Nat.pow_pos (by decide))
  have hlow := Nat.mul_lt_mul_of_pos_right hi.low_lt hup
  have hhigh := Nat.mul_lt_mul_of_pos_right hi.lt_high hup
  unfold gridPoint? at h
  unfold Meets
  dsimp only at h ⊢
  generalize i.unit * Nat.pow 10 p.toNat = step at *
  generalize i.low * Nat.pow 10 (-p).toNat = low at *
  generalize i.high * Nat.pow 10 (-p).toNat = high at *
  generalize i.value * Nat.pow 10 (-p).toNat = value at *
  -- The value lies between the grid point and the next one.
  have hfloor : value / step * step ≤ value := Nat.div_mul_le_self _ _
  have hnext : value < (value / step + 1) * step := by
    rw [Nat.succ_mul]
    exact Nat.lt_div_mul_add hstep
  generalize value / step = floor at *
  cases hclosed : i.closed
  all_goals
    simp only [hclosed, Bool.false_eq_true, ↓reduceIte] at h ⊢
    grind

section Scaling
variable {n : Nat} {a : ℚ}

theorem Interval.cast_point (i : Interval) (p : Int) (c : Nat) :
    ((c * (i.unit * Nat.pow 10 p.toNat) : Nat) : ℚ) =
      c * 10 ^ p * (i.unit * 10 ^ (-p).toNat) := by
  have hpow := zpow_mul_toNat (b := 10) (by norm_num) p
  push_cast [cast_pow_ten, ← hpow]
  ring

theorem Interval.cast_end (hn : (n : ℚ) = a * i.unit) :
    ((n * Nat.pow 10 (-p).toNat : Nat) : ℚ) = a * (i.unit * 10 ^ (-p).toNat) := by
  push_cast [cast_pow_ten, hn]
  ring

theorem Interval.le_point_iff (hunit : 0 < i.unit) (hn : (n : ℚ) = a * i.unit) :
    n * Nat.pow 10 (-p).toNat ≤ c * (i.unit * Nat.pow 10 p.toNat) ↔ a ≤ c * 10 ^ p := by
  have hpos : (0 : ℚ) < i.unit * 10 ^ (-p).toNat := by positivity
  rw [← Nat.cast_le (α := ℚ), cast_end hn, cast_point, mul_le_mul_iff_left₀ hpos]

theorem Interval.point_le_iff (hunit : 0 < i.unit) (hn : (n : ℚ) = a * i.unit) :
    c * (i.unit * Nat.pow 10 p.toNat) ≤ n * Nat.pow 10 (-p).toNat ↔ c * 10 ^ p ≤ a := by
  have hpos : (0 : ℚ) < i.unit * 10 ^ (-p).toNat := by positivity
  rw [← Nat.cast_le (α := ℚ), cast_end hn, cast_point, mul_le_mul_iff_left₀ hpos]

end Scaling

/-- A grid that is finer than the interval is wide has a point in it. -/
theorem Interval.gridPoint?_ne_none (tie : Tie) (hwide : i.low + i.unit * 10 ^ p < (i.high : ℚ)) :
    i.gridPoint? tie p ≠ none := by
  have hwide : i.low * Nat.pow 10 (-p).toNat + i.unit * Nat.pow 10 p.toNat <
      i.high * Nat.pow 10 (-p).toNat := by
    have hpos : (0 : ℚ) < 10 ^ (-p).toNat := by positivity
    have hpow := zpow_mul_toNat (b := 10) (by norm_num) p
    rw [← Nat.cast_lt (α := ℚ)]
    push_cast [cast_pow_ten, ← hpow]
    linarith [mul_lt_mul_of_pos_right hwide hpos]
  intro h
  unfold gridPoint? at h
  dsimp only at h
  generalize i.unit * Nat.pow 10 p.toNat = step at *
  generalize i.low * Nat.pow 10 (-p).toNat = low at *
  generalize i.high * Nat.pow 10 (-p).toNat = high at *
  generalize i.value * Nat.pow 10 (-p).toNat / step = floor at *
  have hnext : (floor + 1) * step = floor * step + step := Nat.succ_mul _ _
  cases hclosed : i.closed
  all_goals
    simp only [hclosed, Bool.false_eq_true, ↓reduceIte] at h
    grind

/-- The digits of a grid point, as the search gives them back. -/
def gridDigits (p : Int) (c : Nat) : Digits :=
  ⟨trimZeros (Nat.toDigits 10 c), p + (Nat.toDigits 10 c).length - 1⟩

theorem Interval.search_of_gridPoint? {top : Int} {k places j : Nat} (hj : j < k)
    (h : i.gridPoint? tie (top - (places + j : Nat)) ≠ none) :
    ∃ p c, i.gridPoint? tie p = some c ∧ i.search tie top k places = gridDigits p c := by
  induction k generalizing places j with
  | zero => omega
  | succ k ih =>
    cases hpoint : i.gridPoint? tie (top - places) with
    | some c =>
      refine ⟨_, c, hpoint, ?_⟩
      rw [search, hpoint]
      rfl
    | none =>
      -- The point is not on this grid, so it is on a later one.
      obtain ⟨j, rfl⟩ : ∃ j', j = j' + 1 := by
        refine Nat.exists_eq_succ_of_ne_zero ?_
        rintro rfl
        simp [hpoint] at h
      rw [search, hpoint]
      refine ih (j := j) (by omega) ?_
      rwa [show places + (j + 1) = places + 1 + j by omega] at h

theorem pow_pred_length_le {n : Nat} (h : 0 < n) :
    10 ^ ((Nat.toDigits 10 n).length - 1) ≤ n := by
  have hlength : 0 < (Nat.toDigits 10 n).length := Nat.length_toDigits_pos
  by_cases hone : (Nat.toDigits 10 n).length = 1
  · rw [hone]
    exact h
  · by_contra hlt
    have hle := (Nat.length_toDigits_le_iff (by decide) (by omega)).mpr (Nat.lt_of_not_le hlt)
    omega

/-- The digits of a quotient, scaled so that it is not zero, tell its magnitude. -/
theorem pow_length_mul_le {v u k : Nat} (hu : 0 < u) (hlarge : u ≤ v * Nat.pow 10 k) :
    (10 : ℚ) ^ (((Nat.toDigits 10 (v * Nat.pow 10 k / u)).length : Int) - (k + 1 : Nat)) * u ≤
      v := by
  have hdiv := Nat.div_mul_le_self (v * Nat.pow 10 k) u
  have hpow := pow_pred_length_le (Nat.div_pos hlarge hu)
  have hlength : 0 < (Nat.toDigits 10 (v * Nat.pow 10 k / u)).length := Nat.length_toDigits_pos
  generalize v * Nat.pow 10 k / u = n at *
  generalize (Nat.toDigits 10 n).length = length at *
  have hsplit : (10 : ℚ) ^ ((length : Int) - (k + 1 : Nat)) * 10 ^ k = 10 ^ (length - 1) := by
    have hexp : (length : Int) - (k + 1 : Nat) + k = (length - 1 : Nat) := by omega
    rw [← zpow_natCast 10 k, ← zpow_natCast 10 (length - 1), ← zpow_add₀ (by norm_num), hexp]
  refine le_of_mul_le_mul_right ?_ (by positivity : (0 : ℚ) < 10 ^ k)
  calc (10 : ℚ) ^ ((length : Int) - (k + 1 : Nat)) * u * 10 ^ k
      = 10 ^ ((length : Int) - (k + 1 : Nat)) * 10 ^ k * u := mul_right_comm _ _ _
    _ = ((10 ^ (length - 1) * u : Nat) : ℚ) := by
      rw [hsplit, Nat.cast_mul, Nat.cast_pow, Nat.cast_ofNat]
    _ ≤ ((v * Nat.pow 10 k : Nat) : ℚ) :=
      Nat.cast_le.mpr ((Nat.mul_le_mul_right _ hpow).trans hdiv)
    _ = v * 10 ^ k := by rw [Nat.cast_mul, cast_pow_ten]

theorem Interval.exists_magnitude_eq (i : Interval) : ∃ k : Nat, 358 ≤ k ∧ i.magnitude =
    ((Nat.toDigits 10 (i.value * Nat.pow 10 k / i.unit)).length : Int) - (k + 1 : Nat) := by
  -- The exponent has a name, so that the power is never worked out.
  obtain ⟨k, hk⟩ : ∃ k, k = 400 := ⟨_, rfl⟩
  have hnext : (401 : Int) = (k + 1 : Nat) := by omega
  refine ⟨k, by omega, ?_⟩
  rw [Interval.magnitude, hnext, ← hk]

end Grids

section Doubles
variable {m : Nat} {q : Int}

theorem interval_proper (hm : 0 < m) (q : Int) : (interval m q).Proper := by
  have hgap : 0 < Nat.pow 2 q.toNat := Nat.pow_pos (by decide)
  have hvalue : Nat.pow 2 q.toNat ≤ m * Nat.pow 2 q.toNat := Nat.le_mul_of_pos_left _ hm
  have hunit : 0 < 4 * Nat.pow 2 (-q).toNat := Nat.mul_pos (by decide) (Nat.pow_pos (by decide))
  refine ⟨?_, ?_, hunit⟩
  · unfold interval
    dsimp only
    rw [Nat.mul_assoc]
    split <;> omega
  · unfold interval
    dsimp only
    omega

/-- The ends as whole numbers, over the unit. -/
theorem low_interval (hm : 0 < m) (q : Int) :
    ((interval m q).low : ℚ) = lowEnd m q * (interval m q).unit := by
  have hpow := zpow_mul_toNat (b := 2) two_ne_zero q
  have hm' : 1 ≤ m := hm
  unfold interval lowEnd
  dsimp only
  split
  · rw [Nat.cast_sub (by nlinarith)]
    push_cast [Nat.pow_eq]
    linear_combination (4 * (m : ℚ) - 1) * (-hpow)
  · rw [Nat.cast_sub (by nlinarith)]
    push_cast [Nat.pow_eq]
    linear_combination (4 * (m : ℚ) - 2) * (-hpow)

theorem high_interval (m : Nat) (q : Int) :
    ((interval m q).high : ℚ) = highEnd m q * (interval m q).unit := by
  have hpow := zpow_mul_toNat (b := 2) two_ne_zero q
  unfold interval highEnd
  dsimp only
  push_cast [Nat.pow_eq]
  linear_combination (4 * (m : ℚ) + 2) * (-hpow)

theorem value_interval (m : Nat) (q : Int) :
    ((interval m q).value : ℚ) = m * 2 ^ q * (interval m q).unit := by
  have hpow := zpow_mul_toNat (b := 2) two_ne_zero q
  unfold interval
  dsimp only
  push_cast [Nat.pow_eq]
  linear_combination (4 * (m : ℚ)) * (-hpow)

theorem roundsTo_of_meets {p : Int} {c : Nat} (hm : 0 < m) (h : (interval m q).Meets p c) :
    RoundsTo m q (c * 10 ^ p) := by
  have hunit := (interval_proper hm q).unit_pos
  have hlow := low_interval hm q
  have hhigh := high_interval m q
  have hclosed : (interval m q).closed = (m % 2 == 0) := rfl
  unfold Interval.Meets at h
  dsimp only at h
  rw [hclosed] at h
  split at h
  · rename_i heven
    refine ⟨(Interval.le_point_iff hunit hlow).mp h.1, (Interval.point_le_iff hunit hhigh).mp h.2,
      fun hodd => ?_⟩
    simp [hodd] at heven
  · have hlow' := not_le.mp (mt (Interval.point_le_iff hunit hlow).mpr (not_le.mpr h.1))
    have hhigh' := not_le.mp (mt (Interval.le_point_iff hunit hhigh).mpr (not_le.mpr h.2))
    exact ⟨hlow'.le, hhigh'.le, fun _ => ⟨hlow', hhigh'⟩⟩

theorem two_pow_le_ten_pow {a k : Nat} (h : a ≤ 3 * k) : Nat.pow 2 a ≤ Nat.pow 10 k :=
  calc 2 ^ a ≤ 2 ^ (3 * k) := Nat.pow_le_pow_right (by decide) h
    _ = (2 ^ 3) ^ k := pow_mul 2 3 k
    _ ≤ 10 ^ k := Nat.pow_le_pow_left (by decide) k

theorem unit_le_value {k : Nat} (hm : 0 < m) (hk : (-q).toNat ≤ 3 * k) :
    (interval m q).unit ≤ (interval m q).value * Nat.pow 10 k := by
  have hvalue : 4 * 1 * 1 ≤ 4 * m * 2 ^ q.toNat :=
    Nat.mul_le_mul (Nat.mul_le_mul_left 4 hm) Nat.one_le_two_pow
  exact Nat.mul_le_mul hvalue (two_pow_le_ten_pow hk)

/-- A step in the seventeenth digit is smaller than the interval is wide. -/
theorem lowEnd_add_lt_highEnd (h : Canonical m q) {top : Int} (htop : (10 : ℚ) ^ top ≤ m * 2 ^ q) :
    lowEnd m q + 10 ^ (top - 16) < highEnd m q := by
  have hpos := two_zpow_pos q
  have hstep : (10 : ℚ) ^ (top - 16) ≤ m / 10 ^ 16 * 2 ^ q := by
    have hsplit : (10 : ℚ) ^ (top - 16) = 10 ^ top / 10 ^ 16 := by
      rw [zpow_sub₀ (by norm_num)]
      norm_cast
    rw [hsplit, div_le_iff₀ (by norm_num)]
    linarith
  unfold lowEnd highEnd
  split
  · rename_i hleast
    have hm : (m : ℚ) / 10 ^ 16 < 3 / 4 := by
      rw [hleast.1]
      norm_num [leadingBit]
    nlinarith
  · have hm : (m : ℚ) / 10 ^ 16 < 1 := by
      have hlt : (m : ℚ) < (2 * leadingBit : Nat) := Nat.cast_lt.mpr h.lt
      rw [div_lt_one (by norm_num)]
      refine hlt.trans ?_
      norm_num [leadingBit]
    nlinarith

/-- Seventeen digits are enough. -/
theorem gridPoint?_interval_ne_none (h : Canonical m q) (hm : 0 < m) (tie : Tie) :
    (interval m q).gridPoint? tie ((interval m q).magnitude - 16) ≠ none := by
  have hunit : (0 : ℚ) < (interval m q).unit := Nat.cast_pos.mpr (interval_proper hm q).unit_pos
  have hq := h.le
  obtain ⟨k, hk, hmagnitude⟩ := (interval m q).exists_magnitude_eq
  have hlarge := unit_le_value (k := k) (q := q) hm (by omega)
  have htop := pow_length_mul_le (interval_proper hm q).unit_pos hlarge
  rw [← hmagnitude, value_interval, mul_le_mul_iff_left₀ hunit] at htop
  refine Interval.gridPoint?_ne_none tie ?_
  rw [low_interval hm, high_interval]
  nlinarith [lowEnd_add_lt_highEnd h htop]

/-- The decimal of the search is a grid point in the interval. -/
theorem search_interval (h : Canonical m q) (hm : 0 < m) (tie : Tie) :
    ∃ (p : Int) (c : Nat), RoundsTo m q (c * 10 ^ p) ∧
      (interval m q).search tie (interval m q).magnitude 17 0 = gridDigits p c := by
  have hpoint : (interval m q).gridPoint? tie ((interval m q).magnitude - (0 + 16 : Nat)) ≠ none :=
    gridPoint?_interval_ne_none h hm tie
  obtain ⟨p, c, hc, hsearch⟩ := Interval.search_of_gridPoint? (by decide : 16 < 17) hpoint
  exact ⟨p, c, roundsTo_of_meets hm (Interval.meets_of_gridPoint? (interval_proper hm q) hc),
    hsearch⟩

end Doubles

end CommandScript.Decimal
