import CommandScript.Expr.Literal
/-! # Decimal digits

A run of decimal digits is read as the number that it spells, and a number written in decimal is
read back as it was. A number literal made of digits alone is an integer, if it fits 32 bits.
-/
namespace CommandScript

namespace Decimal

theorem digitValue?_of_isDigit {c : Char} (h : c.isDigit = true) :
    digitValue? c = some (c.toNat - '0'.toNat) := by
  simp [digitValue?, h]

theorem toNat_sub_lt_ten {c : Char} (h : c.isDigit = true) : c.toNat - '0'.toNat < 10 := by
  have hle : c.toNat ≤ 57 := by
    simp only [Char.isDigit, Bool.and_eq_true, decide_eq_true_eq] at h
    exact h.2
  have hzero : '0'.toNat = 48 := rfl
  omega

theorem readDigits?_of_digits {ds : List Char} (h : ∀ c ∈ ds, c.isDigit = true) (value : Nat) :
    readDigits? 10 value ds = some (Nat.ofDigitChars 10 ds value) := by
  induction ds generalizing value with
  | nil => rfl
  | cons c ds ih =>
    obtain ⟨hc, hds⟩ := List.forall_mem_cons.mp h
    have hlt := toNat_sub_lt_ten hc
    rw [readDigits?, digitValue?_of_isDigit hc]
    simp only [hlt, ↓reduceIte]
    rw [ih hds, Nat.ofDigitChars_cons, Nat.mul_comm value 10]

theorem readNat?_of_digits {ds : List Char} (hne : ds ≠ []) (h : ∀ c ∈ ds, c.isDigit = true) :
    readNat? 10 ds = some (Nat.ofDigitChars 10 ds 0) := by
  have hempty : ds.isEmpty = false := List.isEmpty_eq_false_iff.mpr hne
  simp only [readNat?, hempty, Bool.false_eq_true, ↓reduceIte, readDigits?_of_digits h]

theorem splitSign_cons {c : Char} (h : c.isDigit = true) (cs : List Char) :
    splitSign (c :: cs) = (false, c :: cs) := by
  have hminus : c ≠ '-' := by
    rintro rfl
    exact absurd h (by decide)
  have hplus : c ≠ '+' := by
    rintro rfl
    exact absurd h (by decide)
  unfold splitSign
  split <;> simp_all

theorem splitSign_of_digits {ds : List Char} (h : ∀ c ∈ ds, c.isDigit = true) :
    splitSign ds = (false, ds) := by
  cases ds with
  | nil => rfl
  | cons c ds => exact splitSign_cons (h c List.mem_cons_self) ds

theorem isDigit_of_mem_toDigits {n : Nat} {c : Char} (h : c ∈ Nat.toDigits 10 n) :
    c.isDigit = true :=
  Nat.isDigit_of_mem_toDigits (by decide) (by decide) h

theorem readNat?_toDigits (n : Nat) : readNat? 10 (Nat.toDigits 10 n) = some n := by
  rw [readNat?_of_digits Nat.toDigits_ne_nil (fun _ => isDigit_of_mem_toDigits),
    Nat.ofDigitChars_ten_toDigits]

/-- Only zero is written with a leading zero. -/
theorem exists_head_toDigits {n : Nat} (h : n ≠ 0) :
    ∃ c ds, Nat.toDigits 10 n = c :: ds ∧ c ≠ '0' := by
  induction n using Nat.strongRecOn with
  | ind n ih =>
    by_cases hlt : n < 10
    · refine ⟨n.digitChar, [], Nat.toDigits_of_lt_base hlt, ?_⟩
      simpa using h
    · obtain ⟨c, ds, htext, hc⟩ := ih (n / 10) (by omega) (by omega)
      refine ⟨c, ds ++ [(n % 10).digitChar], ?_, hc⟩
      rw [Nat.toDigits_of_base_le (by decide) (by omega), htext, List.cons_append]

theorem toList_toString_natCast (n : Nat) : (toString (n : Int)).toList = Nat.toDigits 10 n :=
  Nat.toList_repr

theorem toList_toString_negSucc (n : Nat) :
    (toString (Int.negSucc n)).toList = '-' :: Nat.toDigits 10 (n + 1) := by
  change ("-" ++ Nat.repr (n + 1)).toList = _
  rw [String.toList_append, Nat.toList_repr]
  rfl

theorem readInt?_digits (n : Nat) : readInt? 10 (Nat.toDigits 10 n) = some (n : Int) := by
  rw [readInt?, splitSign_of_digits (fun _ => isDigit_of_mem_toDigits)]
  simp [readNat?_toDigits]

theorem readInt?_plus (n : Nat) : readInt? 10 ('+' :: Nat.toDigits 10 n) = some (n : Int) := by
  simp [readInt?, splitSign, readNat?_toDigits]

theorem readInt?_minus (n : Nat) : readInt? 10 ('-' :: Nat.toDigits 10 n) = some (-(n : Int)) := by
  simp [readInt?, splitSign, readNat?_toDigits]

/-- A whole number in decimal, with a sign if it is negative, is read back. -/
theorem readInt?_toString (n : Int) : readInt? 10 (toString n).toList = some n := by
  cases n with
  | ofNat n => rw [Int.ofNat_eq_natCast, toList_toString_natCast, readInt?_digits]
  | negSucc n => rw [toList_toString_negSucc, readInt?_minus, Int.negSucc_eq, Int.natCast_succ]

end Decimal

namespace Expr

theorem int32?_toInt (n : Int32) : int32? n.toInt = some n := by
  have hlow := n.le_toInt
  have hhigh := n.toInt_lt
  have hfits : -0x80000000 ≤ n.toInt ∧ n.toInt < 0x80000000 := by
    constructor <;> omega
  rw [int32?, if_pos hfits, Int32.ofInt_toInt]

/-- Digits alone are read as a decimal integer. -/
theorem ofNumber?_of_digits {text : String} (h : ∀ c ∈ text.toList, c.isDigit = true) :
    ofNumber? text = ((Decimal.readInt? 10 text.toList).bind int32?).map integer := by
  have hpoint : '.' ∉ text.toList := fun hmem => absurd (h _ hmem) (by decide)
  unfold ofNumber?
  split
  · rename_i ds hds
    have hx := h 'x' (by rw [hds]; simp)
    exact absurd hx (by decide)
  · rw [if_neg hpoint]

end Expr

end CommandScript
