import CommandScript.Decimal.Binary64
import Mathlib
/-! # Doubles and their parts

A double is determined by its bits, and its bits by its sign, its mantissa and its exponent. The
mantissa has full length, unless the exponent is the least one.
-/
namespace CommandScript.Binary64

section Finite
variable {x : Float}

theorem isNaN_of_isFinite (h : x.isFinite = true) : x.isNaN = false := by
  simp only [Float.isFinite, Float.isNaN, Float.Model.isFinite, Float.Model.isNaN] at *
  cases hx : x.toModel.unpack <;> rw [hx] at h <;>
    simp_all [Float.Model.UnpackedFloat.isFinite, Float.Model.UnpackedFloat.isNaN]

theorem isInf_of_isFinite (h : x.isFinite = true) : x.isInf = false := by
  simp only [Float.isFinite, Float.isInf, Float.Model.isFinite, Float.Model.isInf] at *
  cases hx : x.toModel.unpack <;> rw [hx] at h <;>
    simp_all [Float.Model.UnpackedFloat.isFinite, Float.Model.UnpackedFloat.isInf]

theorem isNaN_or_isInf (h : x.isFinite = false) : x.isNaN = true ∨ x.isInf = true := by
  simp only [Float.isFinite, Float.isNaN, Float.isInf, Float.Model.isFinite, Float.Model.isNaN,
    Float.Model.isInf] at *
  cases hx : x.toModel.unpack <;> rw [hx] at h <;>
    simp_all [Float.Model.UnpackedFloat.isFinite, Float.Model.UnpackedFloat.isNaN,
      Float.Model.UnpackedFloat.isInf]

end Finite

/-- The mantissa and the exponent that a double may have. -/
structure Canonical (m : Nat) (q : Int) : Prop where
  lt : m < 2 * leadingBit
  le : -1074 ≤ q
  limit : q ≤ 972
  full : leadingBit ≤ m ∨ q = -1074

/-- The bits behind the sign, of the double with the given parts. -/
def magnitudeBits (p : Parts) : Nat :=
  if p.mantissa < leadingBit then p.mantissa
  else (p.exponent + 1075).toNat * leadingBit + (p.mantissa - leadingBit)

def bits (p : Parts) : Nat := (if p.negative then 0x8000000000000000 else 0) + magnitudeBits p

theorem canonical_parts (x : Float) : Canonical (parts x).mantissa (parts x).exponent := by
  have hfield : x.toBits.toNat / leadingBit % 0x800 < 0x800 := Nat.mod_lt _ (by decide)
  have hfraction : x.toBits.toNat % leadingBit < leadingBit := Nat.mod_lt _ (by decide)
  unfold parts
  dsimp only
  split
  · refine ⟨?_, ?_, ?_, .inr rfl⟩ <;> dsimp only <;> omega
  · refine ⟨?_, ?_, ?_, .inl (Nat.le_add_right _ _)⟩ <;> dsimp only <;> omega

theorem negative_parts (x : Float) :
    (parts x).negative = decide (0x8000000000000000 ≤ x.toBits.toNat) := by
  unfold parts
  dsimp only
  split <;> rfl

theorem magnitudeBits_parts (x : Float) :
    magnitudeBits (parts x) = x.toBits.toNat / leadingBit % 0x800 * leadingBit +
      x.toBits.toNat % leadingBit := by
  have hfraction : x.toBits.toNat % leadingBit < leadingBit := Nat.mod_lt _ (by decide)
  unfold magnitudeBits parts
  dsimp only
  by_cases hfield : x.toBits.toNat / leadingBit % 0x800 = 0
  · rw [if_pos hfield, if_pos hfraction, hfield, Nat.zero_mul, Nat.zero_add]
  · rw [if_neg hfield, if_neg (by dsimp only; omega)]
    dsimp only
    rw [Int.sub_add_cancel, Int.toNat_natCast, Nat.add_sub_cancel_left]

theorem bits_parts (x : Float) : bits (parts x) = x.toBits.toNat := by
  have hlt : x.toBits.toNat < 0x10000000000000000 := x.toBits.toNat_lt
  rw [bits, negative_parts, magnitudeBits_parts]
  generalize x.toBits.toNat = b at *
  unfold leadingBit
  by_cases hsign : 0x8000000000000000 ≤ b
  · rw [if_pos (by simpa using hsign)]
    omega
  · rw [if_neg (by simpa using hsign)]
    omega

theorem ofBits_bits_parts (x : Float) : Float.ofBits (bits (parts x)).toUInt64 = x := by
  rw [bits_parts, Nat.toUInt64_eq, UInt64.ofNat_toNat, Float.ofBits_toBits]

end CommandScript.Binary64
