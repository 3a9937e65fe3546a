/-! # The parts of a double

A finite double is a sign, a whole mantissa and a power of two. Reading the parts off makes exact
integer arithmetic available where the hardware has no operation, as for the remainder.
-/
namespace CommandScript.Binary64

structure Parts where
  negative : Bool
  mantissa : Nat
  exponent : Int
deriving DecidableEq, Repr

/-- The leading bit of a mantissa of full length. -/
def leadingBit : Nat := 0x10000000000000

/-- The parts of a finite double: its magnitude is `mantissa * 2 ^ exponent`. -/
def parts (x : Float) : Parts :=
  let bits := x.toBits.toNat
  let fraction := bits % leadingBit
  let field : Nat := bits / leadingBit % 0x800
  let negative := decide (0x8000000000000000 ≤ bits)
  if field = 0 then ⟨negative, fraction, -1074⟩
  else ⟨negative, leadingBit + fraction, (field : Int) - 1075⟩

def ofParts (p : Parts) : Float :=
  let magnitude := (Float.ofNat p.mantissa).scaleB p.exponent
  if p.negative then -magnitude else magnitude

def nan : Float := 0.0 / 0.0

def infinity : Float := 1.0 / 0.0

/-- What is left of `x` after taking away `y` as often as it fits, with the sign of `x`. Both
magnitudes are written over the smaller of the two powers of two, so the remainder is exact. -/
def remainder (x y : Float) : Float :=
  if x.isNaN || y.isNaN || x.isInf then nan
  else if y.isInf then x
  else
    let p := parts x
    let q := parts y
    if q.mantissa = 0 then nan
    else if p.mantissa = 0 then x
    else
      let base := min p.exponent q.exponent
      let a := p.mantissa * Nat.pow 2 (p.exponent - base).toNat
      let b := q.mantissa * Nat.pow 2 (q.exponent - base).toNat
      ofParts ⟨p.negative, a % b, base⟩

end CommandScript.Binary64
