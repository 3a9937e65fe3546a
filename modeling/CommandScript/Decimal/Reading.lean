import CommandScript.Decimal.Binary64
/-! # Reading numbers

Whole numbers in any base up to sixteen, and decimals with a point and an exponent. Both allow one
leading sign; neither allows anything else around the digits.
-/
namespace CommandScript.Decimal

def digitValue? (c : Char) : Option Nat :=
  if c.isDigit then some (c.toNat - '0'.toNat)
  else if 'a' ≤ c && c ≤ 'f' then some (c.toNat - 'a'.toNat + 10)
  else if 'A' ≤ c && c ≤ 'F' then some (c.toNat - 'A'.toNat + 10)
  else none

/-- Adds digits behind `value`. -/
def readDigits? (base : Nat) (value : Nat) : List Char → Option Nat
  | [] => some value
  | c :: cs =>
    match digitValue? c with
    | some d => if d < base then readDigits? base (value * base + d) cs else none
    | none => none

/-- A run of at least one digit. -/
def readNat? (base : Nat) (cs : List Char) : Option Nat :=
  if cs.isEmpty then none else readDigits? base 0 cs

/-- Whether there is a minus sign, and what follows the sign. -/
def splitSign : List Char → Bool × List Char
  | '-' :: cs => (true, cs)
  | '+' :: cs => (false, cs)
  | cs => (false, cs)

def readInt? (base : Nat) (cs : List Char) : Option Int :=
  let (negative, ds) := splitSign cs
  (readNat? base ds).map (fun n => if negative then -(n : Int) else n)

/-- The double nearest to `n * 10 ^ e`. Numbers far outside the range of doubles are settled by
their magnitude alone, however long their exponent is. -/
def nearest (n : Nat) (e : Int) : Float :=
  let magnitude := ((Nat.toDigits 10 n).length : Int) + e
  if n = 0 ∨ magnitude < -400 then 0.0
  else if 400 < magnitude then Binary64.infinity
  else Float.ofScientific n (e < 0) e.natAbs

/-- What an exponent adds; there may be none. -/
def readExponent? : List Char → Option Int
  | [] => some 0
  | c :: cs => if c = 'e' ∨ c = 'E' then readInt? 10 cs else none

def readFloat? (cs : List Char) : Option Float :=
  let (negative, unsigned) := splitSign cs
  let whole := unsigned.takeWhile Char.isDigit
  let (fraction, rest) := match unsigned.dropWhile Char.isDigit with
    | '.' :: r => (r.takeWhile Char.isDigit, r.dropWhile Char.isDigit)
    | r => ([], r)
  match readNat? 10 (whole ++ fraction), readExponent? rest with
  | some n, some e =>
    let x := nearest n (e - fraction.length)
    some (if negative then -x else x)
  | _, _ => none

end CommandScript.Decimal
