import CommandScript.Decimal.Binary64
/-! # Shortest decimals

The fewest decimal digits that still read back as the same double, and of those the digits nearest
to it. A double stands for every real that rounds to it; the ends of that interval belong to it
when its mantissa is even. For 1, 2, … 17 digits the two grid points around the double are tested
against the interval in exact arithmetic, and the first grid with a hit is taken.
-/
namespace CommandScript.Decimal

/-- The number `d₁.d₂d₃… * 10 ^ exponent`. -/
structure Digits where
  digits : List Char
  exponent : Int
deriving DecidableEq, Repr

/-- Which way a double goes that lies midway between two equally short decimals. -/
inductive Tie where
  | up
  | toEven
deriving DecidableEq, Repr

/-- The reals that round to `value / unit`: between `low / unit` and `high / unit`. -/
structure Interval where
  value : Nat
  low : Nat
  high : Nat
  unit : Nat
  closed : Bool

/-- The interval of `m * 2 ^ q`. Below a power of two the doubles lie twice as dense. -/
def interval (m : Nat) (q : Int) : Interval :=
  let gap := Nat.pow 2 q.toNat
  let value := 4 * m * gap
  { value
    low := if m = Binary64.leadingBit ∧ -1074 < q then value - gap else value - 2 * gap
    high := value + 2 * gap
    unit := 4 * Nat.pow 2 (-q).toNat
    closed := m % 2 == 0 }

/-- The exponent `e` with `10 ^ e ≤ value / unit < 10 ^ (e + 1)`. -/
def Interval.magnitude (i : Interval) : Int :=
  ((Nat.toDigits 10 (i.value * Nat.pow 10 400 / i.unit)).length : Int) - 401

/-- The point `c * 10 ^ p` of a grid that lies in the interval, nearest to the value. -/
def Interval.gridPoint? (i : Interval) (tie : Tie) (p : Int) : Option Nat :=
  let up := Nat.pow 10 (-p).toNat
  let step := i.unit * Nat.pow 10 p.toNat
  let value := i.value * up
  let c := value / step
  let below := if i.closed then i.low * up ≤ c * step else i.low * up < c * step
  let above := if i.closed then (c + 1) * step ≤ i.high * up else (c + 1) * step < i.high * up
  let twice := 2 * (value - c * step)
  if below ∧ above then
    if twice < step then some c
    else if step < twice then some (c + 1)
    else match tie with
      | .up => some (c + 1)
      | .toEven => some (if c % 2 = 0 then c else c + 1)
  else if below then some c
  else if above then some (c + 1)
  else none

def trimZeros (cs : List Char) : List Char := (cs.reverse.dropWhile (· == '0')).reverse

/-- Tries grids with ever more digits. -/
def Interval.search (i : Interval) (tie : Tie) (top : Int) : Nat → Nat → Digits
  | 0, _ => ⟨['0'], 0⟩
  | k + 1, places =>
    match i.gridPoint? tie (top - places) with
    | some c =>
      let cs := Nat.toDigits 10 c
      ⟨trimZeros cs, top - places + cs.length - 1⟩
    | none => i.search tie top k (places + 1)

/-- The shortest digits of a positive finite double. -/
def shortest (tie : Tie) (x : Float) : Digits :=
  let p := Binary64.parts x
  let i := interval p.mantissa p.exponent
  i.search tie i.magnitude 17 0

end CommandScript.Decimal
