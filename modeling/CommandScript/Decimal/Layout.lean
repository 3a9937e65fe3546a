import CommandScript.Decimal.Shortest
/-! # Writing doubles

The digits are the shortest ones; a layout says which magnitudes are written out in full, how the
exponent of the others is written, and what stands for the values that no decimal denotes.
-/
namespace CommandScript.Decimal

structure Layout where
  /-- The least exponent that is written out in full. -/
  least : Int
  /-- The exponents from here on are not. -/
  limit : Int
  tie : Tie
  /-- Whether an exponent that is not negative carries a sign. -/
  plus : Bool
  infinite : String
  negativeInfinite : String
  undefined : String

/-- In full, with at least one digit on each side of the point. -/
def positional (d : Digits) : List Char :=
  if d.exponent < 0 then
    '0' :: '.' :: List.replicate (-d.exponent - 1).toNat '0' ++ d.digits
  else
    let places := d.exponent.toNat + 1
    if d.digits.length ≤ places then
      d.digits ++ List.replicate (places - d.digits.length) '0' ++ ['.', '0']
    else d.digits.take places ++ '.' :: d.digits.drop places

/-- One digit, the others behind the point, and the exponent. -/
def scientific (plus : Bool) (d : Digits) : List Char :=
  let mantissa := match d.digits with
    | c :: (r :: rs) => c :: '.' :: r :: rs
    | cs => cs
  let sign := if d.exponent < 0 then ['-'] else if plus then ['+'] else []
  mantissa ++ 'e' :: sign ++ Nat.toDigits 10 d.exponent.natAbs

def Layout.write (layout : Layout) (x : Float) : String :=
  if x.isNaN then layout.undefined
  else
    let p := Binary64.parts x
    if x.isInf then if p.negative then layout.negativeInfinite else layout.infinite
    else
      let sign := if p.negative then "-" else ""
      if p.mantissa = 0 then sign ++ "0.0"
      else
        let d := shortest layout.tie x
        let body := if layout.least ≤ d.exponent ∧ d.exponent < layout.limit then positional d
          else scientific layout.plus d
        sign ++ String.ofList body

end CommandScript.Decimal
