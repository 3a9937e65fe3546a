import CommandScript.Decimal.Reading
import CommandScript.Expr
/-! # Number literals

A text with `0x` in front is a hexadecimal integer, a text with a point in it a float, and any
other a decimal integer. Integers must fit 32 bits.
-/
namespace CommandScript.Expr

def int32? (n : Int) : Option Int32 :=
  if -0x80000000 ≤ n ∧ n < 0x80000000 then some (Int32.ofInt n) else none

def ofNumber? (text : String) : Option Expr :=
  match text.toList with
  | '0' :: 'x' :: ds => ((Decimal.readInt? 16 ds).bind int32?).map integer
  | cs =>
    if '.' ∈ cs then (Decimal.readFloat? cs).map float
    else ((Decimal.readInt? 10 cs).bind int32?).map integer

end CommandScript.Expr
