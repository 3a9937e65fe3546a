import CommandScript.Value
/-! # Evaluation

Expressions are evaluated without looking at any variable. Integers are 32 bits wide and wrap;
an address counts as the integer it is, if it fits; a float on either side makes the operation one
on floats. Only numbers can be computed with.
-/
namespace CommandScript

inductive EvalError where
  | unresolvedLabel (name : String)
  | divisionByZero
  | notNumeric (op : String) (operand : String)
  | addressOverflow (target : Address)
deriving DecidableEq, Repr

def EvalError.message : EvalError → String
  | unresolvedLabel name => s!"unresolved label '{name}'"
  | divisionByZero => "division by zero"
  | notNumeric op operand => s!"operator '{op}' cannot be applied to {operand}"
  | addressOverflow target => s!"address {target} does not fit in an integer"

/-- The greatest 32-bit integer. -/
def maxInteger : Nat := 0x7fffffff

/-- The values that operations work on. -/
inductive Number where
  | int (value : Int32)
  | float (value : Float)

namespace Number

def ofValue (op : String) : Value → Except EvalError Number
  | .int n => .ok (.int n)
  | .float x => .ok (.float x)
  | .address a =>
    if a ≤ maxInteger then .ok (.int (Int32.ofNat a)) else .error (.addressOverflow a)
  | v => .error (.notNumeric op v.kind)

def toValue : Number → Value
  | int n => .int n
  | float x => .float x

def toFloat : Number → Float
  | int n => n.toFloat
  | float x => x

def applyUnary : UnaryOp → Number → Number
  | .plus, n => n
  | .minus, int n => int (-n)
  | .minus, float x => float (-x)

/-- Division goes toward zero, and the remainder has the sign of the dividend. -/
def applyInt (op : BinaryOp) (a b : Int32) : Except EvalError Int32 :=
  match op with
  | .add => .ok (a + b)
  | .sub => .ok (a - b)
  | .mul => .ok (a * b)
  | .div => if b = 0 then .error .divisionByZero else .ok (a / b)
  | .mod => if b = 0 then .error .divisionByZero else .ok (a % b)

def applyFloat (op : BinaryOp) (x y : Float) : Float :=
  match op with
  | .add => x + y
  | .sub => x - y
  | .mul => x * y
  | .div => x / y
  | .mod => Binary64.remainder x y

def applyBinary (op : BinaryOp) : Number → Number → Except EvalError Number
  | int a, int b => (applyInt op a b).map int
  | a, b => .ok (float (applyFloat op a.toFloat b.toFloat))

end Number

namespace Expr

def eval : Expr → Except EvalError Value
  | integer n => .ok (.int n)
  | float x => .ok (.float x)
  | string s => .ok (.str s)
  | identifier i => .ok (.identifier i)
  | var v => .ok (.var v)
  | flag f => .ok (.flag f)
  | label name => .error (.unresolvedLabel name)
  | address a => .ok (.address a)
  | unary op e => do
    let operand ← Number.ofValue op.symbol (← e.eval)
    return (Number.applyUnary op operand).toValue
  | binary op l r => do
    let left ← Number.ofValue op.symbol (← l.eval)
    let right ← Number.ofValue op.symbol (← r.eval)
    return (← Number.applyBinary op left right).toValue

/-- The values of several expressions, or the first error. -/
def evalAll (es : List Expr) : Except EvalError (List Value) := es.mapM eval

end Expr

end CommandScript
