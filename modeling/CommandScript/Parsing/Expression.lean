import CommandScript.Expr.Literal
import CommandScript.Parsing.Stream
/-! # Reading expressions

An expression is a sum of products of primaries, both left associative; a primary is a literal, a
name, an expression in parentheses, or a sign in front of a primary. What a name stands for is not
the grammar's business: it is given as a function.
-/
namespace CommandScript

open TokenStream
variable {τ : Type} [TokenStream τ]

/-- Something read off the front of a stream, and the stream behind it. -/
structure Parsed (α : Type) (s : τ) where
  value : α
  rest : τ
  lt : size rest < size s

/-- Like `Parsed`, where perhaps nothing was read. -/
structure Reached (α : Type) (s : τ) where
  value : α
  rest : τ
  le : size rest ≤ size s

def Token.binaryOp? (t : Token) : Option BinaryOp :=
  if t.kind = .operator then BinaryOp.ofSymbol? t.text else none

theorem Token.ne_eof_of_binaryOp? {t : Token} {op : BinaryOp} (h : t.binaryOp? = some op) :
    t.kind ≠ .eof := by
  unfold binaryOp? at h
  split at h
  · simp_all
  · cases h

/-- The operation that the token stands for, if it is of the wanted rank. -/
def Token.binaryOf? (multiplicative : Bool) (t : Token) : Option BinaryOp :=
  t.binaryOp?.filter (fun op => op.isMultiplicative == multiplicative)

theorem Token.ne_eof_of_binaryOf? {m : Bool} {t : Token} {op : BinaryOp}
    (h : t.binaryOf? m = some op) : t.kind ≠ .eof :=
  ne_eof_of_binaryOp? (Option.filter_eq_some_iff.mp h).1

namespace Grammar

mutual

def primary (resolve : String → Expr) (s : τ) : Except SyntaxError (Parsed Expr s) := do
  let t ← first s
  match hk : t.token.kind with
  | .operator =>
    match UnaryOp.ofSymbol? t.token.text with
    | some op =>
      have := t.after_lt_of_kind hk (by decide)
      let e ← primary resolve t.after
      return ⟨.unary op e.value, e.rest, Nat.lt_trans e.lt this⟩
    | none => throw (.unexpected t.token)
  | .leftParen =>
    have := t.after_lt_of_kind hk (by decide)
    let e ← additive resolve t.after
    let close ← first e.rest
    if close.token.kind = .rightParen then
      return ⟨e.value, close.after, Nat.lt_of_le_of_lt close.after_le (Nat.lt_trans e.lt this)⟩
    else throw (.unmatchedParen close.token.line)
  | .number =>
    match Expr.ofNumber? t.token.text with
    | some e => return ⟨e, t.after, t.after_lt_of_kind hk (by decide)⟩
    | none => throw (.invalidNumber t.token.text t.token.line)
  | .string => return ⟨.string t.token.text, t.after, t.after_lt_of_kind hk (by decide)⟩
  | .ident => return ⟨resolve t.token.text, t.after, t.after_lt_of_kind hk (by decide)⟩
  | _ => throw (.unexpected t.token)
termination_by (size s, 0)

def multiplicative (resolve : String → Expr) (s : τ) : Except SyntaxError (Parsed Expr s) := do
  let left ← primary resolve s
  have := left.lt
  let e ← factors resolve left.value left.rest
  return ⟨e.value, e.rest, Nat.lt_of_le_of_lt e.le left.lt⟩
termination_by (size s, 1)

/-- The operands behind the first one of a product. -/
def factors (resolve : String → Expr) (left : Expr) (s : τ) :
    Except SyntaxError (Reached Expr s) := do
  let t ← first s
  match h : t.token.binaryOf? true with
  | some op =>
    have := t.after_lt (Token.ne_eof_of_binaryOf? h)
    let right ← primary resolve t.after
    have hr := Nat.lt_trans right.lt this
    let e ← factors resolve (.binary op left right.value) right.rest
    return ⟨e.value, e.rest, Nat.le_trans e.le (Nat.le_of_lt hr)⟩
  | none => return ⟨left, t.here, t.here_le⟩
termination_by (size s, 0)

def additive (resolve : String → Expr) (s : τ) : Except SyntaxError (Parsed Expr s) := do
  let left ← multiplicative resolve s
  have := left.lt
  let e ← terms resolve left.value left.rest
  return ⟨e.value, e.rest, Nat.lt_of_le_of_lt e.le left.lt⟩
termination_by (size s, 2)

/-- The operands behind the first one of a sum. -/
def terms (resolve : String → Expr) (left : Expr) (s : τ) :
    Except SyntaxError (Reached Expr s) := do
  let t ← first s
  match h : t.token.binaryOf? false with
  | some op =>
    have := t.after_lt (Token.ne_eof_of_binaryOf? h)
    let right ← multiplicative resolve t.after
    have hr := Nat.lt_trans right.lt this
    let e ← terms resolve (.binary op left right.value) right.rest
    return ⟨e.value, e.rest, Nat.le_trans e.le (Nat.le_of_lt hr)⟩
  | none => return ⟨left, t.here, t.here_le⟩
termination_by (size s, 0)

end

def expression (resolve : String → Expr) (s : τ) : Except SyntaxError (Parsed Expr s) :=
  additive resolve s

end Grammar

end CommandScript
