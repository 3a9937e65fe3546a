import CommandScript.SyntaxError
import CommandScript.TokenSource
/-! # Look-ahead

A bounded buffer in front of a token source. Tokens are fetched in batches, and only when a request
reaches past the buffer; a batch never overfills it. Once the source has given an end marker it is
not asked again, and the marker is repeated for ever. A failed fetch keeps what it fetched before
the failure.
-/
namespace CommandScript

structure LookaheadConfig where
  batch : Nat := 16
  capacity : Nat := 1024
deriving DecidableEq, Repr

/-- A token that ends the input. -/
abbrev EndMarker := { t : Token // t.kind = .eof }

structure Lookahead (σ : Type) where
  source : σ
  batch : Nat
  capacity : Nat
  buffer : List Token
  ended : Option EndMarker

namespace Lookahead
variable {σ : Type}

/-- A batch holds at least one token, and so does the buffer. -/
def ofSource (source : σ) (config : LookaheadConfig) : Lookahead σ :=
  ⟨source, max config.batch 1, max config.capacity 1, [], none⟩

/-- The buffer's length after whole batches have been added to `held` tokens until place `n` is
filled. -/
def target (b : Lookahead σ) (held n : Nat) : Nat :=
  min b.capacity (held + (n - held) / b.batch * b.batch + b.batch)

theorem target_le (b : Lookahead σ) (held n : Nat) : b.target held n ≤ b.capacity :=
  Nat.min_le_left ..

/-- Whole batches, cut at the capacity, reach past the wanted place. -/
theorem lt_target {b : Lookahead σ} {held n : Nat} (hbatch : 0 < b.batch) (hn : n < b.capacity)
    (hheld : held ≤ n) : n < b.target held n := by
  have hbatches : n - held < (n - held) / b.batch * b.batch + b.batch := Nat.lt_div_mul_add hbatch
  unfold target
  omega

/-- Fetches tokens, up to an end marker or an error. -/
def fetch [TokenSource σ] : Nat → Lookahead σ → Except LexError Unit × Lookahead σ
  | 0, b => (.ok (), b)
  | k + 1, b =>
    match TokenSource.next b.source with
    | (.error e, source) => (.error e, { b with source })
    | (.ok t, source) =>
      if h : t.kind = .eof then
        (.ok (), { b with source, buffer := b.buffer ++ [t], ended := some ⟨t, h⟩ })
      else fetch k { b with source, buffer := b.buffer ++ [t] }

/-- Makes place `n` of the buffer available, if the source reaches that far. -/
def fill [TokenSource σ] (b : Lookahead σ) (n : Nat) : Except SyntaxError Unit × Lookahead σ :=
  if b.capacity ≤ n then (.error (.lookaheadOverflow n b.capacity), b)
  else if b.ended.isSome || n < b.buffer.length then (.ok (), b)
  else
    let (outcome, after) := fetch (b.target b.buffer.length n - b.buffer.length) b
    (outcome.mapError .lex, after)

def endMarker (b : Lookahead σ) : EndMarker := b.ended.getD ⟨⟨.eof, "", 0⟩, rfl⟩

/-- The token `n` places ahead. -/
def peek [TokenSource σ] (b : Lookahead σ) (n : Nat) : Except SyntaxError Token × Lookahead σ :=
  let (outcome, after) := b.fill n
  (outcome.map (fun _ => after.buffer[n]?.getD after.endMarker.1), after)

/-- Takes the next token. -/
def advance [TokenSource σ] (b : Lookahead σ) : Except SyntaxError Token × Lookahead σ :=
  match b.fill 0 with
  | (.error e, after) => (.error e, after)
  | (.ok _, after) =>
    match after.buffer with
    | [] => (.ok after.endMarker.1, after)
    | t :: rest => (.ok t, { after with buffer := rest })

end Lookahead

end CommandScript
