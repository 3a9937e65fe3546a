import CommandScript.Token.Lexer
/-! # Token sources

A source hands out tokens on demand and may fail at any call. A finite source comes, after finitely
many other answers, to give nothing but end markers: its size drops with every call that gives
anything else.
-/
namespace CommandScript

class TokenSource (σ : Type) where
  next : σ → Except LexError Token × σ

class FiniteSource (σ : Type) extends TokenSource σ where
  size : σ → Nat
  size_next_le (s : σ) : size (next s).2 ≤ size s
  size_next_lt (s : σ) (h : ∀ t, (next s).1 = .ok t → t.kind ≠ .eof) : size (next s).2 < size s

instance : FiniteSource Lexer where
  next := Lexer.next
  size lexer := lexer.rest.length
  size_next_le := Lexer.length_next_le
  size_next_lt lexer h := by
    rcases Lexer.next_shorter lexer with he | hlt
    · exact absurd rfl (h _ (by rw [he]))
    · exact hlt.1

/-- A prepared list of answers, followed by end markers on the given line. -/
structure Replay where
  answers : List (Except LexError Token)
  line : Nat

def Replay.next (r : Replay) : Except LexError Token × Replay :=
  match r.answers with
  | [] => (.ok ⟨.eof, "", r.line⟩, r)
  | a :: rest => (a, { r with answers := rest })

instance : FiniteSource Replay where
  next := Replay.next
  size r := r.answers.length
  size_next_le r := by
    obtain ⟨answers, line⟩ := r
    cases answers <;> simp [Replay.next]
  size_next_lt r h := by
    obtain ⟨answers, line⟩ := r
    cases answers with
    | nil => exact absurd rfl (h _ rfl)
    | cons a rest => simp [Replay.next]

/-- A source together with the number of calls it has answered. -/
structure Counted (σ : Type) where
  source : σ
  pulls : Nat

instance {σ : Type} [TokenSource σ] : TokenSource (Counted σ) where
  next c :=
    let (answer, source) := TokenSource.next c.source
    (answer, ⟨source, c.pulls + 1⟩)

end CommandScript
