import CommandScript.Lookahead
/-! # Token streams

What the grammar asks of its input: the first token, and now and then the second one. Either
request may fail. A stream has a size that no request enlarges, and that drops whenever a token
other than an end marker is taken off the front, so reading tokens off a stream comes to an end.
-/
namespace CommandScript

/-- The first token, the stream that still holds it and the stream behind it. -/
structure First {τ : Type} (size : τ → Nat) (s : τ) where
  token : Token
  here : τ
  after : τ
  here_le : size here ≤ size s
  after_le : size after ≤ size s
  after_lt : token.kind ≠ .eof → size after < size s

theorem First.after_lt_of_kind {τ : Type} {size : τ → Nat} {s : τ} (t : First size s)
    {k : TokenKind} (h : t.token.kind = k) (hk : k ≠ .eof) : size t.after < size s :=
  t.after_lt (h ▸ hk)

/-- The second token and the stream with both tokens still in it. -/
structure Second {τ : Type} (size : τ → Nat) (s : τ) where
  token : Token
  here : τ
  here_le : size here ≤ size s

class TokenStream (τ : Type) where
  size : τ → Nat
  first : (s : τ) → Except SyntaxError (First size s)
  second : (s : τ) → Except SyntaxError (Second size s)

namespace Lookahead
variable {σ : Type} [FiniteSource σ]

/-- The tokens still to be read, end markers apart, as far as they are bounded. -/
def size (b : Lookahead σ) : Nat :=
  b.buffer.countP (fun t => t.kind ≠ .eof) + FiniteSource.size b.source

theorem size_fetch_le (k : Nat) (b : Lookahead σ) : (fetch k b).2.size ≤ b.size := by
  induction k generalizing b with
  | zero => exact Nat.le_refl _
  | succ k ih =>
    have hle := FiniteSource.size_next_le b.source
    have hlt := FiniteSource.size_next_lt b.source
    unfold fetch
    split
    · rename_i e source h
      rw [h] at hle
      exact Nat.add_le_add_left hle _
    · rename_i t source h
      rw [h] at hle hlt
      split
      · rename_i hk
        simpa [size, List.countP_append, hk] using hle
      · rename_i hk
        refine Nat.le_trans (ih _) ?_
        have : FiniteSource.size source < FiniteSource.size b.source :=
          hlt (fun t' ht => by cases ht; exact hk)
        simp only [size, List.countP_append, List.countP_singleton, ne_eq, hk, not_false_eq_true,
          decide_true, ↓reduceIte]
        omega

theorem size_fill_le (b : Lookahead σ) (n : Nat) : (b.fill n).2.size ≤ b.size := by
  unfold fill
  split
  · exact Nat.le_refl _
  · split
    · exact Nat.le_refl _
    · exact size_fetch_le _ _

theorem size_rest_le {b : Lookahead σ} {t : Token} {rest : List Token} (h : b.buffer = t :: rest) :
    { b with buffer := rest }.size ≤ b.size := by
  simp [size, h, List.countP_cons]

theorem size_rest_lt {b : Lookahead σ} {t : Token} {rest : List Token} (h : b.buffer = t :: rest)
    (hk : t.kind ≠ .eof) : { b with buffer := rest }.size < b.size := by
  simp [size, h, hk]

def first (b : Lookahead σ) : Except SyntaxError (First size b) :=
  match h : b.fill 0 with
  | (.error e, _) => .error e
  | (.ok _, here) =>
    have hh : (b.fill 0).2 = here := congrArg Prod.snd h
    have hle : here.size ≤ b.size := hh ▸ b.size_fill_le 0
    match hb : here.buffer with
    | [] =>
      .ok ⟨here.endMarker.1, here, here, hle, hle, fun h => absurd here.endMarker.2 h⟩
    | t :: rest =>
      .ok
        { token := t
          here
          after := { here with buffer := rest }
          here_le := hle
          after_le := Nat.le_trans (size_rest_le hb) hle
          after_lt := fun hk => Nat.lt_of_lt_of_le (size_rest_lt hb hk) hle }

def second (b : Lookahead σ) : Except SyntaxError (Second size b) :=
  match h : b.peek 1 with
  | (.error e, _) => .error e
  | (.ok t, here) =>
    have hh : (b.fill 1).2 = here := congrArg Prod.snd h
    .ok ⟨t, here, hh ▸ b.size_fill_le 1⟩

instance : TokenStream (Lookahead σ) where
  size := size
  first := first
  second := second

end Lookahead

end CommandScript
