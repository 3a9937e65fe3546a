import CommandScript.Proofs.Streams.Simulation
/-! # How often a stream is asked

To see that reading comes to an end, and how soon, a stream is given an allowance: it serves so many
requests and answers any further one with an error of our choice. With six requests for each token
and three more, that error never shows, whatever it is. So the grammar makes no more requests than
that, also on streams that it rejects.
-/
namespace CommandScript

/-- A stream that serves so many requests and then refuses. -/
structure Capped (τ : Type) where
  stream : τ
  left : Nat
  refusal : SyntaxError

namespace Capped
variable {τ : Type} [TokenStream τ]

def size (c : Capped τ) : Nat := TokenStream.size c.stream

def first (c : Capped τ) : Except SyntaxError (First size c) :=
  match c.left with
  | 0 => .error c.refusal
  | k + 1 => do
    let t ← TokenStream.first c.stream
    return ⟨t.token, ⟨t.here, k, c.refusal⟩, ⟨t.after, k, c.refusal⟩, t.here_le, t.after_le, t.after_lt⟩

def second (c : Capped τ) : Except SyntaxError (Second size c) :=
  match c.left with
  | 0 => .error c.refusal
  | k + 1 => do
    let t ← TokenStream.second c.stream
    return ⟨t.token, ⟨t.here, k, c.refusal⟩, t.here_le⟩

instance : TokenStream (Capped τ) where
  size := size
  first := first
  second := second

end Capped

/-- A bound on what is left of a stream. It holds on behind every request, and there is a lower one
behind a token that was taken, an end marker apart. -/
structure Weighs {τ : Type} [TokenStream τ] (weight : τ → Nat → Prop) : Prop where
  here {s : τ} {n : Nat} {t : First TokenStream.size s} : weight s n → TokenStream.first s = .ok t →
    weight t.here n
  after {s : τ} {n : Nat} {t : First TokenStream.size s} : weight s n → TokenStream.first s = .ok t →
    weight t.after n
  taken {s : τ} {n : Nat} {t : First TokenStream.size s} : weight s n → TokenStream.first s = .ok t →
    t.token.kind ≠ .eof → ∃ m < n, weight t.after m
  second {s : τ} {n : Nat} {t : Second TokenStream.size s} : weight s n →
    TokenStream.second s = .ok t → weight t.here n

/-- The allowance is enough for six requests on each token that is left, and `spare` more. -/
structure Affords {τ : Type} (weight : τ → Nat → Prop) (spare : Nat) (c : Capped τ) (s : τ) : Prop where
  stream : c.stream = s
  left : ∃ n, weight s n ∧ 6 * n + spare ≤ c.left

section Allowance
variable {τ : Type} [TokenStream τ] {weight : τ → Nat → Prop} {c : Capped τ} {s : τ} {k : Nat}

theorem Affords.first (hw : Weighs weight) (h : Affords weight (k + 1) c s) :
    Follows (fun _ => False) (fun t t' => t.token = t'.token ∧ Affords weight k t.here t'.here ∧
        Affords weight k t.after t'.after ∧
        (t.token.kind ≠ .eof → Affords weight (k + 6) t.after t'.after))
      (TokenStream.first c) (TokenStream.first s) := by
  obtain ⟨stream, left, refusal⟩ := c
  obtain ⟨rfl, n, hn, hleft⟩ := h
  dsimp only at hleft
  obtain ⟨left, rfl⟩ : ∃ later, left = later + 1 := ⟨left - 1, by omega⟩
  change Follows _ _ (TokenStream.first stream >>= fun t => _) _
  cases hfirst : TokenStream.first stream with
  | error e => exact .error e
  | ok t =>
    have hspent : 6 * n + k ≤ left := by omega
    refine .ok ⟨rfl, ⟨rfl, n, hw.here hn hfirst, hspent⟩, ⟨rfl, n, hw.after hn hfirst, hspent⟩,
      fun hk => ⟨rfl, ?_⟩⟩
    obtain ⟨m, hmn, hm⟩ := hw.taken hn hfirst hk
    exact ⟨m, hm, Nat.le_trans (by omega) hspent⟩

theorem Affords.second (hw : Weighs weight) (h : Affords weight (k + 1) c s) :
    Follows (fun _ => False) (fun t t' => t.token = t'.token ∧ Affords weight k t.here t'.here)
      (TokenStream.second c) (TokenStream.second s) := by
  obtain ⟨stream, left, refusal⟩ := c
  obtain ⟨rfl, n, hn, hleft⟩ := h
  dsimp only at hleft
  obtain ⟨left, rfl⟩ : ∃ later, left = later + 1 := ⟨left - 1, by omega⟩
  change Follows _ _ (TokenStream.second stream >>= fun t => _) _
  cases hsecond : TokenStream.second stream with
  | error e => exact .error e
  | ok t => exact .ok ⟨rfl, rfl, n, hw.second hn hsecond, by dsimp only; omega⟩

/-- An allowance is spent request by request, and what a token brings is six requests. -/
theorem pace_affords (hw : Weighs weight) : Pace (fun _ => False) (Affords weight) where
  mono hjk h := by
    obtain ⟨n, hn, hleft⟩ := h.left
    exact ⟨h.stream, n, hn, Nat.le_trans (Nat.add_le_add_left hjk _) hleft⟩
  first h := h.first hw
  second h := h.second hw

/-- A stream with enough of an allowance is read like one without. -/
theorem compileStream_capped (hw : Weighs weight) (names : Registries) {s : τ} {n left : Nat}
    (hs : weight s n) (hleft : 6 * n + 3 ≤ left) (refusal : SyntaxError) :
    (compileStream names (Capped.mk s left refusal)).result = (compileStream names s).result := by
  have hstart : Affords weight 3 (Capped.mk s left refusal) s := ⟨rfl, n, hs, hleft⟩
  exact ((pace_affords hw).compileStream names hstart).eq_of_not_early (fun _ h => h)

end Allowance

end CommandScript
