import CommandScript.Proofs.Streams.Requests
import CommandScript.Proofs.Streams.Row
import CommandScript.Proofs.Streams.Simulation
/-! # How often a source is called

The source behind a buffer is counted. A stream that is rationed serves its requests through such a
buffer and answers with an error of our choice as soon as a request has called the source more often
than it may. With one call for each token up to the source's end, and one for the end marker or the
error that the source ends with, that error never shows. So the source is called no more often.
-/
namespace CommandScript

instance {σ : Type} [FiniteSource σ] : FiniteSource (Counted σ) where
  size c := FiniteSource.size c.source
  size_next_le c := FiniteSource.size_next_le c.source
  size_next_lt c := FiniteSource.size_next_lt c.source

/-- The answers of a source up to its first end marker or error, with that one. -/
def TokenRow.items (r : TokenRow) : Nat := r.tokens.length + 1

namespace Lookahead
variable {σ : Type}

/-- The buffer in front of the source itself. -/
def uncounted (b : Lookahead (Counted σ)) : Lookahead σ :=
  ⟨b.source.source, b.batch, b.capacity, b.buffer, b.ended⟩

/-- The answers that a buffer may still fetch. -/
def unseen [FiniteSource σ] (b : Lookahead σ) : Nat :=
  if b.ended.isSome then 0 else (TokenRow.ofSource b.source).items

section Counting
variable [FiniteSource σ]

/-- A fetch from a counted source is one from the source itself. Each call is for an answer that has
not been seen, and the one that fails is for the last of them. -/
theorem fetch_uncounted (k : Nat) {b : Lookahead (Counted σ)} (hopen : b.ended = none) :
    (fetch k b).1 = (fetch k b.uncounted).1 ∧ (fetch k b).2.uncounted = (fetch k b.uncounted).2 ∧
      (fetch k b).2.source.pulls ≤ b.source.pulls + b.uncounted.unseen ∧
      ((fetch k b).1 = .ok () → (fetch k b).2.source.pulls + (fetch k b).2.uncounted.unseen ≤
        b.source.pulls + b.uncounted.unseen) := by
  induction k generalizing b with
  | zero => exact ⟨rfl, rfl, Nat.le_add_right _ _, fun _ => Nat.le_refl _⟩
  | succ k ih =>
    have hunseen : b.uncounted.unseen = (TokenRow.ofSource b.source.source).items := by
      simp [unseen, uncounted, hopen]
    rw [hunseen]
    unfold fetch
    have hplain : b.uncounted.source = b.source.source := rfl
    rw [hplain]
    rcases hnext : TokenSource.next b.source.source with ⟨answer, rest⟩
    rw [TokenSource.next_counted hnext]
    cases answer with
    | error e =>
      rw [TokenRow.ofSource_of_error hnext]
      exact ⟨rfl, rfl, Nat.le_refl _, fun h => by cases h⟩
    | ok t =>
      rw [TokenRow.ofSource_of_ok hnext]
      dsimp only
      split
      · rename_i hk
        exact ⟨rfl, rfl, Nat.le_refl _, fun _ => Nat.le_refl _⟩
      · rename_i hk
        obtain ⟨hanswer, hbuffer, hfailed, hok⟩ :=
          ih (b := { b with source := ⟨rest, b.source.pulls + 1⟩, buffer := b.buffer ++ [t] }) hopen
        have hrest : unseen (uncounted
            { b with source := ⟨rest, b.source.pulls + 1⟩, buffer := b.buffer ++ [t] }) =
            (TokenRow.ofSource rest).items := by
          simp [unseen, uncounted, hopen]
        rw [hrest] at hfailed hok
        dsimp only [TokenRow.items, List.length_cons] at hfailed hok ⊢
        refine ⟨hanswer, hbuffer, by omega, fun h => ?_⟩
        have := hok h
        omega

theorem fill_uncounted (b : Lookahead (Counted σ)) (n : Nat) :
    (b.fill n).1 = (b.uncounted.fill n).1 ∧ (b.fill n).2.uncounted = (b.uncounted.fill n).2 ∧
      (b.fill n).2.source.pulls ≤ b.source.pulls + b.uncounted.unseen ∧
      ((b.fill n).1 = .ok () → (b.fill n).2.source.pulls + (b.fill n).2.uncounted.unseen ≤
        b.source.pulls + b.uncounted.unseen) := by
  unfold fill
  by_cases hcapacity : b.capacity ≤ n
  · rw [if_pos hcapacity, if_pos (show b.uncounted.capacity ≤ n from hcapacity)]
    exact ⟨rfl, rfl, Nat.le_add_right _ _, fun h => by cases h⟩
  · rw [if_neg hcapacity, if_neg (show ¬b.uncounted.capacity ≤ n from hcapacity)]
    by_cases hfilled : (b.ended.isSome || decide (n < b.buffer.length)) = true
    · rw [if_pos hfilled,
        if_pos (show (b.uncounted.ended.isSome || decide (n < b.uncounted.buffer.length)) = true
          from hfilled)]
      exact ⟨rfl, rfl, Nat.le_add_right _ _, fun _ => Nat.le_refl _⟩
    · rw [if_neg hfilled,
        if_neg (show ¬(b.uncounted.ended.isSome || decide (n < b.uncounted.buffer.length)) = true
          from hfilled)]
      have hopen : b.ended = none := by
        cases hended : b.ended <;> simp_all
      obtain ⟨hanswer, hbuffer, hfailed, hok⟩ :=
        fetch_uncounted (b.target b.buffer.length n - b.buffer.length) hopen
      refine ⟨congrArg (Except.mapError SyntaxError.lex) hanswer, hbuffer, hfailed, fun h => ?_⟩
      exact hok (mapError_eq_ok_iff.mp h)

end Counting

section Served
variable [FiniteSource σ] {b here : Lookahead σ} {e : SyntaxError}

theorem first_of_error (h : b.fill 0 = (.error e, here)) : b.first = .error e := by
  unfold first
  split
  · rename_i h'
    cases h.symm.trans h'
    rfl
  · rename_i h'
    cases h.symm.trans h'

/-- The first token is that of the filled buffer, or the end marker when this is empty. -/
theorem first_of_ok (h : b.fill 0 = (.ok (), here)) :
    ∃ t, b.first = .ok t ∧ t.token = here.buffer[0]?.getD here.endMarker.1 ∧ t.here = here ∧
      t.after = { here with buffer := here.buffer.tail } := by
  unfold first
  split
  · rename_i h'
    cases h.symm.trans h'
  · rename_i h'
    cases h.symm.trans h'
    split
    · rename_i hbuffer
      have htail : here.buffer.tail = here.buffer := by rw [hbuffer]; rfl
      exact ⟨_, rfl, by simp [hbuffer], rfl, by rw [htail]⟩
    · rename_i hbuffer
      exact ⟨_, rfl, by simp [hbuffer], rfl, by simp [hbuffer]⟩

theorem second_of_error (h : b.fill 1 = (.error e, here)) : b.second = .error e := by
  have hpeek : b.peek 1 = (.error e, here) := by
    unfold peek
    rw [h]
    rfl
  unfold second
  split
  · rename_i h'
    cases hpeek.symm.trans h'
    rfl
  · rename_i h'
    cases hpeek.symm.trans h'

theorem second_of_ok (h : b.fill 1 = (.ok (), here)) :
    ∃ t, b.second = .ok t ∧ t.token = here.buffer[1]?.getD here.endMarker.1 ∧ t.here = here := by
  have hpeek : b.peek 1 = (.ok (here.buffer[1]?.getD here.endMarker.1), here) := by
    unfold peek
    rw [h]
    rfl
  unfold second
  split
  · rename_i h'
    cases hpeek.symm.trans h'
  · rename_i h'
    cases hpeek.symm.trans h'
    exact ⟨_, rfl, rfl, rfl⟩

end Served
end Lookahead

/-- A stream through a counted buffer that refuses once its source was called too often. -/
structure Rationed (σ : Type) where
  buffer : Lookahead (Counted σ)
  calls : Nat
  refusal : SyntaxError

namespace Rationed
variable {σ : Type} [FiniteSource σ]

def size (r : Rationed σ) : Nat := r.buffer.size

def first (r : Rationed σ) : Except SyntaxError (First size r) :=
  if r.calls < (r.buffer.fill 0).2.source.pulls then .error r.refusal
  else do
    let t ← r.buffer.first
    return ⟨t.token, { r with buffer := t.here }, { r with buffer := t.after }, t.here_le, t.after_le,
      t.after_lt⟩

def second (r : Rationed σ) : Except SyntaxError (Second size r) :=
  if r.calls < (r.buffer.fill 1).2.source.pulls then .error r.refusal
  else do
    let t ← r.buffer.second
    return ⟨t.token, { r with buffer := t.here }, t.here_le⟩

instance : TokenStream (Rationed σ) where
  size := size
  first := first
  second := second

/-- The calls that are left are enough for all that has not been seen. -/
structure Suffices (r : Rationed σ) (b : Lookahead σ) : Prop where
  buffer : r.buffer.uncounted = b
  calls : r.buffer.source.pulls + b.unseen ≤ r.calls

variable {r : Rationed σ} {b : Lookahead σ}

theorem Suffices.of_buffer {b here : Lookahead (Counted σ)} (hb : b = here)
    (hcalls : here.source.pulls + here.uncounted.unseen ≤ r.calls) :
    Suffices { r with buffer := b } here.uncounted := by
  subst hb
  exact ⟨rfl, hcalls⟩

theorem Suffices.first (h : r.Suffices b) :
    Follows (fun _ => False) (fun t t' => t.token = t'.token ∧ t.here.Suffices t'.here ∧
      t.after.Suffices t'.after) r.first b.first := by
  obtain ⟨rfl, hcalls⟩ := h
  obtain ⟨hanswer, hbuffer, hfailed, hok⟩ := r.buffer.fill_uncounted 0
  unfold Rationed.first
  rw [if_neg (by omega)]
  rcases hfill : r.buffer.fill 0 with ⟨answer, here⟩
  rw [hfill] at hanswer hbuffer hok
  have hplain : r.buffer.uncounted.fill 0 = (answer, here.uncounted) :=
    Prod.ext hanswer.symm hbuffer.symm
  cases answer with
  | error e =>
    rw [Lookahead.first_of_error hfill, Lookahead.first_of_error hplain]
    exact .error e
  | ok =>
    have hleft := Nat.le_trans (hok rfl) hcalls
    obtain ⟨t, ht, htoken, hhere, hafter⟩ := Lookahead.first_of_ok hfill
    obtain ⟨t', ht', htoken', hhere', hafter'⟩ := Lookahead.first_of_ok hplain
    rw [ht, ht']
    refine .ok ⟨htoken.trans htoken'.symm, ?_, ?_⟩
    · rw [hhere']
      exact .of_buffer hhere hleft
    · rw [hafter']
      exact .of_buffer hafter hleft

theorem Suffices.second (h : r.Suffices b) :
    Follows (fun _ => False) (fun t t' => t.token = t'.token ∧ t.here.Suffices t'.here)
      r.second b.second := by
  obtain ⟨rfl, hcalls⟩ := h
  obtain ⟨hanswer, hbuffer, hfailed, hok⟩ := r.buffer.fill_uncounted 1
  unfold Rationed.second
  rw [if_neg (by omega)]
  rcases hfill : r.buffer.fill 1 with ⟨answer, here⟩
  rw [hfill] at hanswer hbuffer hok
  have hplain : r.buffer.uncounted.fill 1 = (answer, here.uncounted) :=
    Prod.ext hanswer.symm hbuffer.symm
  cases answer with
  | error e =>
    rw [Lookahead.second_of_error hfill, Lookahead.second_of_error hplain]
    exact .error e
  | ok =>
    obtain ⟨t, ht, htoken, hhere⟩ := Lookahead.second_of_ok hfill
    obtain ⟨t', ht', htoken', hhere'⟩ := Lookahead.second_of_ok hplain
    rw [ht, ht']
    refine .ok ⟨htoken.trans htoken'.symm, ?_⟩
    rw [hhere']
    exact .of_buffer hhere (Nat.le_trans (hok rfl) hcalls)

/-- Requests keep to the ration. -/
theorem simulation_suffices :
    Simulation (fun _ => False) (Suffices : Rationed σ → Lookahead σ → Prop) where
  first := Suffices.first
  second := Suffices.second

/-- A source that may be called once for each of its answers is read like one without a ration. -/
theorem compileStream_rationed (names : Registries) (config : LookaheadConfig) (source : σ)
    (refusal : SyntaxError) :
    (compileStream names (Rationed.mk (Lookahead.ofSource (Counted.mk source 0) config)
        (TokenRow.ofSource source).items refusal)).result =
      (compileSource names config source).result := by
  have hstart : Suffices (Rationed.mk (Lookahead.ofSource (Counted.mk source 0) config)
      (TokenRow.ofSource source).items refusal) (Lookahead.ofSource source config) :=
    ⟨rfl, Nat.le_of_eq (Nat.zero_add _)⟩
  exact (simulation_suffices.compileStream names hstart).eq_of_not_early (fun _ h => h)

end Rationed

end CommandScript
