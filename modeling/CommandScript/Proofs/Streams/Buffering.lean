import CommandScript.Proofs.Streams.Row
import CommandScript.Proofs.Streams.Simulation
/-! # Buffered streams show their source's row

Whatever the sizes of batch and buffer, the tokens in a look-ahead buffer and those still in its
source are one row, and requests move along that row. Two errors may come early: the error at the
row's end, when a batch reaches it before the grammar does, and an overflow, when the buffer has no
room for a second token.
-/
namespace CommandScript

namespace Lookahead
variable {σ : Type} [FiniteSource σ]

/-- The buffer in front of the source is the row. Behind the end marker nothing is left to fetch,
and the marker itself may have been taken already. -/
def Shows (b : Lookahead σ) (row : TokenRow) : Prop :=
  match b.ended with
  | none =>
    row = ⟨b.buffer ++ (TokenRow.ofSource b.source).tokens, (TokenRow.ofSource b.source).ending⟩
  | some m => row.ending = .ok m ∧ (b.buffer = row.tokens ++ [m.1] ∨ b.buffer = [] ∧ row.tokens = [])

/-- A buffer shows one row only. -/
theorem Shows.unique {b : Lookahead σ} {row row' : TokenRow} (h : b.Shows row)
    (h' : b.Shows row') : row = row' := by
  obtain ⟨tokens, last⟩ := row
  obtain ⟨tokens', last'⟩ := row'
  unfold Shows at h h'
  cases hended : b.ended with
  | none =>
    rw [hended] at h h'
    exact h.trans h'.symm
  | some m =>
    rw [hended] at h h'
    obtain ⟨rfl, hbuffer⟩ := h
    obtain ⟨rfl, hbuffer'⟩ := h'
    rcases hbuffer with hbuffer | ⟨hbuffer, rfl⟩ <;>
      rcases hbuffer' with hbuffer' | ⟨hbuffer', rfl⟩ <;> simp_all

/-- The errors that a buffer of the given capacity may meet before its row does. -/
def EarlyError (capacity : Nat) (ending : Except LexError EndMarker) (e : SyntaxError) : Prop :=
  (∃ cause, ending = .error cause ∧ e = .lex cause) ∨
    capacity < 2 ∧ e = .lookaheadOverflow 1 capacity

/-- The error at a row's end, met before the row is read that far. A batch of one token is only
fetched when it is needed, so it never brings the error early. -/
def EarlyEnd (batch : Nat) (ending : Except LexError EndMarker) (e : SyntaxError) : Prop :=
  1 < batch ∧ ∃ cause, ending = .error cause ∧ e = .lex cause

/-- A buffer that shows a row, of fixed capacity and with a fixed end of the row. -/
structure Tracks (capacity : Nat) (ending : Except LexError EndMarker) (b : Lookahead σ)
    (row : TokenRow) : Prop where
  shows : b.Shows row
  capacity_eq : b.capacity = capacity
  capacity_pos : 0 < capacity
  batch_pos : 0 < b.batch
  ending_eq : row.ending = ending

variable {capacity : Nat} {ending : Except LexError EndMarker} {b : Lookahead σ} {row : TokenRow}

theorem tracks_ofSource (source : σ) (config : LookaheadConfig) :
    Tracks (max config.capacity 1) (TokenRow.ofSource source).ending (ofSource source config)
      (TokenRow.ofSource source) where
  shows := rfl
  capacity_eq := rfl
  capacity_pos := Nat.lt_of_lt_of_le Nat.zero_lt_one (Nat.le_max_right ..)
  batch_pos := Nat.lt_of_lt_of_le Nat.zero_lt_one (Nat.le_max_right ..)
  ending_eq := rfl

/-- What a fetch leaves behind: it met the row's error, or it has come to the end of the source, or
it has added as many tokens as it was asked for. -/
theorem Tracks.fetch (k : Nat) (ht : Tracks capacity ending b row) (hb : b.ended = none) :
    (∃ cause, (fetch k b).1 = .error cause ∧ ending = .error cause ∧
        row.tokens.length < b.buffer.length + k) ∨
      (fetch k b).1 = .ok () ∧ Tracks capacity ending (fetch k b).2 row ∧
        ((fetch k b).2.ended.isSome ∨ (fetch k b).2.buffer.length = b.buffer.length + k) := by
  induction k generalizing b with
  | zero => exact .inr ⟨rfl, ht, .inr rfl⟩
  | succ k ih =>
    have hrow := ht.shows
    simp only [Shows, hb] at hrow
    unfold Lookahead.fetch
    split
    · rename_i e source hnext
      rw [TokenRow.ofSource_of_error hnext] at hrow
      refine .inl ⟨e, rfl, by rw [← ht.ending_eq, hrow], ?_⟩
      rw [hrow]
      simp
    · rename_i t source hnext
      rw [TokenRow.ofSource_of_ok hnext] at hrow
      split
      · rename_i hk
        rw [dif_pos hk] at hrow
        refine .inr ⟨rfl, ⟨?_, ht.capacity_eq, ht.capacity_pos, ht.batch_pos, ht.ending_eq⟩, .inl rfl⟩
        rw [hrow]
        exact ⟨rfl, .inl (by simp)⟩
      · rename_i hk
        rw [dif_neg hk] at hrow
        have hshows : Shows { b with source, buffer := b.buffer ++ [t] } row := by
          simp only [Shows, hb, hrow, List.append_assoc, List.singleton_append]
        rcases ih ⟨hshows, ht.capacity_eq, ht.capacity_pos, ht.batch_pos, ht.ending_eq⟩ hb with
          ⟨cause, herr, hend, hshort⟩ | ⟨hok, htr, hlen⟩
        · refine .inl ⟨cause, herr, hend, ?_⟩
          rw [List.length_append, List.length_singleton] at hshort
          omega
        · refine .inr ⟨hok, htr, hlen.imp_right (fun h => ?_)⟩
          rw [h]
          simp only [List.length_append, List.length_singleton]
          omega

/-- The row's error is met less than a batch early. -/
theorem Tracks.fill (ht : Tracks capacity ending b row) {n : Nat} (hn : n < capacity) :
    (∃ cause, (b.fill n).1 = .error (.lex cause) ∧ ending = .error cause ∧
        row.tokens.length < n + b.batch) ∨
      (b.fill n).1 = .ok () ∧ Tracks capacity ending (b.fill n).2 row ∧
        ((b.fill n).2.ended.isSome ∨ n < (b.fill n).2.buffer.length) := by
  have hcap : ¬b.capacity ≤ n := by
    rw [ht.capacity_eq]
    omega
  unfold Lookahead.fill
  rw [if_neg hcap]
  split
  · rename_i hdone
    exact .inr ⟨rfl, ht, by simpa using hdone⟩
  · rename_i hopen
    have hended : b.ended = none := by
      cases hb : b.ended <;> simp_all
    have hheld : b.buffer.length ≤ n := by
      simp only [hended, Option.isSome_none, Bool.false_or, decide_eq_true_eq] at hopen
      omega
    have htarget := lt_target ht.batch_pos (Nat.lt_of_not_le hcap) hheld
    rcases ht.fetch (b.target b.buffer.length n - b.buffer.length) hended with
      ⟨cause, herr, hend, hshort⟩ | ⟨hok, htr, hlen⟩
    · have hbatches : (n - b.buffer.length) / b.batch * b.batch ≤ n - b.buffer.length :=
        Nat.div_mul_le_self ..
      have hreach : b.target b.buffer.length n ≤ n + b.batch := by
        unfold target
        omega
      exact .inl ⟨cause, congrArg (Except.mapError SyntaxError.lex) herr, hend, by omega⟩
    · refine .inr ⟨congrArg (Except.mapError SyntaxError.lex) hok, htr, hlen.imp_right (fun h => ?_)⟩
      dsimp only
      omega

/-- Where a request met the row's error, the row has it too, or it came early in a larger batch. -/
theorem Tracks.follows_of_short {α β : Type} {same : α → β → Prop} {y : Except SyntaxError β}
    {cause : LexError} {n : Nat} (ht : Tracks capacity ending b row) (hend : ending = .error cause)
    (hshort : row.tokens.length < n + b.batch)
    (hrow : row.tokens.length ≤ n → y = .error (.lex cause)) :
    Follows (EarlyEnd b.batch ending) same (.error (.lex cause)) y := by
  have hpos := ht.batch_pos
  by_cases hbatch : 1 < b.batch
  · exact .early ⟨hbatch, cause, hend, rfl⟩
  · rw [hrow (by omega)]
    exact .error _

/-- A filled buffer has the row's first token in front, with the rest of the row behind it. -/
theorem Tracks.first_of_filled (ht : Tracks capacity ending b row)
    (hfill : b.ended.isSome ∨ 0 < b.buffer.length) :
    (b.buffer = [] ∧ ∃ m, b.ended = some m ∧ row = ⟨[], .ok m⟩) ∨
      ∃ t rest, b.buffer = t :: rest ∧
        ((∃ m, t = m.1 ∧ row = ⟨[], .ok m⟩ ∧ Tracks capacity ending { b with buffer := rest } row) ∨
          ∃ ts, row = ⟨t :: ts, ending⟩ ∧
            Tracks capacity ending { b with buffer := rest } ⟨ts, ending⟩) := by
  obtain ⟨source, batch, cap, buffer, ended⟩ := b
  obtain ⟨hshows, hcap, hpos, hbatch, rfl⟩ := ht
  obtain ⟨tokens, last⟩ := row
  cases ended with
  | none =>
    cases buffer with
    | nil => simp at hfill
    | cons t rest =>
      cases hshows
      exact .inr ⟨t, rest, rfl, .inr ⟨_, rfl, rfl, hcap, hpos, hbatch, rfl⟩⟩
  | some m =>
    obtain ⟨rfl, hbuf | ⟨rfl, rfl⟩⟩ := hshows
    · dsimp only at hbuf
      subst hbuf
      cases tokens with
      | nil => exact .inr ⟨m.1, [], rfl, .inl ⟨m, rfl, rfl, ⟨rfl, .inr ⟨rfl, rfl⟩⟩, hcap, hpos, hbatch, rfl⟩⟩
      | cons t ts =>
        exact .inr ⟨t, ts ++ [m.1], rfl, .inr ⟨ts, rfl, ⟨rfl, .inl rfl⟩, hcap, hpos, hbatch, rfl⟩⟩
    · exact .inl ⟨rfl, m, rfl, rfl⟩

theorem Tracks.first (ht : Tracks capacity ending b row) :
    Follows (EarlyEnd b.batch ending)
      (fun t t' => t.token = t'.token ∧ Tracks capacity ending t.here t'.here ∧
        Tracks capacity ending t.after t'.after) b.first row.first := by
  have hfill := ht.fill ht.capacity_pos
  unfold Lookahead.first
  split
  · rename_i e here heq
    rw [heq] at hfill
    rcases hfill with ⟨cause, herr, hend, hshort⟩ | ⟨hok, -, -⟩
    · cases herr
      refine ht.follows_of_short hend hshort (fun hempty => ?_)
      have hrow : row = ⟨[], .error cause⟩ := by
        rw [← hend, ← ht.ending_eq, ← List.length_eq_zero_iff.mp (Nat.le_zero.mp hempty)]
      rw [hrow]
      rfl
    · cases hok
  · rename_i here heq
    rw [heq] at hfill
    rcases hfill with ⟨cause, herr, -, -⟩ | ⟨-, htr, hfull⟩
    · cases herr
    dsimp only at htr hfull
    rcases htr.first_of_filled hfull with ⟨hnil, m, hm, rfl⟩ | ⟨t, rest, hbuf, hrow⟩
    · split
      · refine .ok ⟨?_, htr, htr⟩
        simp only [endMarker, hm, Option.getD_some]
      · rename_i hcons
        rw [hnil] at hcons
        cases hcons
    · split
      · rename_i hnil
        rw [hbuf] at hnil
        cases hnil
      · rename_i hcons
        rw [hbuf] at hcons
        cases hcons
        rcases hrow with ⟨m, rfl, rfl, hafter⟩ | ⟨ts, rfl, hafter⟩
        · exact .ok ⟨rfl, htr, hafter⟩
        · exact .ok ⟨rfl, htr, hafter⟩

/-- The second token of a buffer that is filled that far, or done. -/
theorem Tracks.second_of_filled (ht : Tracks capacity ending b row)
    (hfill : b.ended.isSome ∨ 1 < b.buffer.length) :
    ∃ t, row.second = .ok ⟨t, row, Nat.le_refl _⟩ ∧ b.buffer[1]?.getD b.endMarker.1 = t := by
  obtain ⟨source, batch, cap, buffer, ended⟩ := b
  obtain ⟨hshows, hcap, hpos, hbatch, rfl⟩ := ht
  obtain ⟨tokens, last⟩ := row
  cases ended with
  | none =>
    have hlen : 1 < buffer.length := by simpa using hfill
    cases hshows
    refine ⟨buffer[1], ?_, by simp [List.getElem?_eq_getElem hlen]⟩
    simp only [TokenRow.second, List.getElem?_append_left hlen, List.getElem?_eq_getElem hlen]
  | some m =>
    obtain ⟨rfl, hbuf | ⟨rfl, rfl⟩⟩ := hshows
    · dsimp only at hbuf
      subst hbuf
      match tokens with
      | [] => exact ⟨m.1, rfl, rfl⟩
      | [_] => exact ⟨m.1, rfl, rfl⟩
      | _ :: t :: _ => exact ⟨t, rfl, rfl⟩
    · exact ⟨m.1, rfl, rfl⟩

theorem Tracks.second_of_room (ht : Tracks capacity ending b row) (hroom : 1 < capacity) :
    Follows (EarlyEnd b.batch ending)
      (fun t t' => t.token = t'.token ∧ Tracks capacity ending t.here t'.here) b.second row.second := by
  have hfill := ht.fill hroom
  unfold Lookahead.second
  split
  · rename_i e here heq
    simp only [peek, Prod.mk.injEq] at heq
    rcases hfill with ⟨cause, herr, hend, hshort⟩ | ⟨hok, -, -⟩
    · rw [herr] at heq
      cases heq.1
      refine ht.follows_of_short hend hshort (fun hone => ?_)
      unfold TokenRow.second
      rw [List.getElem?_eq_none hone, ht.ending_eq, hend]
    · rw [hok] at heq
      cases heq.1
  · rename_i t here heq
    simp only [peek, Prod.mk.injEq] at heq
    obtain ⟨hout, rfl⟩ := heq
    rcases hfill with ⟨cause, herr, -, -⟩ | ⟨hok, htr, hfull⟩
    · rw [herr] at hout
      cases hout
    · obtain ⟨t', hrow, ht'⟩ := htr.second_of_filled hfull
      rw [hok] at hout
      rw [hrow]
      exact .ok ⟨(Except.ok.inj hout).symm.trans ht', htr⟩

theorem Tracks.second (ht : Tracks capacity ending b row) :
    Follows (EarlyError capacity ending)
      (fun t t' => t.token = t'.token ∧ Tracks capacity ending t.here t'.here) b.second row.second := by
  by_cases hroom : 1 < capacity
  · exact (ht.second_of_room hroom).mono (fun _ he => .inl he.2) (fun _ _ _ hsame => hsame)
  · have hover : b.fill 1 = (.error (.lookaheadOverflow 1 b.capacity), b) := by
      unfold Lookahead.fill
      rw [if_pos (by rw [ht.capacity_eq]; omega)]
    unfold Lookahead.second
    split
    · rename_i e here heq
      simp only [peek, hover, Prod.mk.injEq] at heq
      cases heq.1
      rw [ht.capacity_eq]
      exact .early (.inr ⟨by omega, rfl⟩)
    · rename_i t here heq
      simp only [peek, hover, Prod.mk.injEq] at heq
      cases heq.1

/-- A buffered stream reads its source's row. -/
theorem simulation_tracks (capacity : Nat) (ending : Except LexError EndMarker) :
    Simulation (EarlyError capacity ending)
      (Tracks capacity ending : Lookahead σ → TokenRow → Prop) where
  first ht := ht.first.mono (fun _ he => .inl he.2) (fun _ _ _ hsame => hsame)
  second := Tracks.second

section Batches
variable {batch : Nat}

/-- A buffer that shows a row and is filled in batches of a fixed size. -/
structure TracksBy (batch capacity : Nat) (ending : Except LexError EndMarker) (b : Lookahead σ)
    (row : TokenRow) : Prop extends Tracks capacity ending b row where
  batch_eq : b.batch = batch

theorem tracksBy_ofSource (source : σ) (config : LookaheadConfig) :
    TracksBy (max config.batch 1) (max config.capacity 1) (TokenRow.ofSource source).ending
      (ofSource source config) (TokenRow.ofSource source) :=
  ⟨tracks_ofSource source config, rfl⟩

theorem batch_fetch (k : Nat) (b : Lookahead σ) : (fetch k b).2.batch = b.batch := by
  induction k generalizing b with
  | zero => rfl
  | succ k ih =>
    unfold fetch
    split
    · rfl
    · split
      · rfl
      · exact ih _

theorem batch_fill (b : Lookahead σ) (n : Nat) : (b.fill n).2.batch = b.batch := by
  unfold fill
  split
  · rfl
  · split
    · rfl
    · exact batch_fetch _ _

theorem batch_of_first {t : First size b} (h : b.first = .ok t) :
    t.here.batch = b.batch ∧ t.after.batch = b.batch := by
  have hbatch := b.batch_fill 0
  unfold first at h
  split at h
  · cases h
  · rename_i here heq
    rw [heq] at hbatch
    split at h
    · cases h
      exact ⟨hbatch, hbatch⟩
    · cases h
      exact ⟨hbatch, hbatch⟩

theorem batch_of_second {t : Second size b} (h : b.second = .ok t) : t.here.batch = b.batch := by
  have hbatch := b.batch_fill 1
  unfold second at h
  split at h
  · cases h
  · rename_i t here heq
    have hhere : (b.fill 1).2 = here := congrArg Prod.snd heq
    cases h
    rw [hhere] at hbatch
    exact hbatch

/-- Requests for the first token follow the row for a buffer of any capacity. -/
theorem frontSimulation_tracksBy (batch capacity : Nat) (ending : Except LexError EndMarker) :
    FrontSimulation (EarlyEnd batch ending)
      (TracksBy batch capacity ending : Lookahead σ → TokenRow → Prop) where
  first := by
    rintro b row ⟨ht, rfl⟩
    refine ht.first.mono (fun _ he => he) (fun t t' hok hsame => ?_)
    obtain ⟨hhere, hafter⟩ := batch_of_first hok
    exact ⟨hsame.1, ⟨hsame.2.1, hhere⟩, hsame.2.2, hafter⟩

theorem simulation_tracksBy (batch : Nat) (ending : Except LexError EndMarker)
    (hroom : 1 < capacity) :
    Simulation (EarlyEnd batch ending)
      (TracksBy batch capacity ending : Lookahead σ → TokenRow → Prop) where
  toFrontSimulation := frontSimulation_tracksBy batch capacity ending
  second := by
    rintro b row ⟨ht, rfl⟩
    refine (ht.second_of_room hroom).mono (fun _ he => he) (fun t t' hok hsame => ?_)
    exact ⟨hsame.1, hsame.2, batch_of_second hok⟩

end Batches

end Lookahead

end CommandScript
