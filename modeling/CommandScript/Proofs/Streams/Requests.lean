import CommandScript.Lookahead
import CommandScript.Proofs.Outcome
/-! # Requests to a look-ahead buffer

Whatever is asked of a buffer, and however often its source fails, the tokens handed out and those
still in the buffer are all that the source has given, in order. The source is any one at all: it
may fail at any call and go on after that, and it need not come to an end. To see how often a source
is called, it is counted.
-/
namespace CommandScript

namespace TokenSource
variable {σ : Type} [TokenSource σ]

/-- A source after some calls. -/
def after (source : σ) : Nat → σ
  | 0 => source
  | k + 1 => (next (after source k)).2

/-- The tokens that come of the first calls; a failed call gives none. -/
def produced (source : σ) : Nat → List Token
  | 0 => []
  | k + 1 => produced source k ++ (next (after source k)).1.toOption.toList

section Call
variable {source rest : σ} {k : Nat}

theorem after_succ {answer : Except LexError Token} (h : next (after source k) = (answer, rest)) :
    after source (k + 1) = rest := by
  rw [after, h]

theorem produced_succ_of_ok {t : Token} (h : next (after source k) = (.ok t, rest)) :
    produced source (k + 1) = produced source k ++ [t] := by
  rw [produced, h]
  rfl

theorem produced_succ_of_error {e : LexError} (h : next (after source k) = (.error e, rest)) :
    produced source (k + 1) = produced source k := by
  rw [produced, h]
  exact List.append_nil _

end Call

theorem next_counted {c : Counted σ} {answer : Except LexError Token} {rest : σ}
    (h : next c.source = (answer, rest)) : next c = (answer, ⟨rest, c.pulls + 1⟩) := by
  change ((next c.source).1, Counted.mk (next c.source).2 (c.pulls + 1)) = _
  rw [h]

end TokenSource

inductive Request where
  | peek (n : Nat)
  | advance

/-- The token that an answer hands out: only a request to advance takes one. -/
def Request.taken? : Request → Except SyntaxError Token → Option Token
  | .advance, .ok t => some t
  | _, _ => none

def Request.takenAll : List Request → List (Except SyntaxError Token) → List Token
  | request :: requests, answer :: answers =>
    (request.taken? answer).toList ++ takenAll requests answers
  | _, _ => []

/-- Tokens up to the first end marker, which is the last of them. -/
def throughEnd : List Token → List Token
  | [] => []
  | t :: ts => if t.kind = .eof then [t] else t :: throughEnd ts

theorem throughEnd_append_of_mem {ts : List Token} (us : List Token)
    (h : ∃ t ∈ throughEnd ts, t.kind = .eof) : throughEnd (ts ++ us) = throughEnd ts := by
  induction ts with
  | nil =>
    obtain ⟨t, ht, -⟩ := h
    cases ht
  | cons t ts ih =>
    by_cases hk : t.kind = .eof
    · simp [throughEnd, hk]
    · simp only [throughEnd, if_neg hk] at h
      obtain ⟨u, hu, hend⟩ := h
      rcases List.mem_cons.mp hu with rfl | hu
      · exact absurd hend hk
      · simp [throughEnd, hk, ih ⟨u, hu, hend⟩]

theorem throughEnd_append_singleton {ts : List Token} (t : Token)
    (h : ∀ u ∈ throughEnd ts, u.kind ≠ .eof) : throughEnd (ts ++ [t]) = throughEnd ts ++ [t] := by
  induction ts with
  | nil => simp [throughEnd]
  | cons u ts ih =>
    by_cases hk : u.kind = .eof
    · simp [throughEnd, hk] at h
    · simp only [throughEnd, if_neg hk] at h
      have hts := ih (fun v hv => h v (List.mem_cons_of_mem _ hv))
      simp [throughEnd, hk, hts]

namespace Lookahead
variable {σ : Type}

def serve [TokenSource σ] (b : Lookahead σ) : Request → Except SyntaxError Token × Lookahead σ
  | .peek n => b.peek n
  | .advance => b.advance

/-- Serves requests in order, also behind those that fail. -/
def serveAll [TokenSource σ] (b : Lookahead σ) :
    List Request → List (Except SyntaxError Token) × Lookahead σ
  | [] => ([], b)
  | request :: requests =>
    let (answer, b) := b.serve request
    let (answers, b) := b.serveAll requests
    (answer :: answers, b)

/-- How the end shows in the tokens so far: none of them is an end marker, or the last one is. -/
def EndsWith (ts : List Token) : Option EndMarker → Prop
  | none => ∀ t ∈ ts, t.kind ≠ .eof
  | some m => ∃ front, ts = front ++ [m.1] ∧ ∀ t ∈ front, t.kind ≠ .eof

variable [TokenSource σ]

/-- A buffer in front of a counted source, after some tokens have been taken out of it: nothing that
the source gave was lost. -/
structure Keeps (source : σ) (capacity : Nat) (taken : List Token) (b : Lookahead (Counted σ)) :
    Prop where
  source_eq : b.source.source = TokenSource.after source b.source.pulls
  tokens_eq : throughEnd taken ++ b.buffer = TokenSource.produced source b.source.pulls
  ends : EndsWith (TokenSource.produced source b.source.pulls) b.ended
  capacity_eq : b.capacity = capacity
  capacity_pos : 0 < b.capacity
  batch_pos : 0 < b.batch
  length_le : b.buffer.length ≤ b.capacity

variable {source : σ} {capacity : Nat} {taken : List Token} {b : Lookahead (Counted σ)}

theorem keeps_ofSource (source : σ) (config : LookaheadConfig) :
    Keeps source (max config.capacity 1) [] (ofSource (Counted.mk source 0) config) where
  source_eq := rfl
  tokens_eq := rfl
  ends _ ht := absurd ht List.not_mem_nil
  capacity_eq := rfl
  capacity_pos := Nat.lt_of_lt_of_le Nat.zero_lt_one (Nat.le_max_right ..)
  batch_pos := Nat.lt_of_lt_of_le Nat.zero_lt_one (Nat.le_max_right ..)
  length_le := Nat.zero_le _

/-- A call that fails is counted and changes nothing else. -/
theorem Keeps.failed (hb : Keeps source capacity taken b) {e : LexError} {rest : σ}
    (h : TokenSource.next b.source.source = (.error e, rest)) :
    Keeps source capacity taken { b with source := ⟨rest, b.source.pulls + 1⟩ } := by
  rw [hb.source_eq] at h
  have hproduced := TokenSource.produced_succ_of_error h
  refine { hb with source_eq := (TokenSource.after_succ h).symm, tokens_eq := ?_, ends := ?_ }
  · exact hb.tokens_eq.trans hproduced.symm
  · exact hproduced.symm ▸ hb.ends

/-- A token that the source gives goes behind those in the buffer. -/
theorem Keeps.added (hb : Keeps source capacity taken b) {t : Token} {rest : σ}
    (h : TokenSource.next b.source.source = (.ok t, rest)) (hroom : b.buffer.length < b.capacity)
    {ended : Option EndMarker}
    (hends : EndsWith (TokenSource.produced source b.source.pulls ++ [t]) ended) :
    Keeps source capacity taken
      { b with source := ⟨rest, b.source.pulls + 1⟩, buffer := b.buffer ++ [t], ended } := by
  rw [hb.source_eq] at h
  have hproduced := TokenSource.produced_succ_of_ok h
  refine ⟨(TokenSource.after_succ h).symm, ?_, hproduced.symm ▸ hends, hb.capacity_eq,
    hb.capacity_pos, hb.batch_pos, ?_⟩
  · rw [← List.append_assoc, hb.tokens_eq]
    exact hproduced.symm
  · rw [List.length_append]
    exact hroom

/-- A fetch adds what the source gives; if it succeeds, it has met the end or added all it should. -/
theorem Keeps.fetch (k : Nat) (hb : Keeps source capacity taken b) (hopen : b.ended = none)
    (hroom : b.buffer.length + k ≤ b.capacity) :
    Keeps source capacity taken (fetch k b).2 ∧ b.buffer <+: (fetch k b).2.buffer ∧
      ((fetch k b).1 = .ok () →
        (fetch k b).2.ended.isSome ∨ b.buffer.length + k ≤ (fetch k b).2.buffer.length) := by
  induction k generalizing b with
  | zero => exact ⟨hb, List.prefix_refl _, fun _ => .inr (Nat.le_refl _)⟩
  | succ k ih =>
    have hnone : EndsWith (TokenSource.produced source b.source.pulls) none := hopen ▸ hb.ends
    rcases hnext : TokenSource.next b.source.source with ⟨answer, rest⟩
    unfold Lookahead.fetch
    rw [TokenSource.next_counted hnext]
    cases answer with
    | error e => exact ⟨hb.failed hnext, List.prefix_refl _, fun hok => by cases hok⟩
    | ok t =>
      dsimp only
      split
      · exact ⟨hb.added hnext (by omega) ⟨_, rfl, hnone⟩, List.prefix_append .., fun _ => .inl rfl⟩
      · rename_i hk
        have hends : EndsWith (TokenSource.produced source b.source.pulls ++ [t]) b.ended := by
          rw [hopen]
          exact List.forall_mem_append.mpr ⟨hnone, List.forall_mem_singleton.mpr hk⟩
        have hlength : (b.buffer ++ [t]).length = b.buffer.length + 1 := List.length_append
        obtain ⟨hkeeps, hprefix, hfull⟩ := ih (hb.added hnext (by omega) hends) hopen
          (by dsimp only; omega)
        refine ⟨hkeeps, (List.prefix_append ..).trans hprefix, fun hok => (hfull hok).imp_right ?_⟩
        intro hle
        dsimp only at hle
        omega

theorem Keeps.fill (n : Nat) (hb : Keeps source capacity taken b) :
    Keeps source capacity taken (b.fill n).2 ∧ b.buffer <+: (b.fill n).2.buffer ∧
      ((b.fill n).1 = .ok () → (b.fill n).2.ended.isSome ∨ n < (b.fill n).2.buffer.length) := by
  unfold Lookahead.fill
  split
  · exact ⟨hb, List.prefix_refl _, fun hok => by cases hok⟩
  · rename_i hcap
    split
    · rename_i hfilled
      exact ⟨hb, List.prefix_refl _, fun _ => by simpa using hfilled⟩
    · rename_i hshort
      obtain ⟨hopen, hheld⟩ : b.ended = none ∧ b.buffer.length ≤ n := by simpa using hshort
      -- The last batch may be cut short by the capacity, but not before place `n`.
      have htarget := lt_target hb.batch_pos (Nat.lt_of_not_le hcap) hheld
      have htop := b.target_le b.buffer.length n
      have hlength := hb.length_le
      obtain ⟨hkeeps, hprefix, hfull⟩ := hb.fetch (b.target b.buffer.length n - b.buffer.length)
        hopen (by omega)
      dsimp only
      refine ⟨hkeeps, hprefix, fun hok => ?_⟩
      exact (hfull (mapError_eq_ok_iff.mp hok)).imp_right (fun hle => by omega)

/-- Of tokens that others follow, none is an end marker. -/
theorem EndsWith.not_eof {ts us : List Token} {t : Token} {ended : Option EndMarker}
    (h : EndsWith (ts ++ t :: us) ended) : ∀ u ∈ ts, u.kind ≠ .eof := by
  intro u hu
  cases ended with
  | none => exact h u (List.mem_append_left _ hu)
  | some m =>
    obtain ⟨front, heq, hfront⟩ := h
    have hdrop := congrArg List.dropLast heq
    rw [List.dropLast_concat, List.dropLast_append_of_ne_nil (List.cons_ne_nil t us)] at hdrop
    rw [← hdrop] at hfront
    exact hfront u (List.mem_append_left _ hu)

theorem Keeps.take (hb : Keeps source capacity taken b) {t : Token} {rest : List Token}
    (hbuffer : b.buffer = t :: rest) :
    Keeps source capacity (taken ++ [t]) { b with buffer := rest } := by
  have htokens := hb.tokens_eq
  have hlength := hb.length_le
  rw [hbuffer] at htokens hlength
  have hends := hb.ends
  rw [← htokens] at hends
  refine ⟨hb.source_eq, ?_, hb.ends, hb.capacity_eq, hb.capacity_pos, hb.batch_pos,
    Nat.le_of_succ_le hlength⟩
  rw [throughEnd_append_singleton t hends.not_eof, List.append_assoc]
  exact htokens

/-- Repeats of the end marker do not count. -/
theorem Keeps.repeated (hb : Keeps source capacity taken b) (hbuffer : b.buffer = [])
    (hended : b.ended.isSome) (t : Token) : Keeps source capacity (taken ++ [t]) b := by
  obtain ⟨m, hm⟩ := Option.isSome_iff_exists.mp hended
  have htokens := hb.tokens_eq
  rw [hbuffer, List.append_nil] at htokens
  have hends := hb.ends
  rw [hm, ← htokens] at hends
  obtain ⟨front, hfront, -⟩ := hends
  have hmem : ∃ u ∈ throughEnd taken, u.kind = .eof := by
    rw [hfront]
    exact ⟨m.1, List.mem_concat_self, m.2⟩
  refine ⟨hb.source_eq, ?_, hb.ends, hb.capacity_eq, hb.capacity_pos, hb.batch_pos, hb.length_le⟩
  rw [throughEnd_append_of_mem _ hmem]
  exact hb.tokens_eq

theorem Keeps.advance (hb : Keeps source capacity taken b) :
    (∃ e, b.advance.1 = .error e ∧ Keeps source capacity taken b.advance.2 ∧
        b.buffer <+: b.advance.2.buffer) ∨
      ∃ t, b.advance.1 = .ok t ∧ Keeps source capacity (taken ++ [t]) b.advance.2 := by
  obtain ⟨hkeeps, hprefix, hfull⟩ := hb.fill 0
  unfold Lookahead.advance
  generalize b.fill 0 = outcome at hkeeps hprefix hfull
  obtain ⟨answer, after⟩ := outcome
  cases answer with
  | error e => exact .inl ⟨e, rfl, hkeeps, hprefix⟩
  | ok =>
    refine .inr ?_
    dsimp only at hkeeps hfull ⊢
    cases hbuffer : after.buffer with
    | nil =>
      have hended : after.ended.isSome := by simpa [hbuffer] using hfull rfl
      exact ⟨_, rfl, hkeeps.repeated hbuffer hended _⟩
    | cons t rest => exact ⟨t, rfl, hkeeps.take hbuffer⟩

/-- One request, whatever its answer. -/
theorem Keeps.serve (request : Request) (hb : Keeps source capacity taken b) :
    Keeps source capacity (taken ++ (request.taken? (b.serve request).1).toList)
        (b.serve request).2 ∧
      ∀ e, (b.serve request).1 = .error e → b.buffer <+: (b.serve request).2.buffer := by
  cases request with
  | peek n =>
    obtain ⟨hkeeps, hprefix, -⟩ := hb.fill n
    exact ⟨by simpa [Request.taken?, Lookahead.serve, Lookahead.peek] using hkeeps,
      fun _ _ => hprefix⟩
  | advance =>
    unfold Lookahead.serve
    rcases hb.advance with ⟨e, he, hkeeps, hprefix⟩ | ⟨t, ht, hkeeps⟩
    · rw [he]
      exact ⟨by simpa [Request.taken?] using hkeeps, fun _ _ => hprefix⟩
    · rw [ht]
      exact ⟨hkeeps, fun _ h => by cases h⟩

/-- Any number of requests, failing ones among them. -/
theorem Keeps.serveAll (requests : List Request) (hb : Keeps source capacity taken b) :
    Keeps source capacity (taken ++ Request.takenAll requests (b.serveAll requests).1)
      (b.serveAll requests).2 := by
  induction requests generalizing taken b with
  | nil => simpa [Request.takenAll, Lookahead.serveAll] using hb
  | cons request requests ih =>
    have hrest := ih (hb.serve request).1
    rw [List.append_assoc] at hrest
    exact hrest

/-- Once an end marker has been given, it is the one that the buffer remembers. -/
theorem Keeps.ended_of_mem (hb : Keeps source capacity taken b) {t : Token}
    (ht : t ∈ TokenSource.produced source b.source.pulls) (hk : t.kind = .eof) :
    b.ended = some ⟨t, hk⟩ := by
  have hends := hb.ends
  cases hended : b.ended with
  | none =>
    rw [hended] at hends
    exact absurd hk (hends t ht)
  | some m =>
    rw [hended] at hends
    obtain ⟨front, hproduced, hfront⟩ := hends
    rw [hproduced] at ht
    rcases List.mem_append.mp ht with ht | ht
    · exact absurd hk (hfront t ht)
    · exact congrArg some (Subtype.ext (List.mem_singleton.mp ht).symm)

section Filled
variable {b : Lookahead σ} {m : EndMarker} {n : Nat}

theorem fill_of_filled (hn : n < b.capacity) (hfilled : b.ended.isSome ∨ n < b.buffer.length) :
    b.fill n = (.ok (), b) := by
  have hcond : (b.ended.isSome || decide (n < b.buffer.length)) = true := by simpa using hfilled
  rw [fill, if_neg (Nat.not_le_of_lt hn), if_pos hcond]

theorem fill_of_ended (hended : b.ended = some m) (n : Nat) : (b.fill n).2 = b := by
  unfold fill
  split
  · rfl
  · rw [if_pos (by simp [hended])]

/-- A buffer that need not fetch hands out its first token, or the end marker when it is empty. -/
theorem advance_of_filled (hcapacity : 0 < b.capacity)
    (hfilled : b.ended.isSome ∨ 0 < b.buffer.length) :
    b.advance = (.ok (b.buffer[0]?.getD b.endMarker.1), { b with buffer := b.buffer.tail }) := by
  unfold advance
  rw [fill_of_filled hcapacity hfilled]
  obtain ⟨source, batch, capacity, buffer, ended⟩ := b
  cases buffer <;> rfl

theorem peek_of_filled (hn : n < b.capacity) (hfilled : b.ended.isSome ∨ n < b.buffer.length) :
    b.peek n = (.ok (b.buffer[n]?.getD b.endMarker.1), b) := by
  unfold peek
  rw [fill_of_filled hn hfilled]
  rfl

theorem advance_of_drained (hcapacity : 0 < b.capacity) (hended : b.ended = some m)
    (hempty : b.buffer = []) : b.advance = (.ok m.1, b) := by
  obtain ⟨source, batch, capacity, buffer, ended⟩ := b
  obtain rfl : ended = some m := hended
  obtain rfl : buffer = [] := hempty
  exact advance_of_filled hcapacity (.inl rfl)

theorem peek_of_drained (hn : n < b.capacity) (hended : b.ended = some m)
    (hempty : b.buffer = []) : b.peek n = (.ok m.1, b) := by
  obtain ⟨source, batch, capacity, buffer, ended⟩ := b
  obtain rfl : ended = some m := hended
  obtain rfl : buffer = [] := hempty
  exact peek_of_filled hn (.inl rfl)

/-- As far as a buffer is filled, requests to advance hand out its tokens one by one and leave the
source alone. -/
theorem serveAll_advances (hcapacity : 0 < b.capacity)
    (hfilled : b.ended.isSome ∨ n < b.buffer.length) :
    b.serveAll (List.replicate (n + 1) .advance) =
      ((List.range (n + 1)).map (fun i => .ok (b.buffer[i]?.getD b.endMarker.1)),
        { b with buffer := b.buffer.drop (n + 1) }) := by
  induction n generalizing b with
  | zero =>
    have hadvance := advance_of_filled hcapacity hfilled
    simp [serveAll, serve, hadvance]
  | succ n ih =>
    have hadvance := advance_of_filled hcapacity (hfilled.imp_right Nat.zero_lt_of_lt)
    have hrest : b.ended.isSome ∨ n < b.buffer.tail.length := by
      rw [List.length_tail]
      exact hfilled.imp_right (fun hlt => by omega)
    have hadvances := ih (b := { b with buffer := b.buffer.tail }) hcapacity hrest
    rw [List.replicate_succ, serveAll, serve, hadvance]
    dsimp only
    rw [hadvances, List.range_succ_eq_map (n := n + 1)]
    simp [endMarker, Function.comp_def]

theorem serve_of_ended (hended : b.ended = some m) (request : Request) :
    (b.serve request).2.source = b.source ∧ (b.serve request).2.ended = some m := by
  cases request with
  | peek n =>
    have hfill := fill_of_ended hended n
    unfold serve peek
    rw [hfill]
    exact ⟨rfl, hended⟩
  | advance =>
    have hfill := fill_of_ended hended 0
    unfold serve advance
    generalize b.fill 0 = outcome at hfill
    obtain ⟨answer, after⟩ := outcome
    subst hfill
    cases answer with
    | error e => exact ⟨rfl, hended⟩
    | ok =>
      dsimp only
      split
      · exact ⟨rfl, hended⟩
      · exact ⟨rfl, hended⟩

theorem serveAll_of_ended (hended : b.ended = some m) (requests : List Request) :
    (b.serveAll requests).2.source = b.source ∧ (b.serveAll requests).2.ended = some m := by
  induction requests generalizing b with
  | nil => exact ⟨rfl, hended⟩
  | cons request requests ih =>
    obtain ⟨hsource, hsome⟩ := serve_of_ended hended request
    obtain ⟨hsources, hsomes⟩ := ih hsome
    exact ⟨hsources.trans hsource, hsomes⟩

end Filled

/-- A token that was seen ahead is the last of as many advances as lead to it. -/
theorem Keeps.advances_of_peek (hb : Keeps source capacity taken b) {n : Nat} {t : Token}
    (hpeek : (b.peek n).1 = .ok t) :
    ∃ front : List Token,
      ((b.peek n).2.serveAll (List.replicate (n + 1) .advance)).1 =
          front.map .ok ++ [.ok t] ∧
        ((b.peek n).2.serveAll (List.replicate (n + 1) .advance)).2.source = (b.peek n).2.source := by
  obtain ⟨hkeeps, -, hfull⟩ := hb.fill n
  unfold Lookahead.peek at hpeek ⊢
  generalize b.fill n = outcome at hkeeps hfull hpeek
  obtain ⟨answer, after⟩ := outcome
  cases answer with
  | error e => cases hpeek
  | ok =>
    injection hpeek with ht
    dsimp only
    rw [serveAll_advances hkeeps.capacity_pos (hfull rfl)]
    refine ⟨(List.range n).map (fun i => after.buffer[i]?.getD after.endMarker.1), ?_, rfl⟩
    rw [List.range_succ, List.map_append, List.map_map, ← ht]
    rfl

/-- Nothing is lost, doubled or put out of order, whatever is asked and whatever fails. A buffer
stays within its capacity. What was taken, repeats of the end marker apart, and what is buffered are
the tokens given so far. A request that fails takes nothing. A token seen ahead can be reached by
advances alone, without its source. Behind an end marker the source is left alone, and an empty
buffer answers with that marker. -/
theorem serveAll_lossless (source : σ) (config : LookaheadConfig) (requests : List Request) :
    let run := (ofSource (Counted.mk source 0) config).serveAll requests
    let b := run.2
    b.buffer.length ≤ max config.capacity 1 ∧
      throughEnd (Request.takenAll requests run.1) ++ b.buffer =
        TokenSource.produced source b.source.pulls ∧
      (∀ request e, (b.serve request).1 = .error e → b.buffer <+: (b.serve request).2.buffer) ∧
      (∀ n t, (b.peek n).1 = .ok t →
        let ahead := (b.peek n).2
        let advances := ahead.serveAll (List.replicate (n + 1) .advance)
        (∃ front : List Token, advances.1 = front.map .ok ++ [.ok t]) ∧
          advances.2.source.pulls = ahead.source.pulls) ∧
      ∀ t ∈ TokenSource.produced source b.source.pulls, t.kind = .eof →
        ∀ further, let later := (b.serveAll further).2
          later.source.pulls = b.source.pulls ∧
            (later.buffer = [] → later.advance = (.ok t, later) ∧
              ∀ n < max config.capacity 1, later.peek n = (.ok t, later)) := by
  intro run b
  have hb : Keeps source (max config.capacity 1) (Request.takenAll requests run.1) b :=
    (keeps_ofSource source config).serveAll requests
  refine ⟨hb.capacity_eq ▸ hb.length_le, hb.tokens_eq, fun request => (hb.serve request).2, ?_, ?_⟩
  · intro n t hpeek
    obtain ⟨front, hanswers, hsource⟩ := hb.advances_of_peek hpeek
    exact ⟨⟨front, hanswers⟩, congrArg Counted.pulls hsource⟩
  · intro t ht hk further later
    obtain ⟨hsource, hended⟩ := serveAll_of_ended (hb.ended_of_mem ht hk) further
    refine ⟨congrArg Counted.pulls hsource, fun hempty => ?_⟩
    have hlater := hb.serveAll further
    refine ⟨advance_of_drained hlater.capacity_pos hended hempty, fun n hn => ?_⟩
    exact peek_of_drained (hlater.capacity_eq.symm ▸ hn) hended hempty

/-- A source that fails between two tokens: what came before the failure is kept, and the same
request succeeds when it is made again. -/
example :
    ((ofSource (Replay.mk [.ok ⟨.ident, "a", 1⟩, .error (.unexpectedChar '?' 1),
        .ok ⟨.ident, "b", 1⟩] 2) ⟨2, 2⟩).serveAll
      [.peek 1, .peek 1, .advance, .advance, .advance]).1 =
      [.error (.lex (.unexpectedChar '?' 1)), .ok ⟨.ident, "b", 1⟩, .ok ⟨.ident, "a", 1⟩,
        .ok ⟨.ident, "b", 1⟩, .ok ⟨.eof, "", 2⟩] := rfl

end Lookahead

end CommandScript
