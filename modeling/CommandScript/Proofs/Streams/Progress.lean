import CommandScript.Proofs.Streams.Allowance
import CommandScript.Proofs.Streams.Buffering
import CommandScript.Proofs.Streams.SourceCalls
/-! # Reading comes to an end

Every source is read to the end of its script or to an error, however it is broken off. What is left
of its row bounds the requests that are still to come, and every node that does not end its scope
takes a token off that row.
-/
namespace CommandScript

namespace TokenRow

/-- What is left of a row has the rest of it in front. -/
theorem simulation_behind (row : TokenRow) :
    Simulation (fun _ => False) (fun r r' : TokenRow => r = r' ∧
      ∃ taken, row = ⟨taken ++ r.tokens, r.ending⟩) := by
  refine .of_keeps (fun {r t} hr h => ⟨(here_of_first h).symm ▸ hr, ?_⟩)
    (fun hr h => (here_of_second h).symm ▸ hr)
  obtain ⟨taken, rfl⟩ := hr
  obtain ⟨_ | ⟨u, us⟩, _ | m⟩ := r <;> cases h
  · exact ⟨taken, rfl⟩
  · exact ⟨taken ++ [u], by simp⟩
  · exact ⟨taken ++ [u], by simp⟩

/-- A node that does not end its scope takes at least one token. -/
theorem taken_of_node {row rest : TokenRow} {opening : Opening} {sc : Scopes} {scope : Script}
    {lt : TokenStream.size rest < TokenStream.size row}
    (h : (Grammar.node opening sc row).result = .ok (.extended scope rest lt)) :
    ∃ t taken, row = ⟨t :: taken ++ rest.tokens, rest.ending⟩ := by
  obtain ⟨_, -, hsame⟩ := ((simulation_behind row).node opening sc ⟨rfl, [], rfl⟩).exists_ok h
  cases hsame with
  | extended _ _ hbehind =>
    obtain ⟨-, taken, hrow⟩ := hbehind
    cases taken with
    | nil =>
      obtain ⟨tokens, ending⟩ := rest
      cases hrow
      exact absurd lt (Nat.lt_irrefl _)
    | cons t taken => exact ⟨t, taken, hrow⟩

end TokenRow

namespace Lookahead
variable {σ : Type} [FiniteSource σ]

/-- The row that a buffer shows bounds what is left of it. -/
theorem weighs_tracks (capacity : Nat) (ending : Except LexError EndMarker) :
    Weighs (fun (b : Lookahead σ) n => ∃ row, b.Tracks capacity ending row ∧ row.tokens.length ≤ n)
    where
  here := by
    rintro b n t ⟨row, ht, hn⟩ h
    obtain ⟨t', ht', -, hhere, -⟩ := ht.first.exists_ok h
    rw [TokenRow.here_of_first ht'] at hhere
    exact ⟨row, hhere, hn⟩
  after := by
    rintro b n t ⟨row, ht, hn⟩ h
    obtain ⟨t', -, -, -, hafter⟩ := ht.first.exists_ok h
    exact ⟨t'.after, hafter, Nat.le_trans t'.after_le hn⟩
  taken := by
    rintro b n t ⟨row, ht, hn⟩ h hk
    obtain ⟨t', -, htoken, -, hafter⟩ := ht.first.exists_ok h
    exact ⟨_, Nat.lt_of_lt_of_le (t'.after_lt (htoken ▸ hk)) hn, t'.after, hafter, Nat.le_refl _⟩
  second := by
    rintro b n t ⟨row, ht, hn⟩ h
    obtain ⟨t', ht', -, hhere⟩ := ht.second.exists_ok h
    rw [TokenRow.here_of_second ht'] at hhere
    exact ⟨row, hhere, hn⟩

theorem serve_uncounted (b : Lookahead (Counted σ)) (request : Request) :
    (b.serve request).2.uncounted = (b.uncounted.serve request).2 := by
  cases request with
  | peek n => exact (b.fill_uncounted n).2.1
  | advance =>
    obtain ⟨hanswer, hbuffer, -⟩ := b.fill_uncounted 0
    unfold serve advance
    generalize b.fill 0 = served at hanswer hbuffer
    generalize b.uncounted.fill 0 = plain at hanswer hbuffer
    obtain ⟨answer, here⟩ := served
    obtain ⟨answer', here'⟩ := plain
    obtain rfl : answer = answer' := hanswer
    obtain rfl : here.uncounted = here' := hbuffer
    cases answer with
    | error e => rfl
    | ok =>
      obtain ⟨source, batch, capacity, _ | ⟨t, rest⟩, ended⟩ := here
      · rfl
      · rfl

theorem serveAll_uncounted (b : Lookahead (Counted σ)) (requests : List Request) :
    (b.serveAll requests).2.uncounted = (b.uncounted.serveAll requests).2 := by
  induction requests generalizing b with
  | nil => rfl
  | cons request requests ih =>
    have hrest := ih (b.serve request).2
    rw [serve_uncounted] at hrest
    exact hrest

/-- Between requests a buffer shows a row without an end marker inside. -/
theorem Keeps.exists_row {source : σ} {capacity : Nat} {taken : List Token}
    {b : Lookahead (Counted σ)} (hb : Keeps source capacity taken b) :
    ∃ row : TokenRow, b.uncounted.Tracks capacity row.ending row ∧ row.Clean row.ending := by
  have htracks : ∀ {row : TokenRow}, b.uncounted.Shows row →
      b.uncounted.Tracks capacity row.ending row := fun hshows =>
    ⟨hshows, hb.capacity_eq, hb.capacity_eq ▸ hb.capacity_pos, hb.batch_pos, rfl⟩
  have hends := hb.ends
  rw [← hb.tokens_eq] at hends
  cases hended : b.ended with
  | none =>
    rw [hended] at hends
    have hshows : b.uncounted.Shows ⟨b.buffer ++ (TokenRow.ofSource b.source.source).tokens,
        (TokenRow.ofSource b.source.source).ending⟩ := by
      unfold Shows
      rw [show b.uncounted.ended = none from hended]
      rfl
    refine ⟨_, htracks hshows, rfl, List.forall_mem_append.mpr ⟨fun t ht => ?_, ?_⟩⟩
    · exact hends t (List.mem_append_right _ ht)
    · exact (TokenRow.clean_ofSource b.source.source).ne_eof
  | some m =>
    rw [hended] at hends
    obtain ⟨front, htokens, hfront⟩ := hends
    have hshows : ∀ tokens, b.buffer = tokens ++ [m.1] ∨ b.buffer = [] ∧ tokens = [] →
        b.uncounted.Shows ⟨tokens, .ok m⟩ := by
      intro tokens hbuffer
      unfold Shows
      rw [show b.uncounted.ended = some m from hended]
      exact ⟨rfl, hbuffer⟩
    rcases List.eq_nil_or_concat b.buffer with hnil | ⟨tokens, last, hlast⟩
    · exact ⟨_, htracks (hshows [] (.inr ⟨hnil, rfl⟩)), rfl, fun t ht => absurd ht List.not_mem_nil⟩
    · rw [List.concat_eq_append] at hlast
      rw [hlast, ← List.append_assoc] at htokens
      obtain ⟨rfl, hm⟩ := List.append_inj' htokens rfl
      cases hm
      exact ⟨_, htracks (hshows tokens (.inl hlast)), rfl,
        fun t ht => hfront t (List.mem_append_right _ ht)⟩

/-- A buffer in use, whatever was asked of it and whatever failed, shows a row without an end marker
inside. -/
theorem exists_row_of_served (source : σ) (config : LookaheadConfig) (requests : List Request) :
    ∃ row : TokenRow, ((ofSource source config).serveAll requests).2.Tracks (max config.capacity 1)
      row.ending row ∧ row.Clean row.ending := by
  have hb := ((keeps_ofSource source config).serveAll requests).exists_row
  rw [serveAll_uncounted] at hb
  exact hb

/-- A node that does not end its scope takes a token off the buffer, and this is no end marker. -/
theorem Tracks.taken_of_node {capacity : Nat} {b rest : Lookahead σ} {row : TokenRow}
    (ht : b.Tracks capacity row.ending row) (hclean : row.Clean row.ending) {opening : Opening}
    {sc : Scopes} {scope : Script} {lt : TokenStream.size rest < TokenStream.size b}
    (h : (Grammar.node opening sc b).result = .ok (.extended scope rest lt)) :
    ∃ t taken left, t.kind ≠ .eof ∧ b.Shows ⟨t :: taken ++ left.tokens, left.ending⟩ ∧
      rest.Shows left := by
  obtain ⟨_, hread, hsame⟩ := ((simulation_tracks _ _).node opening sc ht).exists_ok h
  cases hsame with
  | @extended _ _ left _ _ hleft =>
    obtain ⟨t, taken, hrow⟩ := TokenRow.taken_of_node hread
    have hshows := ht.shows
    rw [hrow] at hclean hshows
    exact ⟨t, taken, left, hclean.ne_eof t List.mem_cons_self, hshows, hleft.shows⟩

end Lookahead

/-- Reading comes to an end, whatever the source gives. It makes at most six requests for each item
of the source, where a request too many would be refused and show in the outcome. It calls the
source at most once for each item. And from a buffer in any state, a node that does not end its
scope takes at least one token, which is no end marker. -/
theorem compileSource_ends {σ : Type} [FiniteSource σ] (names : Registries)
    (config : LookaheadConfig) (source : σ) :
    let items := (TokenRow.ofSource source).items
    (∀ refusal, (compileStream names
        (Capped.mk (Lookahead.ofSource source config) (6 * items) refusal)).result =
          (compileSource names config source).result) ∧
      (∀ refusal, (compileStream names
        (Rationed.mk (Lookahead.ofSource (Counted.mk source 0) config) items refusal)).result =
          (compileSource names config source).result) ∧
      ∀ requests opening sc scope rest lt,
        let b := ((Lookahead.ofSource source config).serveAll requests).2
        (Grammar.node opening sc b).result = .ok (.extended scope rest lt) →
          ∃ t taken left, t.kind ≠ .eof ∧ b.Shows ⟨t :: taken ++ left.tokens, left.ending⟩ ∧
            rest.Shows left := by
  intro items
  refine ⟨fun refusal => ?_, Rationed.compileStream_rationed names config source, ?_⟩
  · have hstart := Lookahead.tracks_ofSource source config
    exact compileStream_capped (Lookahead.weighs_tracks _ _) names ⟨_, hstart, Nat.le_refl _⟩
      (by simp only [items, TokenRow.items]; omega) refusal
  · intro requests opening sc scope rest lt b h
    obtain ⟨row, ht, hclean⟩ := Lookahead.exists_row_of_served source config requests
    exact ht.taken_of_node hclean h

/-- A blank line in front of a character that no token starts with. Looking two tokens ahead has
failed on it, and the line is still there to be read. -/
theorem compileSource_ends_failed :
    let source := Replay.mk [.ok ⟨.newline, "\n", 1⟩, .error (.unexpectedChar '?' 2),
      .ok ⟨.ident, "nop", 2⟩] 2
    let config := LookaheadConfig.mk 2 2
    let sc := Scopes.outermost .empty
    let b := ((Lookahead.ofSource source config).serveAll [.peek 1]).2
    ∃ rest lt, (Grammar.node .root sc b).result = .ok (.extended .empty rest lt) ∧
      ∃ t taken left, t.kind ≠ .eof ∧ b.Shows ⟨t :: taken ++ left.tokens, left.ending⟩ ∧
        rest.Shows left := by
  intro source config sc b
  have lt : TokenStream.size { b with buffer := [] } < TokenStream.size b := by decide
  have h : (Grammar.node .root sc b).result = .ok (.extended .empty { b with buffer := [] } lt) := by
    rw [Grammar.node]
    rfl
  exact ⟨_, lt, h, (compileSource_ends sc.names config source).2.2 [.peek 1] .root sc .empty _ lt h⟩

end CommandScript
