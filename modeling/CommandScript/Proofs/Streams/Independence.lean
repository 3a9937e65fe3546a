import CommandScript.Proofs.Grammar.Acceptance
import Mathlib
/-! # Independence of the look-ahead

A buffer with room for two tokens is as good as any larger one, and the size of its batches does not
show in what is compiled. Only an error of the text itself may come up in a larger batch before the
reader gets that far, in place of the error that the reader would have met first.
-/
namespace CommandScript

/-- Cutting up all of a text at once gives the row of its lexer. -/
theorem Lexer.tokenize_eq_row (lexer : Lexer) :
    lexer.tokenize = (TokenRow.ofSource lexer).ending.map
      (fun m => (TokenRow.ofSource lexer).tokens ++ [m.1]) := by
  induction lexer using TokenRow.ofSource.induct with
  | case1 lexer e rest h =>
    rw [TokenRow.ofSource_of_error h, Lexer.tokenize_of_error h]
    rfl
  | case2 lexer t rest h hk =>
    rw [TokenRow.ofSource_of_ok h, dif_pos hk, Lexer.tokenize_of_ok h, if_pos hk]
    rfl
  | case3 lexer t hk h _ ih =>
    rw [TokenRow.ofSource_of_ok h, dif_neg hk, Lexer.tokenize_of_ok h, if_neg hk, ih]
    generalize TokenRow.ofSource (σ := Lexer) _ = row
    cases row.ending <;> rfl

theorem Lexer.ending_of_tokenize_ok {lexer : Lexer} {tokens : List Token}
    (h : lexer.tokenize = .ok tokens) : ∃ m, (TokenRow.ofSource lexer).ending = .ok m := by
  rw [tokenize_eq_row] at h
  cases hending : (TokenRow.ofSource lexer).ending with
  | error e => rw [hending] at h; cases h
  | ok m => exact ⟨m, rfl⟩

theorem Lexer.ending_of_tokenize_error {lexer : Lexer} {x : LexError}
    (h : lexer.tokenize = .error x) : (TokenRow.ofSource lexer).ending = .error x := by
  rw [tokenize_eq_row] at h
  cases hending : (TokenRow.ofSource lexer).ending with
  | error e => rw [hending] at h; cases h; rfl
  | ok m => rw [hending] at h; cases h

section Sources
variable {σ : Type} [FiniteSource σ] {config : LookaheadConfig}

/-- With room for two tokens, what compiles off a buffer compiles off the row of its source. -/
theorem follows_compileSource (names : Registries) (source : σ) (hroom : 2 ≤ config.capacity) :
    Follows (Lookahead.EarlyEnd (max config.batch 1) (TokenRow.ofSource source).ending)
      (fun script script' : Script => script = script') (compileSource names config source).result
      (compileStream names (TokenRow.ofSource source)).result := by
  have hcapacity : 1 < max config.capacity 1 := by omega
  exact (Lookahead.simulation_tracksBy _ _ hcapacity).compileStream names
    (Lookahead.tracksBy_ofSource source config)

/-- A row that ends in an error does not compile. -/
theorem exists_error_of_ending (names : Registries) {source : σ} {x : LexError}
    (h : (TokenRow.ofSource source).ending = .error x) :
    ∃ e, (compileStream names (TokenRow.ofSource source)).result = .error e := by
  cases hresult : (compileStream names (TokenRow.ofSource source)).result with
  | error e => exact ⟨e, rfl⟩
  | ok script =>
    simp only [compileStream, Logged.result_bind] at hresult
    obtain ⟨read, hread, -⟩ := exists_of_bind_eq_ok hresult
    obtain ⟨⟨m, hm⟩, -⟩ := (Grammar.readScript_row_iff (TokenRow.clean_ofSource source)).mp hread
    rw [h] at hm
    cases hm

theorem compileSource_eq_row (names : Registries) (source : σ) (hroom : 2 ≤ config.capacity)
    (hearly : config.batch ≤ 1 ∨ ∃ m, (TokenRow.ofSource source).ending = .ok m) :
    (compileSource names config source).result =
      (compileStream names (TokenRow.ofSource source)).result := by
  refine (follows_compileSource names source hroom).eq_of_not_early ?_
  rintro e ⟨hbatch, cause, hcause, -⟩
  rcases hearly with hsingle | ⟨m, hm⟩
  · omega
  · rw [hm] at hcause
    cases hcause

end Sources

/-- Two buffers with room for two tokens each compile a text to the same script, or reject it with
the same error, if the text can be cut into tokens. Otherwise both reject it, with the error of the
text or with the error that comes up if tokens are fetched one at a time. -/
theorem compile_eq_of_room (text : String) (names : Registries) (config config' : LookaheadConfig)
    (hroom : 2 ≤ config.capacity) (hroom' : 2 ≤ config'.capacity) :
    (∀ tokens, (Lexer.ofString text).tokenize = .ok tokens →
        (compile text names config).result = (compile text names config').result) ∧
      ∀ x, (Lexer.ofString text).tokenize = .error x →
        ∀ single : LookaheadConfig, single.batch ≤ 1 → 2 ≤ single.capacity →
          ∀ c ∈ [config, config'], ∃ e, (compile text names c).result = .error e ∧
            (e = .lex x ∨ (compile text names single).result = .error e) := by
  constructor
  · intro tokens htokens
    have hending := Lexer.ending_of_tokenize_ok htokens
    exact (compileSource_eq_row names _ hroom (.inr hending)).trans
      (compileSource_eq_row names _ hroom' (.inr hending)).symm
  · intro x hx single hbatch hsingle c hc
    have hroom : 2 ≤ c.capacity := by
      rcases List.mem_pair.mp hc with rfl | rfl
      · exact hroom
      · exact hroom'
    have hending := Lexer.ending_of_tokenize_error hx
    obtain ⟨e, he⟩ := exists_error_of_ending names hending
    have hone : (compile text names single).result = .error e :=
      (compileSource_eq_row names _ hsingle (.inl hbatch)).trans he
    have hfollows := follows_compileSource names (Lexer.ofString text) hroom
    rw [he] at hfollows
    generalize hresult : (compileSource names c (Lexer.ofString text)).result = result at hfollows
    cases hfollows with
    | early hearly =>
      obtain ⟨-, cause, hcause, rfl⟩ := hearly
      rw [hending] at hcause
      cases hcause
      exact ⟨_, hresult, .inl rfl⟩
    | error => exact ⟨e, hresult, .inr hone⟩

/-- A line that no macro or command explains, in front of a character that starts no token. -/
theorem compile_eq_of_room_stray :
    let single : LookaheadConfig := ⟨1, 2⟩
    let large : LookaheadConfig := ⟨16, 1024⟩
    (compile "nop" .builtin single).result = (compile "nop" .builtin large).result ∧
      (compile "a\n?" .builtin single).result = .error (.unknownCommand "a" 1) ∧
      (compile "a\n?" .builtin large).result = .error (.lex (.unexpectedChar '?' 2)) ∧
      ∀ c ∈ [single, large], ∃ e, (compile "a\n?" .builtin c).result = .error e ∧
        (e = .lex (.unexpectedChar '?' 2) ∨ (compile "a\n?" .builtin single).result = .error e) := by
  intro single large
  have htokens : (Lexer.ofString "nop").tokenize =
      .ok [⟨.ident, "nop", 1⟩, ⟨.eof, "", 1⟩] := by cbv
  have hstray : (Lexer.ofString "a\n?").tokenize = .error (.unexpectedChar '?' 2) := by cbv
  have hsame := (compile_eq_of_room "nop" .builtin single large (by decide) (by decide)).1 _ htokens
  have hstray := (compile_eq_of_room "a\n?" .builtin single large (by decide) (by decide)).2 _ hstray
    single (by decide) (by decide)
  exact ⟨hsame, by cbv, by cbv, hstray⟩

end CommandScript
