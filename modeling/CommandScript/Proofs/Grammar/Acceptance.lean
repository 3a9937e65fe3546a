import CommandScript.Proofs.Grammar.Completeness
import CommandScript.Proofs.Grammar.Soundness
import CommandScript.Proofs.Streams.Buffering
/-! # Which scripts are accepted

Through a look-ahead buffer or without one, reading succeeds exactly on the sequences of nodes and
builds the script that these nodes describe. Whatever compiles has been read in this way and then
linked.
-/
namespace CommandScript

namespace Grammar

variable {ending : Except LexError EndMarker} {r : TokenRow}

/-- Reading a row succeeds exactly on the grammar's sequences of nodes. -/
theorem readScript_row_iff {names : Registries} {script : Script} (hr : r.Clean ending) :
    (readScript names r).result = .ok script ↔
      (∃ m, ending = .ok m) ∧ ReadsNodes ending (.outermost names) r.tokens script [] := by
  obtain ⟨tokens, _⟩ := r
  cases hr.ending_eq
  simp only [readScript, Logged.result_bind]
  constructor
  · intro h
    obtain ⟨p, hp, h⟩ := exists_of_bind_eq_ok h
    cases h
    obtain ⟨-, last, hread, hclose⟩ := readsNodes_of_nodes.2 .root _ _ hr p hp
    generalize p.rest.tokens = rest at hclose
    cases hclose with
    | root hm => exact ⟨⟨_, hm⟩, hread⟩
  · rintro ⟨⟨m, hm⟩, h⟩
    obtain ⟨p, hp, rfl, -⟩ := h.nodes (.root hm)
    rw [hp]
    rfl

end Grammar

/-- What is read through a buffer is also read without one. -/
theorem readScript_row_of_readScript {σ : Type} [FiniteSource σ] {names : Registries}
    {config : LookaheadConfig} {source : σ} {script : Script}
    (h : (readScript names (Lookahead.ofSource source config)).result = .ok script) :
    (readScript names (TokenRow.ofSource source)).result = .ok script := by
  have hfollows := (Lookahead.simulation_tracks _ _).readScript names
    (Lookahead.tracks_ofSource source config)
  obtain ⟨_, h, rfl⟩ := hfollows.exists_ok h
  exact h

/-- A compiled script was read off its source's row, and then linked without missing a label. -/
theorem exists_readScript_of_compileSource {σ : Type} [FiniteSource σ] {names : Registries}
    {config : LookaheadConfig} {source : σ} {script : Script}
    (h : (compileSource names config source).result = .ok script) :
    ∃ read, (readScript names (TokenRow.ofSource source)).result = .ok read ∧
      read.link.missing = none ∧ script = read.link.value := by
  simp only [compileSource, compileStream, Logged.result_bind] at h
  obtain ⟨read, hread, h⟩ := exists_of_bind_eq_ok h
  obtain ⟨linked, hlinked, h⟩ := exists_of_bind_eq_ok h
  cases h
  unfold Linked.settle at hlinked
  split at hlinked
  · cases hlinked
  · rename_i hmissing
    cases hlinked
    exact ⟨read, readScript_row_of_readScript hread, hmissing, rfl⟩

theorem exists_readsNodes_of_compileSource {σ : Type} [FiniteSource σ] {names : Registries}
    {config : LookaheadConfig} {source : σ} {script : Script}
    (h : (compileSource names config source).result = .ok script) :
    ∃ read, Grammar.ReadsNodes (TokenRow.ofSource source).ending (.outermost names)
      (TokenRow.ofSource source).tokens read [] ∧ read.link.missing = none ∧
        script = read.link.value := by
  obtain ⟨read, hread, hlink⟩ := exists_readScript_of_compileSource h
  exact ⟨read, ((Grammar.readScript_row_iff (TokenRow.clean_ofSource source)).mp hread).2, hlink⟩

/-- Reading a prepared list of tokens, with room for two of them in the buffer, succeeds exactly if
the tokens up to the first end marker are a sequence of nodes, and gives the script that these
nodes build. -/
theorem readScript_eq_ok_iff (names : Registries) (config : LookaheadConfig)
    (hroom : 2 ≤ config.capacity) (tokens : List Token) (line : Nat) (script : Script) :
    (readScript names (Lookahead.ofSource (Replay.mk (tokens.map .ok) line) config)).result =
        .ok script ↔
      Grammar.ReadsNodes (.ok (Replay.marker line tokens)) (.outermost names)
        (tokens.takeWhile (fun t => t.kind ≠ .eof)) script [] := by
  have hrow := Replay.ofSource_eq tokens line
  have htracks := Lookahead.tracks_ofSource (Replay.mk (tokens.map .ok) line) config
  have hclean := TokenRow.clean_ofSource (Replay.mk (tokens.map .ok) line)
  rw [hrow] at htracks hclean
  have hfollows := (Lookahead.simulation_tracks _ _).readScript names htracks
  have hearly : ∀ e, ¬Lookahead.EarlyError (max config.capacity 1)
      (.ok (Replay.marker line tokens)) e := by
    rintro e (⟨cause, hcause, -⟩ | ⟨hsmall, -⟩)
    · cases hcause
    · omega
  have hgrammar : (readScript names _).result = .ok script ↔ _ := Grammar.readScript_row_iff hclean
  constructor
  · intro h
    obtain ⟨_, h', rfl⟩ := hfollows.exists_ok h
    exact (hgrammar.mp h').2
  · intro h
    obtain ⟨_, h', rfl⟩ := hfollows.exists_ok_of_ok hearly (hgrammar.mpr ⟨⟨_, rfl⟩, h⟩)
    exact h'

/-- A macro with a label and a command, used twice on one line. -/
theorem readScript_twice :
    let names : Registries := { Registries.empty with commands := (∅ : NameTable _).insert "nop" ⟨1⟩ }
    let tokens : List Token :=
      [⟨.macroStart, "macro", 1⟩, ⟨.ident, "m", 1⟩, ⟨.ident, "a", 1⟩, ⟨.colon, ":", 1⟩,
        ⟨.ident, "nop", 1⟩, ⟨.newline, "", 1⟩, ⟨.macroEnd, "endmacro", 2⟩, ⟨.ident, "m", 2⟩,
        ⟨.ident, "m", 2⟩, ⟨.eof, "", 2⟩]
    let body := (Script.empty.declareLabel "a").push ⟨⟨1⟩, []⟩
    (readScript names (Lookahead.ofSource (Replay.mk (tokens.map .ok) 1) ⟨1, 2⟩)).result =
      .ok (((Script.empty.declareMacro "m" body).splice body).splice body) := by
  intro names tokens body
  have hcmd : ∀ s enclosing, (Scopes.mk names s enclosing).names.commands.get? "m" = none := by
    simp [names]
  have hfound : ∀ s, s.macros = (∅ : NameTable Script).insert "m" body →
      (Scopes.mk names s []).macroNamed? "m" = some body := by
    intro s hs
    simp [Scopes.macroNamed?, Scopes.all, hs]
  refine (readScript_eq_ok_iff names ⟨1, 2⟩ (by decide) tokens 1 _).mpr ?_
  exact .macroBody rfl rfl
    (.label rfl rfl rfl (.line rfl (.command rfl (by simp [names, Scopes.inner, Scopes.outermost,
      Scopes.withCurrent]) (by decide) (.inl ⟨rfl, .newline rfl⟩) (by decide)) .done)) rfl
    (.line rfl (.macroHead rfl (hcmd _ _) (hfound _ rfl)
      (.macroHead rfl (hcmd _ _) (hfound _ rfl) (.ended (.input rfl)))) .done)

end CommandScript
