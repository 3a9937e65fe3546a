import CommandScript.Proofs.Grammar.Nodes
import CommandScript.Proofs.Outcome
import CommandScript.Proofs.Streams.Simulation
import Mathlib.Logic.Basic
/-! # What is read is in the grammar

Each reader that succeeds on a row has read a piece of the grammar off its front. A row keeps its
end while it is read and no end marker comes up inside it, so what is left of a row is again a list
of tokens with the same end.
-/
namespace CommandScript

namespace TokenRow

/-- Reading keeps the end of a row and brings in no end marker. -/
theorem simulation_clean (ending : Except LexError EndMarker) :
    Simulation (fun _ => False) (fun r r' : TokenRow => r = r' ∧ r.Clean ending) :=
  .of_keeps (fun hr h => ⟨clean_here hr h, clean_after hr h⟩)
    (fun hr h => (here_of_second h).symm ▸ hr)

end TokenRow

namespace Grammar

variable {ending : Except LexError EndMarker} {resolve : String → Expr} {r : TokenRow}

theorem clean_of_expression {p : Parsed Expr r} (hr : r.Clean ending)
    (h : expression resolve r = .ok p) : p.rest.Clean ending := by
  obtain ⟨_, _, _, _, hc⟩ :=
    ((TokenRow.simulation_clean ending).expression resolve ⟨rfl, hr⟩).exists_ok h
  exact hc

theorem readsExpr_of_expression {p : Parsed Expr r} (hr : r.Clean ending)
    (h : expression resolve r = .ok p) : ReadsExpr ending resolve r.tokens p.value p.rest.tokens := by
  have hp := clean_of_expression hr h
  obtain ⟨tokens, _⟩ := r
  obtain ⟨value, ⟨rest, _⟩, lt⟩ := p
  cases hr.ending_eq
  cases hp.ending_eq
  exact ⟨lt, h⟩

theorem endsLine_of_first {t : First TokenStream.size r} (hr : r.Clean ending)
    (h : TokenStream.first r = .ok t) (hend : t.token.endsLine) :
    EndsLine ending r.tokens t.after.tokens := by
  by_cases hk : t.token.kind = .eof
  · obtain ⟨hnil, hafter, m, hm⟩ := TokenRow.tokens_of_first_eof hr h hk
    rw [hnil, hafter]
    exact .input hm
  · rw [TokenRow.tokens_of_first h hk]
    exact .newline (by simpa [Token.endsLine, hk] using hend)

theorem endsLine_first {t : First TokenStream.size r} {rest : List Token}
    (h : TokenStream.first r = .ok t) (hend : EndsLine ending r.tokens rest) : t.token.endsLine := by
  obtain ⟨_ | ⟨t', ts⟩, _ | m⟩ := r <;> cases h
  · simp [Token.endsLine, m.2]
  all_goals
    cases hend with
    | newline hk => simp [Token.endsLine, hk]

/-- The arguments that are read are those of the grammar. -/
theorem readsTail_of_arguments (r : TokenRow) (hr : r.Clean ending) (p : Reached (List Expr) r)
    (h : arguments resolve r = .ok p) :
    p.rest.Clean ending ∧ ReadsTail ending resolve r.tokens p.value p.rest.tokens := by
  induction r using arguments.induct with
  | case1 r ih =>
    rw [arguments] at h
    obtain ⟨t, ht, h⟩ := exists_of_bind_eq_ok h
    split at h
    · rename_i hend
      cases h
      exact ⟨TokenRow.clean_after hr ht, .inl ⟨rfl, endsLine_of_first hr ht hend⟩⟩
    · obtain ⟨e, he, h⟩ := exists_of_bind_eq_ok h
      obtain ⟨next, hnext, h⟩ := exists_of_bind_eq_ok h
      have hc := TokenRow.clean_here hr ht
      have hec := clean_of_expression hc he
      have hread := readsExpr_of_expression hc he
      rw [TokenRow.tokens_here ht] at hread
      have hnc := TokenRow.clean_after hec hnext
      split at h
      · rename_i hcomma
        obtain ⟨ahead, hahead, h⟩ := exists_of_bind_eq_ok h
        split at h
        · cases h
        · rename_i hopen
          obtain ⟨more, hmore, h⟩ := exists_of_bind_eq_ok h
          cases h
          rw [TokenRow.tokens_of_first hnext (by rw [hcomma]; decide)] at hread
          have hmore := ih t e next ahead (TokenRow.clean_here hnc hahead) more hmore
          rw [TokenRow.tokens_here hahead] at hmore
          obtain ⟨hmc, ⟨-, hend⟩ | hargs⟩ := hmore
          · exact absurd (endsLine_first hahead hend) hopen
          · exact ⟨hmc, .inr (.more hread hcomma hargs)⟩
      · split at h
        · rename_i hend
          cases h
          exact ⟨hnc, .inr (.last hread (endsLine_of_first hec hnext hend))⟩
        · cases h

/-- A command line that is read is one of the grammar. -/
theorem readsLine_of_commandLine :
    (∀ sc head (r : TokenRow), r.Clean ending → ∀ p, (commandLine sc head r).result = .ok p →
      p.rest.Clean ending ∧ ReadsLine ending sc (head :: r.tokens) p.value p.rest.tokens) ∧
    (∀ sc (r : TokenRow), r.Clean ending → ∀ p, (heads sc r).result = .ok p →
      p.rest.Clean ending ∧ ReadsLine ending sc r.tokens p.value p.rest.tokens) := by
  apply commandLine.mutual_induct
  · intro sc head r hk hr p h
    rw [commandLine, if_pos hk] at h
    cases h
  · intro sc head r hk hcmd ih hr p h
    rw [commandLine, if_neg hk, hcmd] at h
    obtain ⟨hc, hmore⟩ := ih hr p h
    exact ⟨hc, .emptyHead (not_not.mp hk) hcmd hmore⟩
  · intro sc head r hk type hcmd htype hr p h
    rw [commandLine, if_neg hk, hcmd] at h
    simp only [if_neg htype, Logged.result_bind] at h
    obtain ⟨args, hargs, h⟩ := exists_of_bind_eq_ok h
    obtain ⟨scope, hscope, h⟩ := exists_of_bind_eq_ok h
    cases h
    obtain ⟨rfl, harity⟩ := complete_eq_ok.mp hscope
    obtain ⟨hc, hread⟩ := readsTail_of_arguments r hr args hargs
    exact ⟨hc, .command (not_not.mp hk) hcmd htype hread harity⟩
  · intro sc head r hk hcmd body hbody ih hr p h
    rw [commandLine, if_neg hk, hcmd, hbody] at h
    obtain ⟨hc, hmore⟩ := ih hr p h
    exact ⟨hc, .macroHead (not_not.mp hk) hcmd hbody hmore⟩
  · intro sc head r hk hcmd hbody hr p h
    rw [commandLine, if_neg hk, hcmd, hbody] at h
    cases h
  · intro sc r ih hr p h
    rw [heads] at h
    simp only [Logged.result_bind] at h
    obtain ⟨t, ht, h⟩ := exists_of_bind_eq_ok h
    split at h
    · rename_i hend
      cases h
      exact ⟨TokenRow.clean_after hr ht, .ended (endsLine_of_first hr ht hend)⟩
    · rename_i hopen
      simp only [Logged.result_bind] at h
      obtain ⟨line, hline, h⟩ := exists_of_bind_eq_ok h
      cases h
      obtain ⟨hc, hread⟩ := ih t hopen (TokenRow.clean_after hr ht) line hline
      rw [TokenRow.tokens_of_first ht (Token.ne_eof_of_not_endsLine hopen)]
      exact ⟨hc, hread⟩

theorem readsName_of_declaredName {after : String} {p : Parsed String r} (hr : r.Clean ending)
    (h : declaredName after r = .ok p) :
    p.rest.Clean ending ∧ ∃ t, t.kind = .ident ∧ t.text = p.value ∧ r.tokens = t :: p.rest.tokens := by
  obtain ⟨t, ht, h⟩ := exists_of_bind_eq_ok h
  split at h
  · rename_i hname
    cases h
    exact ⟨TokenRow.clean_after hr ht, t.token, by simpa [Token.isName] using hname, rfl,
      TokenRow.tokens_of_first ht (Token.ne_eof_of_isName hname)⟩
  · cases h

theorem exists_of_labelDeclaration {sc : Scopes} {name : Token} {p : Reached Script r}
    (h : (labelDeclaration sc name r).result = .ok p) :
    ∃ colon, TokenStream.first r = .ok colon ∧ sc.current.label? name.text = none ∧
      p.value = sc.current.declareLabel name.text ∧ p.rest = colon.after := by
  simp only [labelDeclaration, Logged.result_bind] at h
  obtain ⟨colon, hfirst, h⟩ := exists_of_bind_eq_ok h
  split at h
  · cases h
  · rename_i hnew
    cases h
    exact ⟨colon, hfirst, by simpa [NameTable.contains, Script.label?] using hnew, rfl, rfl⟩

/-- A label or a command line, in front of the nodes behind it. -/
theorem readsNodes_of_named {sc : Scopes} {p : Parsed Script r} (hr : r.Clean ending)
    (h : (named sc r).result = .ok p) : p.rest.Clean ending ∧
      ∀ s rest, ReadsNodes ending (sc.withCurrent p.value) p.rest.tokens s rest →
        ReadsNodes ending sc r.tokens s rest := by
  simp only [named, Logged.result_bind] at h
  obtain ⟨⟨second, here, le⟩, hsecond, h⟩ := exists_of_bind_eq_ok h
  obtain rfl : here = r := TokenRow.here_of_second hsecond
  obtain ⟨name, hname, h⟩ := exists_of_bind_eq_ok h
  split at h
  · rename_i hisName
    have htokens := TokenRow.tokens_of_first hname (Token.ne_eof_of_isName hisName)
    have hclean := TokenRow.clean_after hr hname
    have hkind : name.token.kind = .ident := by simpa [Token.isName] using hisName
    split at h
    · rename_i hcolon
      have hnext := TokenRow.tokens_of_second hsecond (by rw [hcolon]; decide)
      rw [htokens] at hnext
      simp only [Logged.result_bind] at h
      obtain ⟨d, hd, h⟩ := exists_of_bind_eq_ok h
      cases h
      obtain ⟨colon, hfirst, hnew, hvalue, hrest⟩ := exists_of_labelDeclaration hd
      have hafter : colon.token.kind = .colon := by
        rw [TokenRow.token_of_first hfirst (by simpa using hnext)]
        exact hcolon
      dsimp only
      rw [hvalue, hrest]
      refine ⟨TokenRow.clean_after hclean hfirst, fun s rest hmore => ?_⟩
      rw [htokens, TokenRow.tokens_of_first hfirst (by rw [hafter]; decide)]
      exact .label hkind hafter hnew hmore
    · simp only [Logged.result_bind] at h
      obtain ⟨line, hline, h⟩ := exists_of_bind_eq_ok h
      cases h
      obtain ⟨hc, hread⟩ := readsLine_of_commandLine.1 sc name.token name.after hclean line hline
      refine ⟨hc, fun s rest hmore => ?_⟩
      rw [htokens]
      exact .line hkind hread hmore
  · cases h

/-- A constant, in front of the nodes behind it. -/
theorem readsNodes_of_constantDeclaration {sc : Scopes} {keyword : Token} {p : Reached Script r}
    (hkeyword : keyword.kind = .const) (hr : r.Clean ending)
    (h : (constantDeclaration sc keyword r).result = .ok p) : p.rest.Clean ending ∧
      ∀ s rest, ReadsNodes ending (sc.withCurrent p.value) p.rest.tokens s rest →
        ReadsNodes ending sc (keyword :: r.tokens) s rest := by
  simp only [constantDeclaration, Logged.result_bind] at h
  obtain ⟨name, hname, h⟩ := exists_of_bind_eq_ok h
  obtain ⟨value, hvalue, h⟩ := exists_of_bind_eq_ok h
  cases h
  obtain ⟨hc, nameToken, hident, htext, htokens⟩ := readsName_of_declaredName hr hname
  refine ⟨clean_of_expression hc hvalue, fun s rest hmore => ?_⟩
  rw [htokens]
  rw [← htext] at hmore
  exact .constant hkeyword hident (readsExpr_of_expression hc hvalue) hmore

/-- What a node that was read says of the grammar: its scope ends here, or it can be put in front of
the nodes behind it. -/
def NodeReads (ending : Except LexError EndMarker) (opening : Opening) (sc : Scopes) (r : TokenRow) :
    NodeEnd r → Prop
  | .closed rest _ => rest.Clean ending ∧ Closes ending opening r.tokens rest.tokens
  | .extended scope rest _ => rest.Clean ending ∧
    ∀ s last, ReadsNodes ending (sc.withCurrent scope) rest.tokens s last →
      ReadsNodes ending sc r.tokens s last

theorem closes_of_terminator {opening : Opening} {t : First TokenStream.size r}
    (hr : r.Clean ending) (h : TokenStream.first r = .ok t)
    (hk : t.token.kind = opening.terminator) : Closes ending opening r.tokens t.after.tokens := by
  cases opening with
  | root =>
    obtain ⟨hnil, hafter, m, hm⟩ := TokenRow.tokens_of_first_eof hr h hk
    rw [hnil, hafter]
    exact .root hm
  | macroBody name line =>
    have hend : t.token.kind = .macroEnd := hk
    rw [TokenRow.tokens_of_first h (by rw [hend]; decide)]
    exact .macroBody hend

/-- Nodes that are read are nodes of the grammar. -/
theorem readsNodes_of_nodes :
    (∀ opening sc (r : TokenRow), r.Clean ending → ∀ e, (node opening sc r).result = .ok e →
      NodeReads ending opening sc r e) ∧
    (∀ opening sc (r : TokenRow), r.Clean ending → ∀ p, (nodes opening sc r).result = .ok p →
      p.rest.Clean ending ∧ ∃ last, ReadsNodes ending sc r.tokens p.value last ∧
        Closes ending opening last p.rest.tokens) := by
  apply node.mutual_induct
  · intro opening sc r ih hr e h
    rw [node] at h
    simp only [Logged.result_bind] at h
    obtain ⟨t, ht, h⟩ := exists_of_bind_eq_ok h
    have hafter := TokenRow.clean_after hr ht
    split at h
    · rename_i hk
      cases h
      exact ⟨hafter, closes_of_terminator hr ht hk⟩
    · split at h
      · rename_i hk
        simp only [Logged.result_bind] at h
        obtain ⟨name, hname, h⟩ := exists_of_bind_eq_ok h
        obtain ⟨body, hbody, h⟩ := exists_of_bind_eq_ok h
        cases h
        obtain ⟨hnc, nameToken, hident, htext, hnt⟩ := readsName_of_declaredName hafter hname
        obtain ⟨hbc, last, hread, hclose⟩ := ih t hk name hnc body hbody
        refine ⟨hbc, fun s rest hmore => ?_⟩
        cases hclose with
        | macroBody hclose =>
          rw [TokenRow.tokens_of_first ht (by rw [hk]; decide), hnt]
          rw [← htext] at hmore
          exact .macroBody hk hident hread hclose hmore
      · rename_i hk
        simp only [Logged.result_bind] at h
        obtain ⟨d, hd, h⟩ := exists_of_bind_eq_ok h
        cases h
        obtain ⟨hc, hread⟩ := readsNodes_of_constantDeclaration hk hafter hd
        rw [← TokenRow.tokens_of_first ht (by rw [hk]; decide)] at hread
        exact ⟨hc, hread⟩
      · simp only [Logged.result_bind] at h
        obtain ⟨d, hd, h⟩ := exists_of_bind_eq_ok h
        cases h
        obtain ⟨hc, hread⟩ := readsNodes_of_named (TokenRow.clean_here hr ht) hd
        rw [TokenRow.tokens_here ht] at hread
        exact ⟨hc, hread⟩
      · rename_i hk
        cases h
        refine ⟨hafter, fun s rest hmore => ?_⟩
        rw [TokenRow.tokens_of_first ht (by rw [hk]; decide)]
        exact .blank hk hmore
      · cases h
      · cases h
  · intro opening sc r ihNode ihNodes hr p h
    rw [nodes] at h
    simp only [Logged.result_bind] at h
    obtain ⟨e, he, h⟩ := exists_of_bind_eq_ok h
    have hnode := ihNode hr e he
    cases e with
    | closed rest le =>
      cases h
      exact ⟨hnode.1, r.tokens, .done, hnode.2⟩
    | extended scope rest lt =>
      simp only [Logged.result_bind] at h
      obtain ⟨q, hq, h⟩ := exists_of_bind_eq_ok h
      cases h
      obtain ⟨hc, last, hread, hclose⟩ := ihNodes scope rest lt hnode.1 q hq
      exact ⟨hc, last, hnode.2 _ _ hread, hclose⟩

end Grammar

end CommandScript
