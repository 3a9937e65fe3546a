import CommandScript.Proofs.Grammar.Acceptance
import CommandScript.Proofs.Grammar.ExpressionReader
import CommandScript.Proofs.Tokens.Lexemes
import Mathlib
/-! # Texts joined by a newline

A newline ends every token that may stand at the end of a text, and every comment. So the tokens of
a text are the first ones of any longer text in which a newline follows it. Of the nodes that they
make up, all are read from the longer text as they were, up to one difference: the newline belongs
to a command line that ended with the shorter text.
-/
namespace CommandScript

namespace Lexer

theorem skipTrivia_append_newline (inComment : Bool) (cs tail : List Char) :
    skipTrivia inComment (cs ++ '\n' :: tail) = skipTrivia inComment cs ++ '\n' :: tail := by
  induction cs generalizing inComment with
  | nil => cases inComment <;> rfl
  | cons c cs ih =>
    simp only [List.cons_append, skipTrivia, ih]
    split_ifs <;> rfl

variable {cs : List Char} {line : Nat} {t : Token} {after : Lexer}

theorem next_append_newline (h : next ⟨cs, line⟩ = (.ok t, after)) (hk : t.kind ≠ .eof)
    (tail : List Char) :
    next ⟨cs ++ '\n' :: tail, line⟩ = (.ok t, ⟨after.rest ++ '\n' :: tail, after.line⟩) := by
  have hbreaks : Lexical.Breaks ('\n' :: tail) := by
    intro c hc
    cases hc
    decide
  rw [next] at h ⊢
  dsimp only at h ⊢
  rw [skipTrivia_append_newline]
  cases hskip : skipTrivia false cs with
  | nil =>
    rw [hskip, read] at h
    cases h
    exact absurd rfl hk
  | cons c ds =>
    rw [hskip, read] at h
    cases hscan : scan c ds with
    | token kind text rest =>
      rw [hscan] at h
      cases h
      rw [List.cons_append, read, Lexical.scan_append hscan hbreaks]
    | stray =>
      rw [hscan] at h
      cases h
    | unclosed =>
      rw [hscan] at h
      cases h

/-- Where a text ends, the newline behind it is read. -/
theorem next_append_newline_of_eof (h : next ⟨cs, line⟩ = (.ok t, after)) (hk : t.kind = .eof)
    (tail : List Char) :
    next ⟨cs ++ '\n' :: tail, line⟩ = (.ok ⟨.newline, "\n", line⟩, ⟨tail, line + 1⟩) := by
  rw [next] at h ⊢
  dsimp only at h ⊢
  rw [skipTrivia_append_newline]
  cases hskip : skipTrivia false cs with
  | nil => rfl
  | cons c ds =>
    rw [hskip] at h
    exact absurd hk (read_ne_eof (congrArg Prod.fst h))

end Lexer

/-- The row of two texts with a newline between them, if the first one has no lexical error. -/
theorem TokenRow.ofSource_append_newline {lexer : Lexer} {ts : List Token} {m : EndMarker}
    (h : ofSource lexer = ⟨ts, .ok m⟩) (tail : List Char) :
    ∃ newline : Token, ∃ line, newline.kind = .newline ∧
      ofSource (Lexer.mk (lexer.rest ++ '\n' :: tail) lexer.line) =
        ⟨ts ++ newline :: (ofSource (Lexer.mk tail line)).tokens,
          (ofSource (Lexer.mk tail line)).ending⟩ := by
  induction lexer using ofSource.induct generalizing ts with
  | case1 lexer e rest hnext =>
    rw [ofSource_of_error hnext] at h
    cases h
  | case2 lexer t rest hnext hk =>
    rw [ofSource_of_ok hnext, dif_pos hk] at h
    cases h
    refine ⟨⟨.newline, "\n", lexer.line⟩, lexer.line + 1, rfl, ?_⟩
    rw [ofSource_of_ok (Lexer.next_append_newline_of_eof hnext hk tail), dif_neg (by simp)]
    rfl
  | case3 lexer t hk hnext _ ih =>
    rw [ofSource_of_ok hnext, dif_neg hk] at h
    injection h with htokens hending
    have hrest : ofSource (TokenSource.next lexer).2 =
        ⟨(ofSource (TokenSource.next lexer).2).tokens, .ok m⟩ := by rw [← hending]
    obtain ⟨newline, line, hline, hrow⟩ := ih hrest
    refine ⟨newline, line, hline, ?_⟩
    rw [ofSource_of_ok (Lexer.next_append_newline hnext hk tail), dif_neg hk, hrow, ← htokens]
    rfl

namespace Grammar

variable {m m' : EndMarker} {newline : Token} {after : List Token}

/-- What is left of a longer row: what was left of the shorter one and all that follows it, or what
follows the newline if nothing was left. -/
def Remains (newline : Token) (after left left' : List Token) : Prop :=
  left' = left ++ newline :: after ∨ left = [] ∧ left' = after

section Join
variable (hk : newline.kind = .newline)
include hk

theorem EndsLine.join {ts rest : List Token}
    (h : EndsLine (.ok m) ts rest) :
    ∃ rest', Remains newline after rest rest' ∧ EndsLine (.ok m') (ts ++ newline :: after) rest' := by
  cases h with
  | newline hline => exact ⟨_, .inl rfl, .newline hline⟩
  | input _ => exact ⟨after, .inr ⟨rfl, rfl⟩, .newline hk⟩

theorem NoneLeads.join {rank : Bool} {ts : List Token}
    (h : NoneLeads rank ts) : NoneLeads rank (ts ++ newline :: after) := by
  cases ts with
  | nil => exact noneLeads_cons (by simp [Token.binaryOf?, Token.binaryOp?, hk])
  | cons t ts => exact noneLeads_cons (h t rfl)

theorem ReadsExpr.join {sc : Scopes} {ts rest : List Token} {e : Expr}
    (h : ReadsExpr (.ok m) sc.resolve ts e rest) :
    ReadsExpr (.ok m') sc.resolve (ts ++ newline :: after) e (rest ++ newline :: after) := by
  obtain ⟨w, rfl, hderives, hproduct, hsum⟩ := readsExpr_iff.mp h
  exact readsExpr_iff.mpr ⟨w, List.append_assoc .., hderives, hproduct.join hk, hsum.join hk⟩

theorem ReadsArgs.join {sc : Scopes} {ts rest : List Token}
    {args : List Expr} (h : ReadsArgs (.ok m) sc.resolve ts args rest) :
    ∃ rest', Remains newline after rest rest' ∧
      ReadsArgs (.ok m') sc.resolve (ts ++ newline :: after) args rest' := by
  induction h with
  | last he hend =>
    obtain ⟨rest', hremains, hend⟩ := hend.join hk
    exact ⟨rest', hremains, .last (he.join hk) hend⟩
  | more he hcomma hmore ih =>
    obtain ⟨rest', hremains, hmore⟩ := ih
    exact ⟨rest', hremains, .more (he.join hk) hcomma hmore⟩

theorem ReadsTail.join {sc : Scopes} {ts rest : List Token}
    {args : List Expr} (h : ReadsTail (.ok m) sc.resolve ts args rest) :
    ∃ rest', Remains newline after rest rest' ∧
      ReadsTail (.ok m') sc.resolve (ts ++ newline :: after) args rest' := by
  rcases h with ⟨hargs, hend⟩ | hargs
  · obtain ⟨rest', hremains, hend⟩ := hend.join hk
    exact ⟨rest', hremains, .inl ⟨hargs, hend⟩⟩
  · obtain ⟨rest', hremains, hargs⟩ := hargs.join hk
    exact ⟨rest', hremains, .inr hargs⟩

theorem ReadsLine.join {sc : Scopes} {ts rest : List Token}
    {s : Script} (h : ReadsLine (.ok m) sc ts s rest) :
    ∃ rest', Remains newline after rest rest' ∧
      ReadsLine (.ok m') sc (ts ++ newline :: after) s rest' := by
  induction h with
  | ended hend =>
    obtain ⟨rest', hremains, hend⟩ := hend.join hk
    exact ⟨rest', hremains, .ended hend⟩
  | emptyHead hname hcmd _ ih =>
    obtain ⟨rest', hremains, hmore⟩ := ih
    exact ⟨rest', hremains, .emptyHead hname hcmd hmore⟩
  | macroHead hname hcmd hfound _ ih =>
    obtain ⟨rest', hremains, hmore⟩ := ih
    exact ⟨rest', hremains, .macroHead hname hcmd hfound hmore⟩
  | command hname hcmd htype hargs harity =>
    obtain ⟨rest', hremains, hargs⟩ := ReadsTail.join hk hargs
    exact ⟨rest', hremains, .command hname hcmd htype hargs harity⟩

theorem ReadsNodes.join {sc : Scopes} {ts rest : List Token}
    {s : Script} (h : ReadsNodes (.ok m) sc ts s rest) :
    ∃ rest', Remains newline after rest rest' ∧
      ReadsNodes (.ok m') sc (ts ++ newline :: after) s rest' := by
  induction h with
  | done => exact ⟨_, .inl rfl, .done⟩
  | blank hline _ ih =>
    obtain ⟨rest', hremains, hmore⟩ := ih
    exact ⟨rest', hremains, .blank hline hmore⟩
  | label hname hcolon hnew _ ih =>
    obtain ⟨rest', hremains, hmore⟩ := ih
    exact ⟨rest', hremains, .label hname hcolon hnew hmore⟩
  | constant hkeyword hname he _ ih =>
    obtain ⟨rest', hremains, hmore⟩ := ih
    exact ⟨rest', hremains, .constant hkeyword hname (he.join hk) hmore⟩
  | macroBody hkeyword hname _ hclose _ ihBody ih =>
    obtain ⟨rest', hremains, hmore⟩ := ih
    obtain ⟨body', rfl | ⟨hnone, -⟩, hbody⟩ := ihBody
    · exact ⟨rest', hremains, .macroBody hkeyword hname hbody hclose hmore⟩
    · cases hnone
  | line hname hline hmore ih =>
    obtain ⟨left, rfl | ⟨rfl, rfl⟩, hline⟩ := hline.join hk
    · obtain ⟨rest', hremains, hmore⟩ := ih
      exact ⟨rest', hremains, .line hname hline hmore⟩
    · -- The line ended with the shorter row, so nothing follows it there.
      cases hmore
      exact ⟨_, .inr ⟨rfl, rfl⟩, .line hname hline .done⟩

end Join

/-- Behind a node that has been read, the reader goes on with what the node left. -/
theorem Extends.resume {opening : Opening} {sc : Scopes} {r r' q : TokenRow} {scope s : Script}
    (h : Extends opening sc r scope r')
    (hread : ∃ p, (Grammar.nodes opening sc r).result = .ok p ∧ p.value = s ∧ p.rest = q) :
    ∃ p, (Grammar.nodes opening (sc.withCurrent scope) r').result = .ok p ∧ p.value = s ∧
      p.rest = q := by
  obtain ⟨_ | ⟨_, _, lt⟩, h, hleaves⟩ := h
  · exact hleaves.elim
  obtain ⟨rfl, rfl⟩ := hleaves
  obtain ⟨p, hp, rfl, rfl⟩ := hread
  rw [Grammar.nodes] at hp
  simp only [Logged.result_bind, h, ok_bind] at hp
  obtain ⟨p', hp', hp⟩ := exists_of_bind_eq_ok hp
  cases hp
  exact ⟨p', hp', rfl, rfl⟩

/-- Behind any number of nodes that may be read, the reader goes on with what these left. -/
theorem ReadsNodes.resume {ending : Except LexError EndMarker} {sc : Scopes} {ts last : List Token}
    {s t : Script} {opening : Opening} {q : TokenRow} (h : ReadsNodes ending sc ts s last)
    (hread : ∃ p, (Grammar.nodes opening sc (TokenRow.mk ts ending)).result = .ok p ∧ p.value = t ∧
      p.rest = q) :
    ∃ p, (Grammar.nodes opening (sc.withCurrent s) (TokenRow.mk last ending)).result = .ok p ∧
      p.value = t ∧ p.rest = q := by
  induction h with
  | done => exact hread
  | blank hline _ ih => exact ih ((extends_blank hline).resume hread)
  | label hname hcolon hnew _ ih => exact ih ((extends_label hname hcolon hnew).resume hread)
  | constant hkeyword hname he _ ih => exact ih ((extends_constant hkeyword hname he).resume hread)
  | macroBody hkeyword hname hbody hclose _ _ ih =>
    exact ih ((extends_macroBody hkeyword hname
      (fun _ => hbody.nodes (.macroBody hclose))).resume hread)
  | line hname hline _ ih => exact ih ((extends_line hname hline).resume hread)

end Grammar

end CommandScript
