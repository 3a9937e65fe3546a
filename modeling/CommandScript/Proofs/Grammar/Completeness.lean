import CommandScript.Proofs.Grammar.Nodes
import CommandScript.Proofs.Outcome
import Mathlib.Logic.Basic
/-! # What is in the grammar is read

The readers choose between nodes by the first token, and between a label and a command line by the
second one. On a piece of the grammar each of these choices is the right one.
-/
namespace CommandScript

namespace Grammar

variable {ending : Except LexError EndMarker} {resolve : String → Expr} {r : TokenRow}

/-- An expression starts with a sign, a parenthesis, a literal or a name. -/
def startsExpr : TokenKind → Bool
  | .operator | .leftParen | .number | .string | .ident => true
  | _ => false

theorem startsExpr_of_readsExpr {ts rest : List Token} {e : Expr}
    (h : ReadsExpr ending resolve ts e rest) :
    ∃ t ts', ts = t :: ts' ∧ startsExpr t.kind = true := by
  obtain ⟨lt, h⟩ := h
  rw [expression, additive] at h
  obtain ⟨left, hleft, -⟩ := exists_of_bind_eq_ok h
  rw [multiplicative] at hleft
  obtain ⟨unit, hunit, -⟩ := exists_of_bind_eq_ok hleft
  rw [primary] at hunit
  obtain ⟨t, ht, hunit⟩ := exists_of_bind_eq_ok hunit
  have hstart : startsExpr t.token.kind = true := by
    split at hunit <;> simp_all [startsExpr]
  have hk : t.token.kind ≠ .eof := by
    intro hk
    simp [hk, startsExpr] at hstart
  exact ⟨t.token, t.after.tokens, TokenRow.tokens_of_first ht hk, hstart⟩

theorem not_endsLine_of_startsExpr {t : Token} (h : startsExpr t.kind = true) : ¬t.endsLine := by
  intro hend
  cases hk : t.kind <;> simp_all [startsExpr, Token.endsLine]

theorem EndsLine.first {ts rest : List Token} (h : EndsLine ending ts rest) :
    ∃ t : First TokenStream.size (TokenRow.mk ts ending),
      TokenStream.first (TokenRow.mk ts ending) = .ok t ∧ t.token.endsLine ∧
        t.after = ⟨rest, ending⟩ := by
  cases h with
  | newline hk => exact ⟨_, rfl, by simp [Token.endsLine, hk], rfl⟩
  | @input m hm =>
    subst hm
    exact ⟨_, rfl, by simp [Token.endsLine, m.2], rfl⟩

theorem EndsLine.arguments {ts rest : List Token} (h : EndsLine ending ts rest) :
    ∃ p, arguments resolve (TokenRow.mk ts ending) = .ok p ∧ p.value = [] ∧
      p.rest = ⟨rest, ending⟩ := by
  obtain ⟨t, hfirst, hend, hafter⟩ := h.first
  rw [Grammar.arguments, hfirst]
  simp only [ok_bind, if_pos hend]
  exact ⟨_, rfl, rfl, hafter⟩

theorem ReadsArgs.startsExpr {ts rest : List Token} {es : List Expr}
    (h : ReadsArgs ending resolve ts es rest) :
    ∃ t ts', ts = t :: ts' ∧ startsExpr t.kind = true := by
  cases h with
  | last he _ => exact startsExpr_of_readsExpr he
  | more he _ _ => exact startsExpr_of_readsExpr he

theorem ReadsArgs.arguments {ts rest : List Token} {es : List Expr}
    (h : ReadsArgs ending resolve ts es rest) :
    ∃ p, arguments resolve (TokenRow.mk ts ending) = .ok p ∧ p.value = es ∧
      p.rest = ⟨rest, ending⟩ := by
  induction h with
  | last he hend =>
    obtain ⟨t, ts', rfl, hstart⟩ := startsExpr_of_readsExpr he
    obtain ⟨lt, he⟩ := he
    obtain ⟨next, hfirst, hline, hafter⟩ := hend.first
    have hcomma : next.token.kind ≠ .comma := by
      intro hk
      simp [Token.endsLine, hk] at hline
    rw [Grammar.arguments, TokenRow.first_cons]
    simp only [ok_bind, if_neg (not_endsLine_of_startsExpr hstart), he, hfirst, if_neg hcomma,
      if_pos hline]
    exact ⟨_, rfl, rfl, hafter⟩
  | more he hcomma hmore ih =>
    obtain ⟨t, ts', rfl, hstart⟩ := startsExpr_of_readsExpr he
    obtain ⟨a, as, rfl, hahead⟩ := hmore.startsExpr
    obtain ⟨lt, he⟩ := he
    obtain ⟨p, hp, rfl, hrest⟩ := ih
    rw [Grammar.arguments, TokenRow.first_cons]
    simp only [ok_bind, if_neg (not_endsLine_of_startsExpr hstart), he, TokenRow.first_cons,
      if_pos hcomma, if_neg (not_endsLine_of_startsExpr hahead), hp]
    exact ⟨_, rfl, rfl, hrest⟩

theorem exists_arguments {ts rest : List Token} {args : List Expr}
    (h : ReadsTail ending resolve ts args rest) :
    ∃ p, arguments resolve (TokenRow.mk ts ending) = .ok p ∧ p.value = args ∧
      p.rest = ⟨rest, ending⟩ := by
  rcases h with ⟨rfl, hend⟩ | hargs
  · exact hend.arguments
  · exact hargs.arguments

theorem not_endsLine_of_ident {t : Token} (h : t.kind = .ident) : ¬t.endsLine :=
  not_endsLine_of_startsExpr (by rw [h]; rfl)

/-- Behind a head that is a name, the rest of the line decides. -/
theorem result_heads_cons {sc : Scopes} {head : Token} {ts rest : List Token} {s : Script}
    (hname : head.kind = .ident) :
    (∃ p, (heads sc (TokenRow.mk (head :: ts) ending)).result = .ok p ∧ p.value = s ∧
        p.rest = ⟨rest, ending⟩) ↔
      ∃ p, (commandLine sc head (TokenRow.mk ts ending)).result = .ok p ∧ p.value = s ∧
        p.rest = ⟨rest, ending⟩ := by
  rw [heads]
  simp only [Logged.result_bind, Logged.result_lift, TokenRow.first_cons, ok_bind,
    dif_neg (not_endsLine_of_ident hname)]
  constructor
  · rintro ⟨p, hp, hv, hr⟩
    obtain ⟨q, hq, hp⟩ := exists_of_bind_eq_ok hp
    cases hp
    exact ⟨q, hq, hv, hr⟩
  · rintro ⟨q, hq, hv, hr⟩
    rw [hq]
    exact ⟨_, rfl, hv, hr⟩

theorem ReadsLine.heads {sc : Scopes} {ts rest : List Token} {s : Script}
    (h : ReadsLine ending sc ts s rest) :
    ∃ p, (heads sc (TokenRow.mk ts ending)).result = .ok p ∧ p.value = s ∧
      p.rest = ⟨rest, ending⟩ := by
  induction h with
  | ended hend =>
    obtain ⟨t, hfirst, hline, hafter⟩ := hend.first
    rw [Grammar.heads]
    simp only [Logged.result_bind, Logged.result_lift, hfirst, ok_bind, dif_pos hline]
    exact ⟨_, rfl, rfl, hafter⟩
  | emptyHead hname hcmd _ ih =>
    rw [result_heads_cons hname, commandLine, if_neg (not_not.mpr hname), hcmd]
    exact ih
  | macroHead hname hcmd hfound _ ih =>
    rw [result_heads_cons hname, commandLine, if_neg (not_not.mpr hname), hcmd, hfound]
    exact ih
  | command hname hcmd htype hargs harity =>
    rw [result_heads_cons hname, commandLine, if_neg (not_not.mpr hname), hcmd]
    obtain ⟨p, hp, rfl, hrest⟩ := exists_arguments hargs
    simp only [if_neg htype, Logged.result_bind, Logged.result_lift, hp, ok_bind,
      complete_eq_ok.mpr ⟨rfl, harity⟩]
    exact ⟨_, rfl, rfl, hrest⟩

theorem exists_declaredName (after : String) {name : Token} (ts : List Token)
    (ending : Except LexError EndMarker) (hname : name.kind = .ident) :
    ∃ p, declaredName after (TokenRow.mk (name :: ts) ending) = .ok p ∧ p.value = name.text ∧
      p.rest = ⟨ts, ending⟩ := by
  have hisName : name.isName := by simp [Token.isName, hname]
  unfold declaredName
  simp only [TokenRow.first_cons, ok_bind, dif_pos hisName]
  exact ⟨_, rfl, rfl, rfl⟩

/-- A node at the front of a row that leaves the given script and row. -/
def Extends (opening : Opening) (sc : Scopes) (r : TokenRow) (scope : Script) (r' : TokenRow) :
    Prop :=
  ∃ e, (node opening sc r).result = .ok e ∧
    match e with
    | .closed .. => False
    | .extended scope' q _ => scope' = scope ∧ q = r'

theorem ne_terminator {k : TokenKind} (opening : Opening) (heof : k ≠ .eof) (hend : k ≠ .macroEnd) :
    k ≠ opening.terminator := by
  cases opening with
  | root => exact heof
  | macroBody => exact hend

theorem Extends.nodes {opening : Opening} {sc : Scopes} {r' q : TokenRow} {scope s : Script}
    (h : Extends opening sc r scope r')
    (hmore : ∃ p, (nodes opening (sc.withCurrent scope) r').result = .ok p ∧ p.value = s ∧
      p.rest = q) :
    ∃ p, (nodes opening sc r).result = .ok p ∧ p.value = s ∧ p.rest = q := by
  obtain ⟨_ | ⟨_, _, lt⟩, h, hleaves⟩ := h
  · exact hleaves.elim
  obtain ⟨rfl, rfl⟩ := hleaves
  obtain ⟨p, hp, hv, hr⟩ := hmore
  rw [Grammar.nodes]
  simp only [Logged.result_bind, h, ok_bind, hp]
  exact ⟨_, rfl, hv, hr⟩

section Nodes
variable {opening : Opening} {sc : Scopes} {ts ts' rest : List Token}

theorem extends_blank {t : Token} (h : t.kind = .newline) :
    Extends opening sc ⟨t :: ts, ending⟩ sc.current ⟨ts, ending⟩ := by
  obtain ⟨_, text, line⟩ := t
  cases h
  unfold Extends
  rw [node]
  simp only [Logged.result_bind, Logged.result_lift, TokenRow.first_cons, ok_bind,
    if_neg (ne_terminator opening (k := .newline) (by decide) (by decide))]
  exact ⟨_, rfl, rfl, rfl⟩

theorem extends_constant {keyword name : Token} {e : Expr} (hkeyword : keyword.kind = .const)
    (hname : name.kind = .ident) (he : ReadsExpr ending sc.resolve ts e ts') :
    Extends opening sc ⟨keyword :: name :: ts, ending⟩
      (sc.current.declareConstant name.text e) ⟨ts', ending⟩ := by
  obtain ⟨_, text, line⟩ := keyword
  cases hkeyword
  obtain ⟨⟨_, _, lt⟩, hp, rfl, rfl⟩ := exists_declaredName text ts ending hname
  obtain ⟨lt', he⟩ := he
  unfold Extends
  rw [node]
  simp only [Logged.result_bind, Logged.result_lift, TokenRow.first_cons, ok_bind,
    if_neg (ne_terminator opening (k := .const) (by decide) (by decide)), constantDeclaration, hp, he]
  exact ⟨_, rfl, rfl, rfl⟩

theorem extends_macroBody {keyword name : Token} {body : Script}
    (hkeyword : keyword.kind = .macroStart) (hname : name.kind = .ident)
    (hbody : ∀ line, ∃ p, (nodes (.macroBody name.text line) sc.inner
      (TokenRow.mk ts ending)).result = .ok p ∧ p.value = body ∧ p.rest = ⟨ts', ending⟩) :
    Extends opening sc ⟨keyword :: name :: ts, ending⟩
      (sc.current.declareMacro name.text body) ⟨ts', ending⟩ := by
  obtain ⟨_, text, line⟩ := keyword
  cases hkeyword
  obtain ⟨⟨_, _, lt⟩, hp, rfl, rfl⟩ := exists_declaredName text ts ending hname
  obtain ⟨q, hq, rfl, hr⟩ := hbody line
  unfold Extends
  rw [node]
  simp only [Logged.result_bind, Logged.result_lift, TokenRow.first_cons, ok_bind,
    if_neg (ne_terminator opening (k := .macroStart) (by decide) (by decide)), hp, hq]
  exact ⟨_, rfl, rfl, hr⟩

/-- Behind the head of a command line there is no colon, so the head is not taken for a label. -/
theorem ReadsLine.next_ne_colon {head : Token} {s : Script}
    (h : ReadsLine ending sc (head :: ts) s rest) (hname : head.kind = .ident) :
    ∃ t : First TokenStream.size (TokenRow.mk ts ending),
      TokenStream.first (TokenRow.mk ts ending) = .ok t ∧ t.token.kind ≠ .colon := by
  have hends : ∀ {us last}, EndsLine ending us last →
      ∃ t : First TokenStream.size (TokenRow.mk us ending),
        TokenStream.first (TokenRow.mk us ending) = .ok t ∧ t.token.kind ≠ .colon := by
    intro us last hend
    obtain ⟨t, hfirst, hline, -⟩ := hend.first
    refine ⟨t, hfirst, fun hk => ?_⟩
    simp [Token.endsLine, hk] at hline
  have hline : ∀ {sc' us s' last}, ReadsLine ending sc' us s' last →
      ∃ t : First TokenStream.size (TokenRow.mk us ending),
        TokenStream.first (TokenRow.mk us ending) = .ok t ∧ t.token.kind ≠ .colon := by
    intro sc' us s' last hread
    cases hread with
    | ended hend => exact hends hend
    | emptyHead hk _ _ => exact ⟨_, rfl, by rw [hk]; decide⟩
    | macroHead hk _ _ _ => exact ⟨_, rfl, by rw [hk]; decide⟩
    | command hk _ _ _ _ => exact ⟨_, rfl, by rw [hk]; decide⟩
  cases h with
  | ended hend =>
    cases hend with
    | newline hk => rw [hname] at hk; cases hk
  | emptyHead _ _ hmore => exact hline hmore
  | macroHead _ _ _ hmore => exact hline hmore
  | command _ _ _ hargs _ =>
    rcases hargs with ⟨-, hend⟩ | hargs
    · exact hends hend
    · obtain ⟨t, ts', rfl, hstart⟩ := hargs.startsExpr
      refine ⟨_, rfl, fun hk => ?_⟩
      dsimp only at hk
      simp [hk, Grammar.startsExpr] at hstart

theorem extends_of_named {name : Token} {scope : Script} {r' : TokenRow} (hname : name.kind = .ident)
    (h : ∃ p, (named sc (TokenRow.mk (name :: ts) ending)).result = .ok p ∧ p.value = scope ∧
      p.rest = r') : Extends opening sc ⟨name :: ts, ending⟩ scope r' := by
  obtain ⟨_, text, line⟩ := name
  cases hname
  obtain ⟨p, hp, hv, hr⟩ := h
  unfold Extends
  rw [node]
  simp only [Logged.result_bind, Logged.result_lift, TokenRow.first_cons, ok_bind,
    if_neg (ne_terminator opening (k := .ident) (by decide) (by decide)), hp]
  exact ⟨_, rfl, hv, hr⟩

theorem extends_label {name colon : Token} (hname : name.kind = .ident)
    (hcolon : colon.kind = .colon) (hnew : sc.current.label? name.text = none) :
    Extends opening sc ⟨name :: colon :: ts, ending⟩ (sc.current.declareLabel name.text)
      ⟨ts, ending⟩ := by
  refine extends_of_named hname ?_
  have hisName : name.isName := by simp [Token.isName, hname]
  have hcontains : ¬sc.current.labels.contains name.text := by
    simpa [NameTable.contains, Script.label?] using hnew
  have hsecond : TokenStream.second (TokenRow.mk (name :: colon :: ts) ending) =
      .ok ⟨colon, ⟨name :: colon :: ts, ending⟩, Nat.le_refl _⟩ := rfl
  simp only [named, Logged.result_bind, Logged.result_lift, hsecond, TokenRow.first_cons, ok_bind,
    dif_pos hisName, if_pos hcolon, labelDeclaration, if_neg hcontains]
  exact ⟨_, rfl, rfl, rfl⟩

theorem extends_line {head : Token} {scope : Script} (hname : head.kind = .ident)
    (h : ReadsLine ending sc (head :: ts) scope ts') :
    Extends opening sc ⟨head :: ts, ending⟩ scope ⟨ts', ending⟩ := by
  refine extends_of_named hname ?_
  have hisName : head.isName := by simp [Token.isName, hname]
  obtain ⟨t, hfirst, hcolon⟩ := h.next_ne_colon hname
  obtain ⟨p, hp, hv, hr⟩ := (result_heads_cons hname).mp h.heads
  obtain ⟨⟨_, _, le⟩, hsecond, rfl, rfl⟩ := TokenRow.second_cons head hfirst
  simp only [named, Logged.result_bind, Logged.result_lift, hsecond, TokenRow.first_cons, ok_bind,
    dif_pos hisName, if_neg hcolon, hp]
  exact ⟨_, rfl, hv, hr⟩

end Nodes

theorem Closes.nodes {opening : Opening} {sc : Scopes} {ts rest : List Token}
    (h : Closes ending opening ts rest) :
    ∃ p, (nodes opening sc (TokenRow.mk ts ending)).result = .ok p ∧ p.value = sc.current ∧
      p.rest = ⟨rest, ending⟩ := by
  rw [Grammar.nodes, node]
  cases h with
  | @root m hm =>
    subst hm
    have hfirst : TokenStream.first (TokenRow.mk [] (.ok m)) = .ok ⟨m.1, ⟨[], .ok m⟩, ⟨[], .ok m⟩,
        Nat.le_refl _, Nat.le_refl _, fun h => absurd m.2 h⟩ := rfl
    have hk : m.1.kind = Opening.root.terminator := m.2
    simp only [Logged.result_bind, Logged.result_lift, hfirst, ok_bind, if_pos hk, Logged.result_pure]
    exact ⟨_, rfl, rfl, rfl⟩
  | @macroBody name line t _ hk =>
    have hk : t.kind = (Opening.macroBody name line).terminator := hk
    simp only [Logged.result_bind, Logged.result_lift, TokenRow.first_cons, ok_bind, if_pos hk,
      Logged.result_pure]
    exact ⟨_, rfl, rfl, rfl⟩

/-- Nodes of the grammar are read. -/
theorem ReadsNodes.nodes {sc : Scopes} {ts last : List Token} {s : Script}
    (h : ReadsNodes ending sc ts s last) {opening : Opening} {rest : List Token}
    (hclose : Closes ending opening last rest) :
    ∃ p, (nodes opening sc (TokenRow.mk ts ending)).result = .ok p ∧ p.value = s ∧
      p.rest = ⟨rest, ending⟩ := by
  induction h generalizing opening rest with
  | done => exact hclose.nodes
  | blank hline _ ih => exact (extends_blank hline).nodes (ih hclose)
  | label hname hcolon hnew _ ih => exact (extends_label hname hcolon hnew).nodes (ih hclose)
  | constant hkeyword hname he _ ih => exact (extends_constant hkeyword hname he).nodes (ih hclose)
  | macroBody hkeyword hname _ hend _ ihBody ih =>
    exact (extends_macroBody hkeyword hname (fun _ => ihBody (.macroBody hend))).nodes (ih hclose)
  | line hname hline _ ih => exact (extends_line hname hline).nodes (ih hclose)

end Grammar

end CommandScript
