import CommandScript.Proofs.Grammar.ExpressionReader
/-! # Constants and their expressions

A constant is kept as a tree and put into other trees as a leaf would be. The effect is that of its
expression in parentheses: wherever the name stands, the tokens that the constant was read from may
stand between parentheses instead. What is read then is the same, under every operator and sign
around it, and so is the place where reading stops.
-/
namespace CommandScript

/-- Both succeed, or both fail, each with an error of its own. -/
inductive Alike {ε ε' α β : Type} (same : α → β → Prop) : Except ε α → Except ε' β → Prop
  | ok {a : α} {b : β} (h : same a b) : Alike same (.ok a) (.ok b)
  | error (e : ε) (e' : ε') : Alike same (.error e) (.error e')

theorem Alike.bind {ε ε' α β γ δ : Type} {same : α → β → Prop} {same' : γ → δ → Prop}
    {x : Except ε α} {y : Except ε' β} {f : α → Except ε γ} {g : β → Except ε' δ}
    (h : Alike same x y) (hfg : ∀ a b, same a b → Alike same' (f a) (g b)) :
    Alike same' (x >>= f) (y >>= g) := by
  cases h with
  | ok hab => exact hfg _ _ hab
  | error e e' => exact .error e e'

namespace Grammar

/-- A use of the constant, which its expression between parentheses may replace. -/
def Uses (name : String) (t : Token) : Prop := t.kind = .ident ∧ t.text = name

instance (name : String) (t : Token) : Decidable (Uses name t) :=
  inferInstanceAs (Decidable (_ ∧ _))

def expandToken (name : String) (body : List Token) (t : Token) : List Token :=
  if Uses name t then ⟨.leftParen, "(", t.line⟩ :: body ++ [⟨.rightParen, ")", t.line⟩] else [t]

/-- The tokens with every use of the constant replaced. -/
def expand (name : String) (body tokens : List Token) : List Token :=
  tokens.flatMap (expandToken name body)

section Rows
variable {sc : Scopes} {name : String} {tree : Expr} {body : List Token} {m m' : EndMarker}

theorem expand_cons_of_not_uses {t : Token} (h : ¬Uses name t) (ts : List Token) :
    expand name body (t :: ts) = t :: expand name body ts := by
  simp only [expand, List.flatMap_cons, expandToken, if_neg h, List.singleton_append]

theorem expand_cons_of_uses {t : Token} (h : Uses name t) (ts : List Token) :
    expand name body (t :: ts) = (⟨.leftParen, "(", t.line⟩ :: body ++ [⟨.rightParen, ")", t.line⟩]) ++
      expand name body ts := by
  simp only [expand, List.flatMap_cons, expandToken, if_pos h]

/-- The operands of a rank with the operators between them. -/
def chain : Bool → (String → Expr) → (s : TokenRow) → Except SyntaxError (Parsed Expr s)
  | true => multiplicative
  | false => additive

theorem chain_eq (rank : Bool) (resolve : String → Expr) (s : TokenRow) :
    chain rank resolve s = do
      let left ← operand rank resolve s
      let e ← operands rank resolve left.value left.rest
      return ⟨e.value, e.rest, Nat.lt_of_le_of_lt e.le left.lt⟩ := by
  cases rank
  · exact additive.eq_1 resolve s
  · exact multiplicative.eq_1 resolve s

variable (name body m m')

/-- The second row has the tokens of the first with every use of the constant replaced. -/
structure Expands (r r' : TokenRow) : Prop where
  ending : r.ending = .ok m
  ending' : r'.ending = .ok m'
  tokens : r'.tokens = expand name body r.tokens

/-- Reading off the front of two rows comes to the same tree, and leaves two rows that are related
as before, or it fails on both. -/
structure ReadsAlike (sc : Scopes) (r r' : TokenRow) : Prop where
  primary : Alike (Parsed.Same (Expands name body m m'))
    (primary sc.resolve r) (primary sc.resolve r')
  chain (rank : Bool) :
    Alike (Parsed.Same (Expands name body m m'))
      (chain rank sc.resolve r) (chain rank sc.resolve r')
  operands (rank : Bool) (left : Expr) :
    Alike (Reached.Same (Expands name body m m'))
      (operands rank sc.resolve left r) (operands rank sc.resolve left r')

variable {name body m m'} {r r' : TokenRow}

/-- Two related rows both end here, or both have the same token in front, or the constant is used in
front of the first one. -/
theorem Expands.cases (h : Expands name body m m' r r') :
    (r = ⟨[], .ok m⟩ ∧ r' = ⟨[], .ok m'⟩) ∨
      ∃ t ts, r = ⟨t :: ts, .ok m⟩ ∧
        ((Uses name t ∧ r' = ⟨(⟨.leftParen, "(", t.line⟩ :: body ++ [⟨.rightParen, ")", t.line⟩]) ++
            expand name body ts, .ok m'⟩) ∨
          ¬Uses name t ∧ r' = ⟨t :: expand name body ts, .ok m'⟩) := by
  obtain ⟨ts, ending⟩ := r
  obtain ⟨ts', ending'⟩ := r'
  obtain ⟨rfl, rfl, rfl⟩ := h
  cases ts with
  | nil => exact .inl ⟨rfl, rfl⟩
  | cons t ts =>
    by_cases huses : Uses name t
    · refine .inr ⟨t, ts, rfl, .inl ⟨huses, ?_⟩⟩
      rw [expand_cons_of_uses huses]
    · refine .inr ⟨t, ts, rfl, .inr ⟨huses, ?_⟩⟩
      rw [expand_cons_of_not_uses huses]

/-- A token that neither goes on with an expression nor closes one. -/
def EndsPiece (t : Token) : Prop := t.kind ≠ .operator ∧ t.kind ≠ .rightParen

/-- Both rows have the same token in front, or each has one that ends what was read. -/
theorem Expands.first (h : Expands name body m m' r r') :
    ∃ t t', TokenStream.first r = .ok t ∧ TokenStream.first r' = .ok t' ∧
      Expands name body m m' t.here t'.here ∧
      ((t.token = t'.token ∧ Expands name body m m' t.after t'.after) ∨
        EndsPiece t.token ∧ EndsPiece t'.token) := by
  rcases h.cases with ⟨rfl, rfl⟩ | ⟨t, ts, rfl, ⟨huses, rfl⟩ | ⟨hother, rfl⟩⟩
  · refine ⟨_, _, rfl, rfl, h, .inr ⟨?_, ?_⟩⟩
    · simp [EndsPiece, m.2]
    · simp [EndsPiece, m'.2]
  · refine ⟨_, _, rfl, rfl, h, .inr ⟨?_, ?_⟩⟩
    · simp [EndsPiece, huses.1]
    · simp [EndsPiece]
  · exact ⟨_, _, rfl, rfl, h, .inl ⟨rfl, rfl, rfl, rfl⟩⟩

/-- Behind an operand, operators are read as long as they follow. -/
theorem alike_operands (h : Expands name body m m' r r')
    (ih : ∀ q q' : TokenRow, q.size < r.size → Expands name body m m' q q' →
      ReadsAlike name body m m' sc q q') (rank : Bool) (left : Expr) :
    Alike (Reached.Same (Expands name body m m'))
      (operands rank sc.resolve left r) (operands rank sc.resolve left r') := by
  have hoperand : ∀ q q' : TokenRow, q.size < r.size → Expands name body m m' q q' →
      Alike (Parsed.Same (Expands name body m m'))
        (operand rank sc.resolve q) (operand rank sc.resolve q') := by
    intro q q' hq hexpands
    cases rank
    · exact (ih q q' hq hexpands).chain true
    · exact (ih q q' hq hexpands).primary
  rw [operands_eq, operands_eq]
  obtain ⟨t, ⟨token', here', after', h1, h2, h3⟩, ht, ht', hhere, hcases⟩ := h.first
  rw [ht, ht']
  simp only [ok_bind]
  rcases hcases with ⟨rfl, hafter⟩ | ⟨hends, hends'⟩
  · split
    · rename_i op hop
      have hlt := t.after_lt (Token.ne_eof_of_binaryOf? hop)
      refine (hoperand _ _ hlt hafter).bind ?_
      rintro right right' ⟨hvalue, hright⟩
      rw [← hvalue]
      refine ((ih _ _ (Nat.lt_trans right.lt hlt) hright).operands rank _).bind ?_
      exact fun e e' hsame => .ok hsame
    · exact .ok ⟨rfl, hhere⟩
  · split
    · rename_i op hop
      exact absurd (binaryOf?_eq_some.mp hop).1 hends.1
    · split
      · rename_i op hop
        exact absurd (binaryOf?_eq_some.mp hop).1 hends'.1
      · exact .ok ⟨rfl, hhere⟩

theorem primary_of_end (resolve : String → Expr) (m : EndMarker) :
    ∃ e, primary resolve (TokenRow.mk [] (.ok m)) = .error e := by
  obtain ⟨⟨kind, text, line⟩, hk⟩ := m
  cases hk
  rw [primary]
  exact ⟨_, rfl⟩

/-- What is not a use of the constant starts a primary of the same form in both rows. -/
theorem alike_primary_of_not_uses {t : Token} {ts : List Token} (hother : ¬Uses name t)
    (ih : ∀ q q' : TokenRow, q.size < (t :: ts).length → Expands name body m m' q q' →
      ReadsAlike name body m m' sc q q') :
    Alike (Parsed.Same (Expands name body m m'))
      (primary sc.resolve (TokenRow.mk (t :: ts) (.ok m)))
      (primary sc.resolve (TokenRow.mk (t :: expand name body ts) (.ok m'))) := by
  have hrest : Expands name body m m' ⟨ts, .ok m⟩ ⟨expand name body ts, .ok m'⟩ := ⟨rfl, rfl, rfl⟩
  have hsmaller := ih ⟨ts, .ok m⟩ _ (Nat.lt_succ_self ts.length) hrest
  obtain ⟨kind, text, line⟩ := t
  rw [primary, primary, TokenRow.first_cons, TokenRow.first_cons]
  cases kind with
  | operator =>
    simp only [ok_bind]
    cases UnaryOp.ofSymbol? text with
    | none => exact .error _ _
    | some op =>
      refine hsmaller.primary.bind ?_
      rintro e e' ⟨hvalue, hexpands⟩
      exact .ok ⟨congrArg (Expr.unary op) hvalue, hexpands⟩
  | leftParen =>
    refine (hsmaller.chain false).bind ?_
    rintro e e' ⟨hvalue, hexpands⟩
    obtain ⟨close, ⟨token', here', after', h1, h2, h3⟩, hclose, hclose', -, hcases⟩ := hexpands.first
    rw [hclose, hclose']
    simp only [ok_bind]
    rcases hcases with ⟨rfl, hafter⟩ | ⟨hends, hends'⟩
    · split
      · exact .ok ⟨hvalue, hafter⟩
      · exact .error _ _
    · rw [if_neg hends.2, if_neg hends'.2]
      exact .error _ _
  | number =>
    simp only [ok_bind]
    cases Expr.ofNumber? text with
    | none => exact .error _ _
    | some e => exact .ok ⟨rfl, hrest⟩
  | string => exact .ok ⟨rfl, hrest⟩
  | ident => exact .ok ⟨rfl, hrest⟩
  | _ => exact .error _ _

variable (hconstant : sc.constant? name = some tree) (hbody : Derives sc .expression body tree)
include hconstant hbody

/-- A use of the constant is read to the constant's tree, and so is its expression in parentheses. -/
theorem alike_primary (h : Expands name body m m' r r')
    (ih : ∀ q q' : TokenRow, q.size < r.size → Expands name body m m' q q' →
      ReadsAlike name body m m' sc q q') :
    Alike (Parsed.Same (Expands name body m m'))
      (primary sc.resolve r) (primary sc.resolve r') := by
  rcases h.cases with ⟨rfl, rfl⟩ | ⟨t, ts, rfl, ⟨huses, rfl⟩ | ⟨hother, rfl⟩⟩
  · obtain ⟨e, he⟩ := primary_of_end sc.resolve m
    obtain ⟨e', he'⟩ := primary_of_end sc.resolve m'
    rw [he, he']
    exact .error e e'
  · obtain ⟨kind, text, line⟩ := t
    obtain ⟨rfl, rfl⟩ := huses
    have hparens : Derives sc .primary (⟨.leftParen, "(", line⟩ :: body ++ [⟨.rightParen, ")", line⟩])
        tree := .parens rfl hbody rfl
    obtain ⟨lt, hread⟩ := hparens.isRead m' (expand text body ts)
    have hname : sc.resolve text = tree := by
      unfold Scopes.resolve
      rw [hconstant]
    rw [hread, primary, TokenRow.first_cons]
    exact .ok ⟨hname, rfl, rfl, rfl⟩
  · exact alike_primary_of_not_uses hother ih

/-- Replacing uses of a constant changes nothing that is read, whatever is read. -/
theorem readsAlike (r r' : TokenRow) (h : Expands name body m m' r r') :
    ReadsAlike name body m m' sc r r' := by
  -- A primary, an operand and what follows an operand are read off a row by reading smaller ones.
  induction hn : r.size using Nat.strongRecOn generalizing r r' with
  | ind n ihn =>
    have ih : ∀ q q' : TokenRow, q.size < r.size → Expands name body m m' q q' →
        ReadsAlike name body m m' sc q q' :=
      fun q q' hlt hq => ihn q.size (hn ▸ hlt) q q' hq rfl
    have hprimary := alike_primary hconstant hbody h ih
    have hchain : ∀ rank, Alike (Parsed.Same (Expands name body m m'))
        (operand rank sc.resolve r) (operand rank sc.resolve r') →
      Alike (Parsed.Same (Expands name body m m'))
        (chain rank sc.resolve r) (chain rank sc.resolve r') := by
      intro rank hoperand
      rw [chain_eq, chain_eq]
      refine hoperand.bind ?_
      rintro left left' ⟨hvalue, hrest⟩
      rw [← hvalue]
      refine ((ih _ _ left.lt hrest).operands rank left.value).bind ?_
      exact fun e e' hsame => .ok hsame
    have hproduct := hchain true hprimary
    have hsum := hchain false hproduct
    exact ⟨hprimary, Bool.rec hsum hproduct, alike_operands h ih⟩

end Rows

end Grammar

namespace Lookahead

/-- A buffer with just these tokens left in front of the end of its input, fetched or not. -/
def Holds {σ : Type} [FiniteSource σ] (b : Lookahead σ) (m : EndMarker) (tokens : List Token) : Prop :=
  b.Tracks b.capacity (.ok m) ⟨tokens, .ok m⟩

variable {σ : Type} [FiniteSource σ] {b : Lookahead σ} {m : EndMarker} {tokens : List Token}

theorem holds_replay (tokens : List Token) (line : Nat) (config : LookaheadConfig) :
    (ofSource (Replay.mk (tokens.map .ok) line) config).Holds (Replay.marker line tokens)
      (tokens.takeWhile (fun t => t.kind ≠ .eof)) := by
  have htracks := tracks_ofSource (Replay.mk (tokens.map .ok) line) config
  rw [Replay.ofSource_eq] at htracks
  exact htracks

theorem Tracks.holds {capacity : Nat} {row : TokenRow} (h : b.Tracks capacity (.ok m) row) :
    b.Holds m row.tokens := by
  obtain ⟨tokens, ending⟩ := row
  obtain ⟨hshows, rfl, hcapacity, hbatch, rfl⟩ := h
  exact ⟨hshows, rfl, hcapacity, hbatch, rfl⟩

/-- An expression is read off a buffer as off the plain row of its tokens. -/
theorem Holds.expression (h : b.Holds m tokens) (resolve : String → Expr) :
    Alike (fun p p' => p.value = p'.value ∧ p'.rest.ending = .ok m ∧ p.rest.Holds m p'.rest.tokens)
      (Grammar.expression resolve b) (Grammar.expression resolve (TokenRow.mk tokens (.ok m))) := by
  have htracks : TracksBy b.batch b.capacity (.ok m) b ⟨tokens, .ok m⟩ := ⟨h, rfl⟩
  have hfollows := (frontSimulation_tracksBy _ _ _).expression resolve htracks
  generalize Grammar.expression resolve b = x at hfollows
  generalize Grammar.expression resolve (TokenRow.mk tokens (.ok m)) = y at hfollows
  cases hfollows with
  | early hearly =>
    obtain ⟨-, cause, hcause, -⟩ := hearly
    cases hcause
  | error e => exact .error e e
  | ok hsame =>
    obtain ⟨hvalue, hrest, -⟩ := hsame
    exact .ok ⟨hvalue, hrest.ending_eq, hrest.holds⟩

end Lookahead

namespace Grammar

/-- What is read off a buffer, and what is left there. -/
theorem readsExpr_of_holds {σ : Type} [FiniteSource σ] {b : Lookahead σ} {m : EndMarker}
    {tokens rest : List Token} {resolve : String → Expr} {e : Expr} (hb : b.Holds m tokens) :
    (∃ p, expression resolve b = .ok p ∧ p.value = e ∧ p.rest.Holds m rest) ↔
      ReadsExpr (.ok m) resolve tokens e rest := by
  have halike := hb.expression resolve
  unfold ReadsExpr
  generalize expression resolve b = x at halike ⊢
  generalize expression resolve (TokenRow.mk tokens (.ok m)) = y at halike ⊢
  cases halike with
  | error e e' =>
    constructor
    · rintro ⟨p, hp, -⟩
      cases hp
    · rintro ⟨lt, hp⟩
      cases hp
  | @ok p p' hsame =>
    obtain ⟨value, ⟨ts, ending⟩, lt⟩ := p'
    obtain ⟨hvalue, hending, hrest⟩ := hsame
    cases hending
    constructor
    · rintro ⟨p, ⟨⟩, rfl, hholds⟩
      cases hrest.shows.unique hholds.shows
      cases hvalue
      exact ⟨lt, rfl⟩
    · rintro ⟨lt, ⟨⟩⟩
      exact ⟨p, rfl, hvalue, hrest⟩

/-- A constant means its expression in parentheses. Let a name stand for the tree that was read off
some tokens, all of them, in the same scopes. Then any tokens, and these tokens with every use of
the name replaced by the constant's tokens between parentheses, are both read to the same tree, with
a rest that differs in the same way, or both are rejected. -/
theorem expression_expand {σ σ' σ'' : Type} [FiniteSource σ] [FiniteSource σ'] [FiniteSource σ'']
    (sc : Scopes) {name : String} {tree : Expr} (hconstant : sc.constant? name = some tree)
    {body : List Token} {c : Lookahead σ''} {n : EndMarker} (hc : c.Holds n body)
    (hbody : ∃ p, expression sc.resolve c = .ok p ∧ p.value = tree ∧ p.rest.Holds n [])
    (tokens : List Token) {b : Lookahead σ} {m : EndMarker} (hb : b.Holds m tokens)
    {b' : Lookahead σ'} {m' : EndMarker} (hb' : b'.Holds m' (expand name body tokens)) :
    Alike (fun p p' => p.value = p'.value ∧ ∃ rest, p.rest.Holds m rest ∧
        p'.rest.Holds m' (expand name body rest))
      (expression sc.resolve b) (expression sc.resolve b') := by
  obtain ⟨w, hw, hbody, -⟩ := readsExpr_iff.mp ((readsExpr_of_holds hc).mp hbody)
  obtain rfl : body = w := hw.trans (List.append_nil w)
  have hrows : Alike (Parsed.Same (Expands name body m m'))
      (expression sc.resolve (TokenRow.mk tokens (.ok m)))
      (expression sc.resolve (TokenRow.mk (expand name body tokens) (.ok m'))) :=
    (readsAlike hconstant hbody _ _ ⟨rfl, rfl, rfl⟩).chain false
  have halike := hb.expression sc.resolve
  have halike' := hb'.expression sc.resolve
  generalize expression sc.resolve b = x at halike ⊢
  generalize expression sc.resolve b' = x' at halike' ⊢
  generalize expression sc.resolve (TokenRow.mk tokens (.ok m)) = y at halike hrows
  generalize expression sc.resolve (TokenRow.mk (expand name body tokens) (.ok m')) = y'
    at halike' hrows
  cases hrows with
  | error e e' =>
    cases halike with
    | error e₁ _ => cases halike' with | error e₂ _ => exact .error e₁ e₂
  | ok hsame =>
    cases halike with
    | ok hq =>
      cases halike' with
      | ok hq' =>
        obtain ⟨hvalue, hexpands⟩ := hsame
        refine .ok ⟨hq.1.trans (hvalue.trans hq'.1.symm), _, hq.2.2, ?_⟩
        rw [← hexpands.tokens]
        exact hq'.2.2

/-- A sum behind a constant, used as a factor and once more behind a parenthesis that nothing opens. -/
theorem expression_expand_factor :
    let sum : Expr := .binary .add (.integer 1) (.label "a")
    let sc : Scopes := ⟨.empty, .empty, [Script.empty.declareConstant "n" sum]⟩
    let body : List Token := [⟨.number, "1", 1⟩, ⟨.operator, "+", 1⟩, ⟨.ident, "a", 1⟩]
    let rest : List Token := [⟨.rightParen, ")", 2⟩, ⟨.ident, "n", 2⟩]
    let tokens : List Token := ⟨.number, "2", 2⟩ :: ⟨.operator, "*", 2⟩ :: ⟨.ident, "n", 2⟩ :: rest
    let buffer (ts : List Token) := Lookahead.ofSource (Replay.mk (ts.map .ok) 2) ⟨2, 1⟩
    let m : EndMarker := ⟨⟨.eof, "", 2⟩, rfl⟩
    (∃ p, expression sc.resolve (buffer tokens) = .ok p ∧
        p.value = .binary .mul (.integer 2) sum ∧ p.rest.Holds m rest) ∧
      ∃ p, expression sc.resolve (buffer (expand "n" body tokens)) = .ok p ∧
        p.value = .binary .mul (.integer 2) sum ∧ p.rest.Holds m (expand "n" body rest) := by
  intro sum sc body rest tokens buffer m
  have hconstant : sc.constant? "n" = some sum := rfl
  have hholds : ∀ ts : List Token, ts.takeWhile (fun t => t.kind ≠ .eof) = ts →
      Replay.marker 2 ts = m → (buffer ts).Holds m ts := by
    intro ts hts hm
    have h := Lookahead.holds_replay ts 2 ⟨2, 1⟩
    rwa [hts, hm] at h
  have hnone : ∀ rank, NoneLeads rank [] ∧ NoneLeads rank rest := by
    refine fun rank => ⟨fun t ht => ?_, noneLeads_cons rfl⟩
    cases ht
  have hbody : Derives sc .expression body sum :=
    .sum (w := [⟨.number, "1", 1⟩]) (.term (.primary (.number rfl rfl))) rfl rfl (.inl rfl)
      (.primary (.name rfl (sc.denotes_resolve "a")))
  have hproduct : Derives sc .expression [⟨.number, "2", 2⟩, ⟨.operator, "*", 2⟩, ⟨.ident, "n", 2⟩]
      (.binary .mul (.integer 2) sum) :=
    .term (.product (w := [⟨.number, "2", 2⟩]) (.primary (.number rfl rfl)) rfl rfl (.inl rfl)
      (.name rfl (sc.denotes_resolve "n")))
  have hread := (readsExpr_of_holds (hholds body rfl rfl)).mpr (readsExpr_iff.mpr
    ⟨body, rfl, hbody, (hnone true).1, (hnone false).1⟩)
  have htokens := (readsExpr_of_holds (hholds tokens rfl rfl)).mpr (readsExpr_iff.mpr
    ⟨_, rfl, hproduct, (hnone true).2, (hnone false).2⟩)
  have halike := expression_expand sc hconstant (hholds body rfl rfl) hread tokens
    (hholds tokens rfl rfl) (hholds (expand "n" body tokens) rfl rfl)
  refine ⟨htokens, ?_⟩
  obtain ⟨p, hp, hvalue, hrest⟩ := htokens
  rw [hp] at halike
  generalize expression sc.resolve (buffer (expand "n" body tokens)) = x at halike ⊢
  cases halike with
  | @ok _ p' hsame =>
    obtain ⟨hsame, rest', hrest', hexpand⟩ := hsame
    cases hrest.shows.unique hrest'.shows
    exact ⟨p', rfl, hsame.symm.trans hvalue, hexpand⟩

end Grammar

end CommandScript
