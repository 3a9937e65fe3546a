import CommandScript.Proofs.Grammar.Expressions
import CommandScript.Proofs.Grammar.Nodes
/-! # Reading expressions by the grammar

The reader of expressions and the grammar agree in both directions. What it reads is a piece of the
grammar with the same tree, and no operator follows it. A piece of the grammar, with whatever may
follow, is read to its end: a primary is read in front of anything, a term goes on as long as its
operators follow, and so does an expression.
-/
namespace CommandScript

namespace Grammar

variable {sc : Scopes}

section Soundness
variable {c c' : Category} {s s' q rest : TokenRow} {left right e : Expr}

/-- A piece of the grammar stood in front of a row. -/
def Taken (sc : Scopes) (c : Category) (s : TokenRow) (e : Expr) (rest : TokenRow) : Prop :=
  ∃ w, s = ⟨w ++ rest.tokens, rest.ending⟩ ∧ Derives sc c w e

/-- What stood in front of a row makes a longer piece of any piece with the tree `left`. -/
def Prolongs (sc : Scopes) (c : Category) (left : Expr) (s : TokenRow) (e : Expr)
    (rest : TokenRow) : Prop :=
  ∀ w, Derives sc c w left → ∃ w', s = ⟨w' ++ rest.tokens, rest.ending⟩ ∧ Derives sc c (w ++ w') e

theorem prolongs_refl (sc : Scopes) (c : Category) (e : Expr) (s : TokenRow) :
    Prolongs sc c e s e s := by
  intro w hw
  exact ⟨[], rfl, by rwa [List.append_nil]⟩

/-- An operator and its right operand prolong a piece, and so does what follows them. -/
theorem Prolongs.operand {t : Token} {op : BinaryOp} (hs : s = ⟨t :: s'.tokens, s'.ending⟩)
    (hright : Taken sc c' s' right q)
    (hop : ∀ w w', Derives sc c w left → Derives sc c' w' right →
      Derives sc c (w ++ t :: w') (.binary op left right))
    (hmore : Prolongs sc c (.binary op left right) q e rest) : Prolongs sc c left s e rest := by
  intro w hw
  obtain ⟨w₁, rfl, hw₁⟩ := hright
  obtain ⟨w₂, rfl, hw₂⟩ := hmore _ (hop w w₁ hw hw₁)
  refine ⟨t :: w₁ ++ w₂, ?_, ?_⟩
  · rw [hs]
    simp only [List.cons_append, List.append_assoc]
  · simpa only [List.cons_append, List.append_assoc] using hw₂

theorem Taken.prolong (h : Taken sc c' s left q)
    (hsub : ∀ w, Derives sc c' w left → Derives sc c w left)
    (hmore : Prolongs sc c left q e rest) : Taken sc c s e rest := by
  obtain ⟨w, rfl, hw⟩ := h
  obtain ⟨w', rfl, hw'⟩ := hmore w (hsub w hw)
  exact ⟨w ++ w', by simp only [List.append_assoc], hw'⟩

theorem taken_cons {t : Token} (hs : s = ⟨t :: rest.tokens, rest.ending⟩)
    (h : Derives sc c [t] e) : Taken sc c s e rest :=
  ⟨[t], hs, h⟩

theorem Taken.sign {t : Token} {op : UnaryOp} (h : Taken sc .primary s' e rest)
    (hs : s = ⟨t :: s'.tokens, s'.ending⟩) (hkind : t.kind = .operator)
    (htext : t.text = op.symbol) : Taken sc .primary s (.unary op e) rest := by
  obtain ⟨w, rfl, hw⟩ := h
  exact ⟨t :: w, hs, .sign hkind htext hw⟩

theorem Taken.parens {t t' : Token} (h : Taken sc .expression s' e q)
    (hs : s = ⟨t :: s'.tokens, s'.ending⟩) (hq : q = ⟨t' :: rest.tokens, rest.ending⟩)
    (hleft : t.kind = .leftParen) (hright : t'.kind = .rightParen) :
    Taken sc .primary s e rest := by
  obtain ⟨w, rfl, hw⟩ := h
  refine ⟨t :: w ++ [t'], ?_, .parens hleft hw hright⟩
  rw [hs, hq]
  simp only [List.cons_append, List.append_assoc, List.nil_append]

theorem noneLeads_of_first {m : Bool} {t : First TokenStream.size s}
    (h : TokenStream.first s = .ok t) (hnone : t.token.binaryOf? m = none) :
    NoneLeads m s.tokens := by
  intro u hu
  rw [List.head?_eq_getElem?] at hu
  rwa [← TokenRow.token_of_first h hu]

/-- What is read is a piece of the grammar, and no operator that would prolong it follows. -/
theorem taken_of_expressions :
    (∀ (s : TokenRow) p, primary sc.resolve s = .ok p → Taken sc .primary s p.value p.rest) ∧
    (∀ (s : TokenRow) p, additive sc.resolve s = .ok p → Taken sc .expression s p.value p.rest ∧
      NoneLeads true p.rest.tokens ∧ NoneLeads false p.rest.tokens) ∧
    (∀ left (s : TokenRow) p, NoneLeads true s.tokens → terms sc.resolve left s = .ok p →
      Prolongs sc .expression left s p.value p.rest ∧
        NoneLeads true p.rest.tokens ∧ NoneLeads false p.rest.tokens) ∧
    (∀ (s : TokenRow) p, multiplicative sc.resolve s = .ok p → Taken sc .term s p.value p.rest ∧
      NoneLeads true p.rest.tokens) ∧
    (∀ left (s : TokenRow) p, factors sc.resolve left s = .ok p →
      Prolongs sc .term left s p.value p.rest ∧ NoneLeads true p.rest.tokens) := by
  apply primary.mutual_induct
  · intro s ihSign ihParen p h
    rw [primary] at h
    obtain ⟨t, ht, h⟩ := exists_of_bind_eq_ok h
    have hs := fun hk => TokenRow.eq_of_first ht hk
    split at h
    · rename_i hk
      have hs := hs (by rw [hk]; decide)
      split at h
      · rename_i op hop
        obtain ⟨e, he, h⟩ := exists_of_bind_eq_ok h
        cases h
        exact (ihSign t hk e he).sign hs hk (UnaryOp.ofSymbol?_eq_some.mp hop)
      · cases h
    · rename_i hk
      have hs := hs (by rw [hk]; decide)
      obtain ⟨e, he, h⟩ := exists_of_bind_eq_ok h
      obtain ⟨close, hclose, h⟩ := exists_of_bind_eq_ok h
      split at h
      · rename_i hright
        cases h
        have hrest := TokenRow.eq_of_first hclose (by rw [hright]; decide)
        exact (ihParen t hk e he).1.parens hs hrest hk hright
      · cases h
    · rename_i hk
      split at h
      · rename_i e hvalue
        cases h
        exact taken_cons (hs (by rw [hk]; decide)) (.number hk hvalue)
      · cases h
    · rename_i hk
      cases h
      exact taken_cons (hs (by rw [hk]; decide)) (.string hk)
    · rename_i hk
      cases h
      exact taken_cons (hs (by rw [hk]; decide)) (.name hk (sc.denotes_resolve _))
    · cases h
  · intro s ihTerm ihRest p h
    rw [additive] at h
    obtain ⟨left, hleft, h⟩ := exists_of_bind_eq_ok h
    obtain ⟨e, he, h⟩ := exists_of_bind_eq_ok h
    cases h
    obtain ⟨htaken, hnone⟩ := ihTerm left hleft
    obtain ⟨hmore, hends⟩ := ihRest left e hnone he
    exact ⟨htaken.prolong (fun _ => .term) hmore, hends⟩
  · intro left s ihTerm ihRest p hnone h
    rw [terms] at h
    obtain ⟨t, ht, h⟩ := exists_of_bind_eq_ok h
    split at h
    · rename_i op hop
      obtain ⟨right, hright, h⟩ := exists_of_bind_eq_ok h
      obtain ⟨e, he, h⟩ := exists_of_bind_eq_ok h
      cases h
      obtain ⟨htaken, hnone⟩ := ihTerm t op hop right hright
      obtain ⟨hmore, hends⟩ := ihRest t op hop right e hnone he
      obtain ⟨hk, htext, hrank⟩ := binaryOf?_eq_some.mp hop
      have hop : op = .add ∨ op = .sub := by cases op <;> simp_all [BinaryOp.isMultiplicative]
      have hs := TokenRow.eq_of_first ht (by rw [hk]; decide)
      refine ⟨.operand hs htaken (fun w w' hw hw' => ?_) hmore, hends⟩
      exact .sum hw hk htext hop hw'
    · rename_i hstop
      cases h
      dsimp only
      rw [TokenRow.here_of_first ht]
      exact ⟨prolongs_refl sc _ left s, hnone, noneLeads_of_first ht hstop⟩
  · intro s ihFactor ihRest p h
    rw [multiplicative] at h
    obtain ⟨left, hleft, h⟩ := exists_of_bind_eq_ok h
    obtain ⟨e, he, h⟩ := exists_of_bind_eq_ok h
    cases h
    obtain ⟨hmore, hends⟩ := ihRest left e he
    exact ⟨(ihFactor left hleft).prolong (fun _ => .primary) hmore, hends⟩
  · intro left s ihFactor ihRest p h
    rw [factors] at h
    obtain ⟨t, ht, h⟩ := exists_of_bind_eq_ok h
    split at h
    · rename_i op hop
      obtain ⟨right, hright, h⟩ := exists_of_bind_eq_ok h
      obtain ⟨e, he, h⟩ := exists_of_bind_eq_ok h
      cases h
      have htaken := ihFactor t op hop right hright
      obtain ⟨hmore, hends⟩ := ihRest t op hop right e he
      obtain ⟨hk, htext, hrank⟩ := binaryOf?_eq_some.mp hop
      have hop : op = .mul ∨ op = .div ∨ op = .mod := by
        cases op <;> simp_all [BinaryOp.isMultiplicative]
      have hs := TokenRow.eq_of_first ht (by rw [hk]; decide)
      refine ⟨.operand hs htaken (fun w w' hw hw' => ?_) hmore, hends⟩
      exact .product hw hk htext hop hw'
    · rename_i hstop
      cases h
      dsimp only
      rw [TokenRow.here_of_first ht]
      exact ⟨prolongs_refl sc _ left s, noneLeads_of_first ht hstop⟩

end Soundness

section Completeness
variable {m : EndMarker} {resolve : String → Expr} {left e v : Expr} {q r : TokenRow}
  {ts : List Token} {t : Token} {op : BinaryOp}

/-- There is always a token to look at, and it is an operator only if one is in front. -/
theorem exists_first (m : EndMarker) (ts : List Token) :
    ∃ t : First TokenStream.size (TokenRow.mk ts (.ok m)),
      TokenStream.first (TokenRow.mk ts (.ok m)) = .ok t ∧ t.here = ⟨ts, .ok m⟩ ∧
        ∀ rank, NoneLeads rank ts → t.token.binaryOf? rank = none := by
  cases ts with
  | nil =>
    refine ⟨_, rfl, rfl, fun rank _ => ?_⟩
    cases hop : Token.binaryOf? rank m.1 with
    | none => rfl
    | some op => exact absurd m.2 (Token.ne_eof_of_binaryOf? hop)
  | cons t ts => exact ⟨_, rfl, rfl, fun rank hnone => hnone t rfl⟩

theorem binaryOf?_eq_none {rank : Bool} (h : t.binaryOf? rank = some op) :
    t.binaryOf? (!rank) = none := by
  unfold Token.binaryOf? at h ⊢
  obtain ⟨hop, hrank⟩ := Option.filter_eq_some_iff.mp h
  rw [hop]
  cases rank <;> simp_all

/-- What is an operand of the operators of a rank. -/
def operand : Bool → (String → Expr) → (s : TokenRow) → Except SyntaxError (Parsed Expr s)
  | true => primary
  | false => multiplicative

/-- The operands behind the first one, for the operators of a rank. -/
def operands :
    Bool → (String → Expr) → Expr → (s : TokenRow) → Except SyntaxError (Reached Expr s)
  | true => factors
  | false => terms

/-- Operands are read in the same way at both ranks. -/
theorem operands_eq (rank : Bool) (resolve : String → Expr) (left : Expr) (s : TokenRow) :
    operands rank resolve left s = do
      let t ← TokenStream.first s
      match h : t.token.binaryOf? rank with
      | some op => do
        let right ← operand rank resolve t.after
        let e ← operands rank resolve (.binary op left right.value) right.rest
        return ⟨e.value, e.rest, Nat.le_trans e.le (Nat.le_of_lt (Nat.lt_trans right.lt
          (t.after_lt (Token.ne_eof_of_binaryOf? h))))⟩
      | none => return ⟨left, t.here, t.here_le⟩ := by
  cases rank
  · exact terms.eq_1 resolve left s
  · exact factors.eq_1 resolve left s

theorem operands_stop {rank : Bool} (left : Expr) (hnone : NoneLeads rank ts) :
    ∃ le, operands rank resolve left (TokenRow.mk ts (.ok m)) = .ok ⟨left, ⟨ts, .ok m⟩, le⟩ := by
  obtain ⟨⟨t, here, after, h1, h2, h3⟩, hfirst, rfl, hlead⟩ := exists_first m ts
  have hstop := hlead rank hnone
  rw [operands_eq, hfirst]
  simp only [ok_bind]
  split
  · rename_i op hop
    rw [hop] at hstop
    cases hstop
  · exact ⟨h1, rfl⟩

theorem operands_cons {rank : Bool} (hop : t.binaryOf? rank = some op)
    (hright : ∃ lt, operand rank resolve (TokenRow.mk ts (.ok m)) = .ok ⟨e, q, lt⟩)
    (hmore : ∃ le, operands rank resolve (.binary op left e) q = .ok ⟨v, r, le⟩) :
    ∃ le, operands rank resolve left (TokenRow.mk (t :: ts) (.ok m)) = .ok ⟨v, r, le⟩ := by
  obtain ⟨lt, hright⟩ := hright
  obtain ⟨le, hmore⟩ := hmore
  rw [operands_eq, TokenRow.first_cons]
  simp only [ok_bind]
  split
  · rename_i op' hop'
    rw [hop] at hop'
    cases hop'
    simp only [hright, ok_bind, hmore]
    exact ⟨Nat.le_trans le (Nat.le_of_lt (Nat.lt_succ_of_lt lt)), rfl⟩
  · rename_i hnone
    rw [hop] at hnone
    cases hnone

/-- How a piece is read off a row, whatever follows. A primary is read and that is all. Behind a
term or an expression the reader goes on with its tree, so these are read up to there. -/
def IsRead (sc : Scopes) : Category → List Token → Expr → Prop
  | .primary, w, e => ∀ (m : EndMarker) ts,
    ∃ lt, primary sc.resolve (TokenRow.mk (w ++ ts) (.ok m)) = .ok ⟨e, ⟨ts, .ok m⟩, lt⟩
  | .term, w, e => ∀ (m : EndMarker) ts v r,
    (∃ le, operands true sc.resolve e (TokenRow.mk ts (.ok m)) = .ok ⟨v, r, le⟩) →
      ∃ lt, multiplicative sc.resolve (TokenRow.mk (w ++ ts) (.ok m)) = .ok ⟨v, r, lt⟩
  | .expression, w, e => ∀ (m : EndMarker) ts v r, NoneLeads true ts →
    (∃ le, operands false sc.resolve e (TokenRow.mk ts (.ok m)) = .ok ⟨v, r, le⟩) →
      ∃ lt, additive sc.resolve (TokenRow.mk (w ++ ts) (.ok m)) = .ok ⟨v, r, lt⟩

theorem IsRead.multiplicative {w : List Token} (h : IsRead sc .term w e) (m : EndMarker)
    (hnone : NoneLeads true ts) : ∃ lt,
      multiplicative sc.resolve (TokenRow.mk (w ++ ts) (.ok m)) = .ok ⟨e, ⟨ts, .ok m⟩, lt⟩ :=
  h m ts e _ (operands_stop e hnone)

theorem IsRead.additive {w : List Token} (h : IsRead sc .expression w e) (m : EndMarker)
    (hproduct : NoneLeads true ts) (hsum : NoneLeads false ts) : ∃ lt,
      additive sc.resolve (TokenRow.mk (w ++ ts) (.ok m)) = .ok ⟨e, ⟨ts, .ok m⟩, lt⟩ :=
  h m ts e _ hproduct (operands_stop e hsum)

/-- Every piece of the grammar is read. -/
theorem Derives.isRead {c : Category} {w : List Token} (h : Derives sc c w e) : IsRead sc c w e := by
  induction h with
  | @term w e _ ih =>
    rintro m ts v r hnone ⟨le, hmore⟩
    obtain ⟨lt, hterm⟩ := ih.multiplicative m hnone
    have hmore : terms sc.resolve e _ = _ := hmore
    rw [Grammar.additive]
    simp only [hterm, ok_bind, hmore]
    exact ⟨Nat.lt_of_le_of_lt le lt, rfl⟩
  | @sum w w' t op l right _ hkind htext hop _ ihLeft ihRight =>
    intro m ts v r hnone hmore
    have hsum : t.binaryOf? false = some op := by
      refine binaryOf?_eq_some.mpr ⟨hkind, htext, ?_⟩
      rcases hop with rfl | rfl <;> rfl
    rw [List.append_assoc]
    refine ihLeft m _ v r (noneLeads_cons (binaryOf?_eq_none hsum)) ?_
    exact operands_cons hsum (ihRight.multiplicative m hnone) hmore
  | @primary w e _ ih =>
    rintro m ts v r ⟨le, hmore⟩
    obtain ⟨lt, hprimary⟩ := ih m ts
    have hmore : factors sc.resolve e _ = _ := hmore
    rw [Grammar.multiplicative]
    simp only [hprimary, ok_bind, hmore]
    exact ⟨Nat.lt_of_le_of_lt le lt, rfl⟩
  | @product w w' t op l right _ hkind htext hop _ ihLeft ihRight =>
    intro m ts v r hmore
    have hproduct : t.binaryOf? true = some op := by
      refine binaryOf?_eq_some.mpr ⟨hkind, htext, ?_⟩
      rcases hop with rfl | rfl | rfl <;> rfl
    rw [List.append_assoc]
    exact ihLeft m _ v r (operands_cons hproduct (ihRight m ts) hmore)
  | @sign w t op e hkind htext _ ih =>
    intro m ts
    obtain ⟨lt, hprimary⟩ := ih m ts
    obtain ⟨kind, text, line⟩ := t
    cases hkind
    have hop := UnaryOp.ofSymbol?_eq_some.mpr htext
    rw [List.cons_append, Grammar.primary, TokenRow.first_cons]
    simp only [ok_bind, hop, hprimary]
    exact ⟨Nat.lt_succ_of_lt lt, rfl⟩
  | @parens w left right e hleft _ hright ih =>
    intro m ts
    have hnone : ∀ rank, NoneLeads rank (right :: ts) := by
      intro rank
      refine noneLeads_cons ?_
      simp [Token.binaryOf?, Token.binaryOp?, hright]
    obtain ⟨lt, hadditive⟩ := ih.additive m (hnone true) (hnone false)
    obtain ⟨kind, text, line⟩ := left
    cases hleft
    rw [List.cons_append, List.cons_append, List.append_assoc, List.singleton_append,
      Grammar.primary, TokenRow.first_cons]
    simp only [ok_bind, hadditive, TokenRow.first_cons, if_pos hright]
    exact ⟨Nat.lt_succ_of_lt (Nat.lt_of_succ_lt lt), rfl⟩
  | @number t e hkind hvalue =>
    intro m ts
    obtain ⟨kind, text, line⟩ := t
    cases hkind
    rw [List.singleton_append, Grammar.primary, TokenRow.first_cons]
    simp only [ok_bind, hvalue]
    exact ⟨Nat.lt_succ_self _, rfl⟩
  | @string t hkind =>
    intro m ts
    obtain ⟨kind, text, line⟩ := t
    cases hkind
    rw [List.singleton_append, Grammar.primary, TokenRow.first_cons]
    exact ⟨Nat.lt_succ_self _, rfl⟩
  | @name t e hkind hvalue =>
    intro m ts
    obtain ⟨kind, text, line⟩ := t
    cases hkind
    rw [List.singleton_append, Grammar.primary, TokenRow.first_cons, ← hvalue.resolve_eq]
    exact ⟨Nat.lt_succ_self _, rfl⟩

end Completeness

/-- Reading an expression off a row succeeds exactly on the grammar's expressions. -/
theorem readsExpr_iff {m : EndMarker} {ts rest : List Token} {e : Expr} :
    ReadsExpr (.ok m) sc.resolve ts e rest ↔
      ∃ w, ts = w ++ rest ∧ Derives sc .expression w e ∧
        NoneLeads true rest ∧ NoneLeads false rest := by
  constructor
  · rintro ⟨lt, h⟩
    obtain ⟨⟨w, hw, hderives⟩, hnone⟩ := taken_of_expressions.2.1 _ _ h
    exact ⟨w, congrArg TokenRow.tokens hw, hderives, hnone⟩
  · rintro ⟨w, rfl, hderives, hproduct, hsum⟩
    exact hderives.isRead.additive m hproduct hsum

/-- Reading an expression off a stream that has the given tokens left, in its buffer or still in its
source, succeeds with a tree and leaves the rest exactly if the tokens in front of the rest are an
expression with this tree and no operator follows them. -/
theorem expression_eq_ok_iff {σ : Type} [FiniteSource σ] (sc : Scopes) (b : Lookahead σ)
    (m : EndMarker) (tokens : List Token) (hshows : b.Shows ⟨tokens, .ok m⟩)
    (hcapacity : 0 < b.capacity) (hbatch : 0 < b.batch) (e : Expr) (rest : List Token) :
    (∃ p, expression sc.resolve b = .ok p ∧ p.value = e ∧ p.rest.Shows ⟨rest, .ok m⟩) ↔
      ∃ w, tokens = w ++ rest ∧ Derives sc .expression w e ∧
        ∀ t ∈ rest.head?, t.kind = .operator → t.text ∉ ["+", "-", "*", "/", "%"] := by
  have htracks : Lookahead.TracksBy b.batch b.capacity (.ok m) b ⟨tokens, .ok m⟩ :=
    ⟨⟨hshows, rfl, hcapacity, hbatch, rfl⟩, rfl⟩
  have hfollows := (Lookahead.frontSimulation_tracksBy _ _ _).expression sc.resolve htracks
  rw [← noneLeads_iff, ← readsExpr_iff]
  constructor
  · rintro ⟨p, hp, rfl, hrest⟩
    obtain ⟨⟨value, row, lt⟩, hrow, hsame, htracks⟩ := hfollows.exists_ok hp
    dsimp only at hsame htracks
    obtain rfl := htracks.shows.unique hrest
    rw [hsame]
    exact ⟨lt, hrow⟩
  · rintro ⟨lt, hrow⟩
    have hearly : ∀ e, ¬Lookahead.EarlyEnd b.batch (.ok m) e := by
      rintro e ⟨-, cause, hcause, -⟩
      cases hcause
    obtain ⟨p, hp, hsame, htracks⟩ := hfollows.exists_ok_of_ok hearly hrow
    exact ⟨p, hp, hsame, htracks.shows⟩

/-- A sign in front of parentheses, and a constant of an outer scope that hides a variable, read
through a buffer for one token. -/
theorem expression_eq_ok_iff_product :
    let sc : Scopes :=
      ⟨{ Registries.empty with vars := (∅ : NameTable Variable).insert "x" ⟨3⟩ }, .empty,
        [Script.empty.declareConstant "x" (.integer 5)]⟩
    let w : List Token :=
      [⟨.operator, "-", 1⟩, ⟨.leftParen, "(", 1⟩, ⟨.number, "1", 1⟩, ⟨.operator, "+", 1⟩,
        ⟨.ident, "x", 1⟩, ⟨.rightParen, ")", 1⟩, ⟨.operator, "*", 1⟩, ⟨.number, "2", 1⟩]
    let rest : List Token := [⟨.comma, ",", 1⟩, ⟨.ident, "y", 1⟩]
    let b := Lookahead.ofSource (Replay.mk ((w ++ rest).map .ok) 1) ⟨3, 1⟩
    b.Shows ⟨w ++ rest, .ok ⟨⟨.eof, "", 1⟩, rfl⟩⟩ ∧
      ∃ p, expression sc.resolve b = .ok p ∧
        p.value = .binary .mul (.unary .minus (.binary .add (.integer 1) (.integer 5)))
          (.integer 2) ∧
        p.rest.Shows ⟨rest, .ok ⟨⟨.eof, "", 1⟩, rfl⟩⟩ := by
  intro sc w rest b
  have hshows : b.Shows ⟨w ++ rest, .ok ⟨⟨.eof, "", 1⟩, rfl⟩⟩ :=
    (Replay.ofSource_eq (w ++ rest) 1).symm
  have hscopes : sc.all = [.empty] ++ Script.empty.declareConstant "x" (.integer 5) :: [] := rfl
  have hname : sc.Denotes "x" (.integer 5) := .constant hscopes rfl (by simp [Script.empty])
  have hsum : Derives sc .expression ([⟨.number, "1", 1⟩] ++ ⟨.operator, "+", 1⟩ ::
      [⟨.ident, "x", 1⟩]) (.binary .add (.integer 1) (.integer 5)) :=
    .sum (.term (.primary (.number rfl rfl))) rfl rfl (.inl rfl) (.primary (.name rfl hname))
  have hsign : Derives sc .primary (⟨.operator, "-", 1⟩ :: (⟨.leftParen, "(", 1⟩ ::
      ([⟨.number, "1", 1⟩] ++ ⟨.operator, "+", 1⟩ :: [⟨.ident, "x", 1⟩]) ++
        [⟨.rightParen, ")", 1⟩])) (.unary .minus (.binary .add (.integer 1) (.integer 5))) :=
    .sign rfl rfl (.parens rfl hsum rfl)
  have hproduct := Derives.product (t := ⟨.operator, "*", 1⟩) (.primary hsign) rfl rfl (.inl rfl)
    (.number (t := ⟨.number, "2", 1⟩) rfl rfl)
  refine ⟨hshows, (expression_eq_ok_iff sc b _ _ hshows (by decide) (by decide) _ _).mpr ?_⟩
  exact ⟨w, rfl, .term hproduct, by decide⟩

end Grammar

end CommandScript
