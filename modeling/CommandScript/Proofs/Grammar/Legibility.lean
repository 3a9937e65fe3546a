import CommandScript.Proofs.Decimal.Digits
import CommandScript.Proofs.Grammar.ExpressionReader
import CommandScript.Proofs.Streams.Independence
import CommandScript.Proofs.Tokens.Rendering
import Mathlib
/-! # Trees that can be read back

The text of a tree is a primary of the grammar: signs stand in front of what they belong to, and
every binary operation is in parentheses, so neither rank nor grouping of the operators matters.
What has to be seen is that the text falls apart into the right tokens. Only leaves are words or
numbers, and behind a leaf stands a blank, a parenthesis or the end, which none of them goes on
with. So the text of a tree is read as the tree, and to its end, if each leaf has a text of its own:
integers without a sign, strings without quotes and backslashes, and labels that are names and stand
for nothing else.
-/
namespace CommandScript

/-- A tree whose leaves can be told from their texts in the given scopes. -/
inductive Expr.Legible (sc : Scopes) : Expr → Prop
  | integer {n : Int32} (h : 0 ≤ n.toInt) : Legible sc (.integer n)
  | string {s : String} (hquote : '"' ∉ s.toList) (hslash : '\\' ∉ s.toList) :
    Legible sc (.string s)
  | label {name : String} (hword : Lexical.Word name.toList)
    (hkey : ∀ k ∈ Lexical.keywords, name.toList ≠ k.2)
    (hconstant : ∀ s ∈ sc.all, s.constants.get? name = none)
    (hidentifier : sc.names.identifiers.get? name = none) (hvar : sc.names.vars.get? name = none)
    (hflag : sc.names.flags.get? name = none) : Legible sc (.label name)
  | unary {op : UnaryOp} {e : Expr} (h : Legible sc e) : Legible sc (.unary op e)
  | binary {op : BinaryOp} {l r : Expr} (hl : Legible sc l) (hr : Legible sc r) :
    Legible sc (.binary op l r)

namespace TokenRow

/-- A row with some more tokens in front. -/
def behind (w : List Token) (r : TokenRow) : TokenRow := ⟨w ++ r.tokens, r.ending⟩

theorem behind_append (w w' : List Token) (r : TokenRow) :
    behind (w ++ w') r = behind w (behind w' r) := by
  simp only [behind, List.append_assoc]

theorem ofSource_congr {a b : Lexer} (h : a.next = b.next) : ofSource a = ofSource b := by
  rcases hnext : b.next with ⟨e | t, rest⟩
  · have herror : TokenSource.next a = (.error e, rest) := h.trans hnext
    rw [ofSource_of_error herror, ofSource_of_error (show TokenSource.next b = _ from hnext)]
  · have hok : TokenSource.next a = (.ok t, rest) := h.trans hnext
    rw [ofSource_of_ok hok, ofSource_of_ok (show TokenSource.next b = _ from hnext)]

end TokenRow

namespace Lexical

/-- A text that is cut into tokens of some kind, in front of all that breaks words and numbers. -/
def CutInto (P : List Token → Prop) (cs : List Char) : Prop :=
  ∀ tail line, Breaks tail → ∃ w line',
    TokenRow.ofSource (Lexer.mk (cs ++ tail) line) =
      .behind w (TokenRow.ofSource (Lexer.mk tail line')) ∧ P w

theorem row_of_longest {kind : TokenKind} {text : String} {raw tail : List Char}
    (h : Spells kind text.toList raw) (hlongest : Longest kind raw tail) (line : Nat) :
    ∃ line', TokenRow.ofSource (Lexer.mk (raw ++ tail) line) =
      .behind [⟨kind, text, line⟩] (TokenRow.ofSource (Lexer.mk tail line')) := by
  have hnext := Lexer.next_of_longest h hlongest line
  rw [String.ofList_toList] at hnext
  refine ⟨line + text.toList.count '\n', ?_⟩
  rw [TokenRow.ofSource_of_ok hnext, dif_neg h.ne_eof]
  rfl

/-- One mark is a token of its own, whatever follows. -/
theorem row_of_mark {kind : TokenKind} {c : Char} (h : (kind, c) ∈ marks) (tail : List Char)
    (line : Nat) : ∃ line', TokenRow.ofSource (Lexer.mk (c :: tail) line) =
      .behind [⟨kind, String.ofList [c], line⟩] (TokenRow.ofSource (Lexer.mk tail line')) := by
  have hspells : Spells kind (String.ofList [c]).toList [c] := by
    rw [String.toList_ofList]
    exact .mark h
  exact row_of_longest hspells (longest_of_mark h) line

theorem row_of_blank (tail : List Char) (line : Nat) :
    TokenRow.ofSource (Lexer.mk (' ' :: tail) line) = TokenRow.ofSource (Lexer.mk tail line) := by
  have hblank : ∀ c ∈ [' '], c ∈ [' ', '\t', '\r'] := by simp
  exact TokenRow.ofSource_congr (Lexer.next_blank_append hblank tail line)

theorem row_nil (line : Nat) :
    TokenRow.ofSource (Lexer.mk [] line) = ⟨[], .ok ⟨⟨.eof, "", line⟩, rfl⟩⟩ := by
  have hnext : TokenSource.next (Lexer.mk [] line) =
    (.ok ⟨.eof, "", line⟩, Lexer.mk [] line) := rfl
  rw [TokenRow.ofSource_of_ok hnext, dif_pos rfl]

theorem cutInto_of_spells {P : List Token → Prop} {kind : TokenKind} {text : String}
    {raw : List Char} (h : Spells kind text.toList raw) (hP : ∀ line, P [⟨kind, text, line⟩]) :
    CutInto P raw := by
  intro tail line htail
  obtain ⟨line', hrow⟩ := row_of_longest h ((longest_nil kind raw).append htail) line
  exact ⟨_, line', hrow, hP line⟩

theorem breaks_cons {c : Char} (h : ¬WordChar c ∧ c ≠ '.') (tail : List Char) :
    Breaks (c :: tail) := by
  intro d hd
  cases hd
  exact h

/-- A text without quotes and backslashes stands for itself between quotes. -/
theorem quoted_of_plain {cs : List Char} (hquote : '"' ∉ cs) (hslash : '\\' ∉ cs) :
    Quoted cs cs := by
  induction cs with
  | nil => exact .nil
  | cons c cs ih =>
    simp only [List.mem_cons, not_or] at hquote hslash
    exact .plain (Ne.symm hquote.1) (Ne.symm hslash.1) (ih hquote.2 hslash.2)

end Lexical

theorem UnaryOp.exists_mark (op : UnaryOp) :
    ∃ c, (TokenKind.operator, c) ∈ Lexical.marks ∧ op.symbol = String.ofList [c] := by
  cases op
  · exact ⟨'+', by decide, rfl⟩
  · exact ⟨'-', by decide, rfl⟩

theorem BinaryOp.exists_mark (op : BinaryOp) :
    ∃ c, (TokenKind.operator, c) ∈ Lexical.marks ∧ op.symbol = String.ofList [c] := by
  cases op
  · exact ⟨'+', by decide, rfl⟩
  · exact ⟨'-', by decide, rfl⟩
  · exact ⟨'*', by decide, rfl⟩
  · exact ⟨'/', by decide, rfl⟩
  · exact ⟨'%', by decide, rfl⟩

namespace Grammar
open Lexical
variable {sc : Scopes} {e : Expr}

/-- An operation with two primaries, of either rank. -/
theorem Derives.operation {w w' : List Token} {t : Token} {op : BinaryOp} {l r : Expr}
    (hleft : Derives sc .primary w l) (hkind : t.kind = .operator) (htext : t.text = op.symbol)
    (hright : Derives sc .primary w' r) :
    Derives sc .expression (w ++ t :: w') (.binary op l r) := by
  cases op with
  | add => exact .sum (.term (.primary hleft)) hkind htext (.inl rfl) (.primary hright)
  | sub => exact .sum (.term (.primary hleft)) hkind htext (.inr rfl) (.primary hright)
  | mul => exact .term (.product (.primary hleft) hkind htext (.inl rfl) hright)
  | div => exact .term (.product (.primary hleft) hkind htext (.inr (.inl rfl)) hright)
  | mod => exact .term (.product (.primary hleft) hkind htext (.inr (.inr rfl)) hright)

theorem cutInto_integer {n : Int32} (h : 0 ≤ n.toInt) :
    CutInto (Derives sc .primary · (.integer n)) (Expr.text (.integer n)).toList := by
  obtain ⟨k, hk⟩ := Int.eq_ofNat_of_zero_le h
  have htext : (toString n.toInt).toList = Nat.toDigits 10 k := by
    rw [hk]
    exact Nat.toList_repr
  have hdigits : ∀ c ∈ (toString n.toInt).toList, c.isDigit = true := by
    rw [htext]
    exact fun _ => Decimal.isDigit_of_mem_toDigits
  have hne : (toString n.toInt).toList ≠ [] := by
    rw [htext]
    exact Nat.toDigits_ne_nil
  have hspells : Spells .number (toString n.toInt).toList (toString n.toInt).toList :=
    .number (.whole hne (fun c hc => isDigit_iff.mp (hdigits c hc)))
  refine cutInto_of_spells hspells (fun line => .number rfl ?_)
  rw [Expr.ofNumber?_of_digits hdigits, Decimal.readInt?_toString, Option.bind_some,
    Expr.int32?_toInt, Option.map_some]

theorem cutInto_string {s : String} (hquote : '"' ∉ s.toList) (hslash : '\\' ∉ s.toList) :
    CutInto (Derives sc .primary · (.string s)) (Expr.text (.string s)).toList := by
  have htext : (Expr.text (.string s)).toList = '"' :: s.toList ++ ['"'] := by
    simp [Expr.text]
  rw [htext]
  exact cutInto_of_spells (.string (quoted_of_plain hquote hslash)) (fun line => .string rfl)

theorem cutInto_unary (op : UnaryOp) (h : CutInto (Derives sc .primary · e) e.text.toList) :
    CutInto (Derives sc .primary · (.unary op e)) (Expr.text (.unary op e)).toList := by
  intro tail line htail
  obtain ⟨c, hmark, hsymbol⟩ := op.exists_mark
  have htext : (Expr.text (.unary op e)).toList ++ tail = c :: (e.text.toList ++ tail) := by
    simp [Expr.text, hsymbol]
  obtain ⟨line₁, hsign⟩ := row_of_mark hmark (e.text.toList ++ tail) line
  obtain ⟨w, line₂, hrow, hw⟩ := h tail line₁ htail
  refine ⟨⟨.operator, String.ofList [c], line⟩ :: w, line₂, ?_, .sign rfl hsymbol.symm hw⟩
  rw [htext, hsign, hrow, ← TokenRow.behind_append, List.singleton_append]

theorem cutInto_binary (op : BinaryOp) {l r : Expr}
    (hl : CutInto (Derives sc .primary · l) l.text.toList)
    (hr : CutInto (Derives sc .primary · r) r.text.toList) :
    CutInto (Derives sc .primary · (.binary op l r)) (Expr.text (.binary op l r)).toList := by
  intro tail line _
  obtain ⟨c, hmark, hsymbol⟩ := op.exists_mark
  have htext : (Expr.text (.binary op l r)).toList ++ tail =
      '(' :: (l.text.toList ++ ' ' :: c :: ' ' :: (r.text.toList ++ ')' :: tail)) := by
    simp [Expr.text, hsymbol]
  have hopens : (TokenKind.leftParen, '(') ∈ marks := by decide
  have hcloses : (TokenKind.rightParen, ')') ∈ marks := by decide
  -- Both operands stand in front of a character that no word and no number has.
  have hblank := breaks_cons (c := ' ') (by decide) (c :: ' ' :: (r.text.toList ++ ')' :: tail))
  have hclose := breaks_cons (c := ')') (by decide) tail
  obtain ⟨line₁, hopen⟩ := row_of_mark hopens _ line
  obtain ⟨w, line₂, hleft, hw⟩ := hl _ line₁ hblank
  obtain ⟨line₃, hsign⟩ := row_of_mark hmark (' ' :: (r.text.toList ++ ')' :: tail)) line₂
  obtain ⟨w', line₄, hright, hw'⟩ := hr _ line₃ hclose
  obtain ⟨line₅, hlast⟩ := row_of_mark hcloses tail line₄
  have hinside := hw.operation (t := ⟨.operator, String.ofList [c], line₂⟩) rfl hsymbol.symm hw'
  have hparens := @Derives.parens sc _ ⟨.leftParen, String.ofList ['('], line⟩
    ⟨.rightParen, String.ofList [')'], line₄⟩ _ rfl hinside rfl
  refine ⟨_, line₅, ?_, hparens⟩
  rw [htext, hopen, hleft, row_of_blank, hsign, row_of_blank, hright, hlast]
  simp only [TokenRow.behind, List.append_assoc, List.cons_append, List.nil_append]

/-- The text of a tree is cut into the tokens of a primary with this tree. -/
theorem cutInto_text (h : e.Legible sc) : CutInto (Derives sc .primary · e) e.text.toList := by
  induction h with
  | integer h => exact cutInto_integer h
  | string hquote hslash => exact cutInto_string hquote hslash
  | label hword hkey hconstant hidentifier hvar hflag =>
    exact cutInto_of_spells (.ident hword hkey)
      (fun line => .name rfl (.label hconstant hidentifier hvar hflag))
  | @unary op e _ ih => exact cutInto_unary op ih
  | @binary op l r _ _ ihl ihr => exact cutInto_binary op ihl ihr

/-- What is read off the row of a source is read through any buffer in front of the source. -/
theorem expression_of_row {σ : Type} [FiniteSource σ] {source : σ} {m : EndMarker}
    {w rest : List Token} (config : LookaheadConfig)
    (hrow : TokenRow.ofSource source = ⟨w, .ok m⟩) (h : ReadsExpr (.ok m) sc.resolve w e rest) :
    ∃ p, expression sc.resolve (Lookahead.ofSource source config) = .ok p ∧ p.value = e ∧
      p.rest.Shows ⟨rest, .ok m⟩ := by
  have htracks := Lookahead.tracksBy_ofSource source config
  rw [hrow] at htracks
  have hfollows := (Lookahead.frontSimulation_tracksBy _ _ _).expression sc.resolve htracks
  have hearly : ∀ e, ¬Lookahead.EarlyEnd (max config.batch 1) (.ok m) e := by
    rintro e ⟨-, cause, hcause, -⟩
    cases hcause
  obtain ⟨lt, hread⟩ := h
  obtain ⟨p, hp, hsame, htracks⟩ := hfollows.exists_ok_of_ok hearly hread
  exact ⟨p, hp, hsame, htracks.shows⟩

/-- The text of a tree can be cut up, and reading an expression off it, through a buffer of any
size, gives the tree and leaves nothing but the end of the input. -/
theorem expression_text (sc : Scopes) (config : LookaheadConfig) (e : Expr) (h : e.Legible sc) :
    ∃ (tokens : List Token) (m : EndMarker),
      (Lexer.ofString e.text).tokenize = .ok (tokens ++ [m.1]) ∧
        ∃ p, expression sc.resolve (Lookahead.ofSource (Lexer.ofString e.text) config) = .ok p ∧
          p.value = e ∧ p.rest.Shows ⟨[], .ok m⟩ := by
  have hnone : Breaks [] := by simp [Breaks]
  obtain ⟨w, line, hrow, hw⟩ := cutInto_text h [] 1 hnone
  have hall : TokenRow.ofSource (Lexer.ofString e.text) = ⟨w, .ok ⟨⟨.eof, "", line⟩, rfl⟩⟩ := by
    rw [List.append_nil, row_nil] at hrow
    simpa only [TokenRow.behind, List.append_nil, Lexer.ofString] using hrow
  have hleads : ∀ rank, NoneLeads rank [] := by simp [NoneLeads]
  have hread : ReadsExpr (.ok ⟨⟨.eof, "", line⟩, rfl⟩) sc.resolve w e [] := readsExpr_iff.mpr
    ⟨w, (List.append_nil w).symm, .term (.primary hw), hleads true, hleads false⟩
  refine ⟨w, _, ?_, expression_of_row config hall hread⟩
  rw [Lexer.tokenize_eq_row, hall]
  rfl

/-- Stacked signs, an operation inside another, and a string with a comment sign and a newline. -/
theorem expression_text_nested :
    let sc : Scopes := .outermost { Registries.empty with vars := (∅ : NameTable _).insert "hp" ⟨1⟩ }
    let e : Expr :=
      .binary .mul (.unary .minus (.unary .plus (.integer 30)))
        (.binary .sub (.label "end_1") (.string "# a\n"))
    e.Legible sc ∧ e.text = "(-+30 * (end_1 - \"# a\n\"))" ∧
      ∃ (tokens : List Token) (m : EndMarker),
        (Lexer.ofString e.text).tokenize = .ok (tokens ++ [m.1]) ∧
          ∃ p, expression sc.resolve (Lookahead.ofSource (Lexer.ofString e.text) ⟨3, 1⟩) = .ok p ∧
            p.value = e ∧ p.rest.Shows ⟨[], .ok m⟩ := by
  intro sc e
  have hlabel : Expr.Legible sc (.label "end_1") := by
    refine .label ?_ (by simp [keywords]) (by simp [sc, Scopes.all, Scopes.outermost, Script.empty])
      rfl ?_ rfl
    · simp only [String.reduceToList]
      exact .intro (by decide) (by simp [WordChar, Letter, Digit])
    · simp [sc, Scopes.outermost]
  have hlegible : e.Legible sc :=
    .binary (.unary (.unary (.integer (by decide)))) (.binary hlabel (.string (by simp) (by simp)))
  exact ⟨hlegible, by cbv, expression_text sc ⟨3, 1⟩ e hlegible⟩

end Grammar

end CommandScript
