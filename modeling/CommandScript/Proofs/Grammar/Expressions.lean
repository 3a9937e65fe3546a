import CommandScript.Parsing.Scopes
import CommandScript.Proofs.Outcome
import CommandScript.Proofs.Streams.Buffering
/-! # The grammar of expressions

An expression is a row of terms with `+` and `-` between them, and a term is a row of primaries with
`*`, `/` and `%` between them; both rows group to the left. A sign in front belongs to one primary,
and parentheses leave no trace in the tree. The grammar is stated over plain lists of tokens. The
reader of expressions accepts exactly this grammar, and stops where no operator follows.
-/
namespace CommandScript

/-- What a name stands for: the constant of the nearest scope that has one, and else an identifier,
a variable or a flag of the host, in this order, and else a label. -/
inductive Scopes.Denotes (sc : Scopes) (name : String) : Expr → Prop
  | constant {nearer farther : List Script} {s : Script} {e : Expr}
    (hscopes : sc.all = nearer ++ s :: farther) (hvalue : s.constants.get? name = some e)
    (hnearer : ∀ s' ∈ nearer, s'.constants.get? name = none) : Denotes sc name e
  | identifier {i : Identifier} (hconstant : ∀ s ∈ sc.all, s.constants.get? name = none)
    (hvalue : sc.names.identifiers.get? name = some i) : Denotes sc name (.identifier i)
  | var {v : Variable} (hconstant : ∀ s ∈ sc.all, s.constants.get? name = none)
    (hidentifier : sc.names.identifiers.get? name = none)
    (hvalue : sc.names.vars.get? name = some v) : Denotes sc name (.var v)
  | flag {f : Flag} (hconstant : ∀ s ∈ sc.all, s.constants.get? name = none)
    (hidentifier : sc.names.identifiers.get? name = none) (hvar : sc.names.vars.get? name = none)
    (hvalue : sc.names.flags.get? name = some f) : Denotes sc name (.flag f)
  | label (hconstant : ∀ s ∈ sc.all, s.constants.get? name = none)
    (hidentifier : sc.names.identifiers.get? name = none) (hvar : sc.names.vars.get? name = none)
    (hflag : sc.names.flags.get? name = none) : Denotes sc name (.label name)

theorem Scopes.denotes_resolve (sc : Scopes) (name : String) : sc.Denotes name (sc.resolve name) := by
  unfold resolve
  cases hconstant : sc.constant? name with
  | some e =>
    obtain ⟨nearer, s, farther, hscopes, hvalue, hnearer⟩ := List.findSome?_eq_some_iff.mp hconstant
    exact .constant hscopes hvalue hnearer
  | none =>
    have hconstant := List.findSome?_eq_none_iff.mp hconstant
    cases hidentifier : sc.names.identifiers.get? name with
    | some i => exact .identifier hconstant hidentifier
    | none =>
      cases hvar : sc.names.vars.get? name with
      | some v => exact .var hconstant hidentifier hvar
      | none =>
        cases hflag : sc.names.flags.get? name with
        | some f => exact .flag hconstant hidentifier hvar hflag
        | none => exact .label hconstant hidentifier hvar hflag

theorem Scopes.Denotes.resolve_eq {sc : Scopes} {name : String} {e : Expr}
    (h : sc.Denotes name e) : sc.resolve name = e := by
  have hnone : (∀ s ∈ sc.all, s.constants.get? name = none) → sc.constant? name = none :=
    List.findSome?_eq_none_iff.mpr
  unfold resolve
  cases h with
  | constant hscopes hvalue hnearer =>
    have hconstant : sc.constant? name = some e :=
      List.findSome?_eq_some_iff.mpr ⟨_, _, _, hscopes, hvalue, hnearer⟩
    rw [hconstant]
  | identifier hconstant hvalue => rw [hnone hconstant, hvalue]
  | var hconstant hidentifier hvalue => rw [hnone hconstant, hidentifier, hvalue]
  | flag hconstant hidentifier hvar hvalue =>
    rw [hnone hconstant, hidentifier, hvar, hvalue]
  | label hconstant hidentifier hvar hflag =>
    rw [hnone hconstant, hidentifier, hvar, hflag]

theorem UnaryOp.ofSymbol?_eq_some {s : String} {op : UnaryOp} :
    ofSymbol? s = some op ↔ s = op.symbol := by
  unfold ofSymbol?
  cases op <;> repeat' split
  all_goals simp_all [symbol]

theorem BinaryOp.ofSymbol?_eq_some {s : String} {op : BinaryOp} :
    ofSymbol? s = some op ↔ s = op.symbol := by
  unfold ofSymbol?
  cases op <;> repeat' split
  all_goals simp_all [symbol]

namespace Grammar

/-- The three kinds of pieces that an expression is put together from. -/
inductive Category where
  | expression
  | term
  | primary

/-- A list of tokens, all of it, as a piece of an expression with the given tree. -/
inductive Derives (sc : Scopes) : Category → List Token → Expr → Prop
  | term {w : List Token} {e : Expr} (h : Derives sc .term w e) : Derives sc .expression w e
  | sum {w w' : List Token} {t : Token} {op : BinaryOp} {l r : Expr}
    (hleft : Derives sc .expression w l) (hkind : t.kind = .operator) (htext : t.text = op.symbol)
    (hop : op = .add ∨ op = .sub) (hright : Derives sc .term w' r) :
    Derives sc .expression (w ++ t :: w') (.binary op l r)
  | primary {w : List Token} {e : Expr} (h : Derives sc .primary w e) : Derives sc .term w e
  | product {w w' : List Token} {t : Token} {op : BinaryOp} {l r : Expr}
    (hleft : Derives sc .term w l) (hkind : t.kind = .operator) (htext : t.text = op.symbol)
    (hop : op = .mul ∨ op = .div ∨ op = .mod) (hright : Derives sc .primary w' r) :
    Derives sc .term (w ++ t :: w') (.binary op l r)
  | sign {w : List Token} {t : Token} {op : UnaryOp} {e : Expr} (hkind : t.kind = .operator)
    (htext : t.text = op.symbol) (h : Derives sc .primary w e) :
    Derives sc .primary (t :: w) (.unary op e)
  | parens {w : List Token} {left right : Token} {e : Expr} (hleft : left.kind = .leftParen)
    (h : Derives sc .expression w e) (hright : right.kind = .rightParen) :
    Derives sc .primary (left :: w ++ [right]) e
  | number {t : Token} {e : Expr} (hkind : t.kind = .number)
    (hvalue : Expr.ofNumber? t.text = some e) : Derives sc .primary [t] e
  | string {t : Token} (hkind : t.kind = .string) : Derives sc .primary [t] (.string t.text)
  | name {t : Token} {e : Expr} (hkind : t.kind = .ident) (hvalue : sc.Denotes t.text e) :
    Derives sc .primary [t] e

theorem binaryOf?_eq_some {m : Bool} {t : Token} {op : BinaryOp} :
    t.binaryOf? m = some op ↔
      t.kind = .operator ∧ t.text = op.symbol ∧ op.isMultiplicative = m := by
  unfold Token.binaryOf? Token.binaryOp?
  by_cases hk : t.kind = .operator
  · simp [hk, BinaryOp.ofSymbol?_eq_some]
  · simp [hk]

/-- No operator of the given rank stands in front. -/
def NoneLeads (m : Bool) (ts : List Token) : Prop := ∀ t ∈ ts.head?, t.binaryOf? m = none

theorem noneLeads_cons {m : Bool} {t : Token} {ts : List Token} (h : t.binaryOf? m = none) :
    NoneLeads m (t :: ts) := by
  intro u hu
  cases hu
  exact h

/-- No operator of either rank stands in front exactly if none of the five symbols does. -/
theorem noneLeads_iff {ts : List Token} :
    NoneLeads true ts ∧ NoneLeads false ts ↔
      ∀ t ∈ ts.head?, t.kind = .operator → t.text ∉ ["+", "-", "*", "/", "%"] := by
  constructor
  · rintro ⟨hproduct, hsum⟩ t ht hk hmem
    have hop : ∃ op : BinaryOp, t.text = op.symbol := by
      simp only [List.mem_cons, List.not_mem_nil, or_false] at hmem
      rcases hmem with h | h | h | h | h
      · exact ⟨.add, h⟩
      · exact ⟨.sub, h⟩
      · exact ⟨.mul, h⟩
      · exact ⟨.div, h⟩
      · exact ⟨.mod, h⟩
    obtain ⟨op, hop⟩ := hop
    have hsome := binaryOf?_eq_some.mpr ⟨hk, hop, rfl⟩
    cases hrank : op.isMultiplicative with
    | true => rw [hrank, hproduct t ht] at hsome; cases hsome
    | false => rw [hrank, hsum t ht] at hsome; cases hsome
  · intro h
    have hnone : ∀ m, NoneLeads m ts := by
      intro m t ht
      cases hsome : t.binaryOf? m with
      | none => rfl
      | some op =>
        obtain ⟨hk, htext, -⟩ := binaryOf?_eq_some.mp hsome
        refine absurd ?_ (h t ht hk)
        rw [htext]
        cases op <;> simp [BinaryOp.symbol]
    exact ⟨hnone true, hnone false⟩

end Grammar

end CommandScript
