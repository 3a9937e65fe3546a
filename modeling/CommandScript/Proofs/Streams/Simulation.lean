import CommandScript.Compile
/-! # Simulation of streams

One stream follows another if each request that succeeds on the one succeeds on the other with the
same token, and each request that fails does so with the same error, or with an error that is
allowed to come early. Whatever the grammar reads off the first stream it then reads off the
second one, up to the errors that come early.

How often the grammar asks is counted along the way. The relation between the streams may depend on
a number of requests that can still be paid for: each request costs one, and each token other than
an end marker brings six when it is taken. No part of the grammar asks for more than it is given.
-/
namespace CommandScript

/-- Both succeed, both fail in the same way, or the first one fails early. -/
inductive Follows {α β : Type} (early : SyntaxError → Prop) (same : α → β → Prop) :
    Except SyntaxError α → Except SyntaxError β → Prop
  | early {e : SyntaxError} {y : Except SyntaxError β} (h : early e) : Follows early same (.error e) y
  | error (e : SyntaxError) : Follows early same (.error e) (.error e)
  | ok {a : α} {b : β} (h : same a b) : Follows early same (.ok a) (.ok b)

namespace Follows
variable {α β γ δ : Type} {early : SyntaxError → Prop} {same : α → β → Prop}
  {same' : γ → δ → Prop}

theorem bind {x : Except SyntaxError α} {y : Except SyntaxError β} {f : α → Except SyntaxError γ}
    {g : β → Except SyntaxError δ} (h : Follows early same x y)
    (hfg : ∀ a b, same a b → Follows early same' (f a) (g b)) :
    Follows early same' (x >>= f) (y >>= g) := by
  cases h with
  | early he => exact .early he
  | error e => exact .error e
  | ok hab => exact hfg _ _ hab

theorem mono {early' : SyntaxError → Prop} {wider : α → β → Prop} {x : Except SyntaxError α}
    {y : Except SyntaxError β} (h : Follows early same x y) (hearly : ∀ e, early e → early' e)
    (hwider : ∀ a b, x = .ok a → same a b → wider a b) : Follows early' wider x y := by
  cases h with
  | early he => exact .early (hearly _ he)
  | error e => exact .error e
  | ok hab => exact .ok (hwider _ _ rfl hab)

theorem refl (x : Except SyntaxError α) : Follows early (fun a b : α => a = b) x x := by
  cases x with
  | error e => exact .error e
  | ok a => exact .ok rfl

theorem eq_of_not_early {x y : Except SyntaxError α}
    (h : Follows early (fun a b : α => a = b) x y) (hearly : ∀ e, ¬early e) : x = y := by
  cases h with
  | early he => exact absurd he (hearly _)
  | error e => rfl
  | ok hab => rw [hab]

/-- A success is a success of both. -/
theorem exists_ok {x : Except SyntaxError α} {y : Except SyntaxError β} {a : α}
    (h : Follows early same x y) (hx : x = .ok a) : ∃ b, y = .ok b ∧ same a b := by
  cases h with
  | early he => cases hx
  | error e => cases hx
  | ok hab => cases hx; exact ⟨_, rfl, hab⟩

/-- Where no error comes early, a success of the second is one of the first. -/
theorem exists_ok_of_ok {x : Except SyntaxError α} {y : Except SyntaxError β} {b : β}
    (h : Follows early same x y) (hearly : ∀ e, ¬early e) (hy : y = .ok b) :
    ∃ a, x = .ok a ∧ same a b := by
  cases h with
  | early he => exact absurd he (hearly _)
  | error e => cases hy
  | ok hab => cases hy; exact ⟨_, rfl, hab⟩

end Follows

section Streams
variable {τ τ' : Type} [TokenStream τ] [TokenStream τ']

/-- A relation between streams that every request for the first token keeps. -/
structure FrontSimulation (early : SyntaxError → Prop) (shows : τ → τ' → Prop) : Prop where
  first {s : τ} {s' : τ'} : shows s s' →
    Follows early (fun t t' => t.token = t'.token ∧ shows t.here t'.here ∧ shows t.after t'.after)
      (TokenStream.first s) (TokenStream.first s')

/-- A relation between streams that every request keeps. -/
structure Simulation (early : SyntaxError → Prop) (shows : τ → τ' → Prop) : Prop
    extends FrontSimulation early shows where
  second {s : τ} {s' : τ'} : shows s s' →
    Follows early (fun t t' => t.token = t'.token ∧ shows t.here t'.here)
      (TokenStream.second s) (TokenStream.second s')

/-- Relations between streams, by the number of requests that can still be paid for. A request for
the first token costs one, and taking a token other than an end marker brings six. -/
structure FrontPace (early : SyntaxError → Prop) (shows : Nat → τ → τ' → Prop) : Prop where
  mono {j k : Nat} {s : τ} {s' : τ'} : j ≤ k → shows k s s' → shows j s s'
  first {k : Nat} {s : τ} {s' : τ'} : shows (k + 1) s s' →
    Follows early (fun t t' => t.token = t'.token ∧ shows k t.here t'.here ∧
        shows k t.after t'.after ∧ (t.token.kind ≠ .eof → shows (k + 6) t.after t'.after))
      (TokenStream.first s) (TokenStream.first s')

/-- A request for the second token costs one, too. -/
structure Pace (early : SyntaxError → Prop) (shows : Nat → τ → τ' → Prop) : Prop
    extends FrontPace early shows where
  second {k : Nat} {s : τ} {s' : τ'} : shows (k + 1) s s' →
    Follows early (fun t t' => t.token = t'.token ∧ shows k t.here t'.here)
      (TokenStream.second s) (TokenStream.second s')

/-- The same thing was read, and what is left is related. -/
def Parsed.Same {α : Type} (shows : τ → τ' → Prop) {s : τ} {s' : τ'} (p : Parsed α s)
    (p' : Parsed α s') : Prop := p.value = p'.value ∧ shows p.rest p'.rest

def Reached.Same {α : Type} (shows : τ → τ' → Prop) {s : τ} {s' : τ'} (p : Reached α s)
    (p' : Reached α s') : Prop := p.value = p'.value ∧ shows p.rest p'.rest

inductive NodeEnd.Same (shows : τ → τ' → Prop) {s : τ} {s' : τ'} : NodeEnd s → NodeEnd s' → Prop
  | closed {rest : τ} {rest' : τ'} (le le') (h : shows rest rest') :
    NodeEnd.Same shows (.closed rest le) (.closed rest' le')
  | extended {scope : Script} {rest : τ} {rest' : τ'} (lt lt') (h : shows rest rest') :
    NodeEnd.Same shows (.extended scope rest lt) (.extended scope rest' lt')

/-- Two nodes of the same effect; with the end of the input, less may be left than behind a node. -/
inductive NodeEnd.SameBy (closing going : τ → τ' → Prop) {s : τ} {s' : τ'} :
    NodeEnd s → NodeEnd s' → Prop
  | closed {rest : τ} {rest' : τ'} (le le') (h : closing rest rest') :
    NodeEnd.SameBy closing going (.closed rest le) (.closed rest' le')
  | extended {scope : Script} {rest : τ} {rest' : τ'} (lt lt') (h : going rest rest') :
    NodeEnd.SameBy closing going (.extended scope rest lt) (.extended scope rest' lt')

theorem NodeEnd.SameBy.same {shows : τ → τ' → Prop} {s : τ} {s' : τ'} {e : NodeEnd s}
    {e' : NodeEnd s'} (h : NodeEnd.SameBy shows shows e e') : NodeEnd.Same shows e e' := by
  cases h with
  | closed le le' h => exact .closed le le' h
  | extended lt lt' h => exact .extended lt lt' h

/-- What is left over at the end of a scope. The word that closes a macro is a token that pays, and
the end of the input is not. -/
def Opening.spare : Opening → Nat
  | root => 2
  | macroBody .. => 3

section Pace
variable {early : SyntaxError → Prop} {shows : Nat → τ → τ' → Prop}

namespace FrontPace

/-- A primary costs one request, and what follows an operand may cost all that its token brought. -/
theorem expressions (h : FrontPace early shows) (resolve : String → Expr) :
    (∀ s : τ, ∀ s', shows 1 s s' → Follows early (Parsed.Same (shows 6))
      (Grammar.primary resolve s) (Grammar.primary resolve s')) ∧
    (∀ s : τ, ∀ s', shows 1 s s' → Follows early (Parsed.Same (shows 4))
      (Grammar.additive resolve s) (Grammar.additive resolve s')) ∧
    (∀ left (s : τ), ∀ s', shows 5 s s' → Follows early (Reached.Same (shows 4))
      (Grammar.terms resolve left s) (Grammar.terms resolve left s')) ∧
    (∀ s : τ, ∀ s', shows 1 s s' → Follows early (Parsed.Same (shows 5))
      (Grammar.multiplicative resolve s) (Grammar.multiplicative resolve s')) ∧
    (∀ left (s : τ), ∀ s', shows 6 s s' → Follows early (Reached.Same (shows 5))
      (Grammar.factors resolve left s) (Grammar.factors resolve left s')) := by
  apply Grammar.primary.mutual_induct
  · intro s ihSign ihParen s' hs
    rw [Grammar.primary, Grammar.primary]
    refine (h.first hs).bind ?_
    rintro ⟨⟨kind, text, line⟩, here, after, h1, h2, h3⟩ ⟨token', here', after', h1', h2', h3'⟩
      ⟨rfl, -, -, htaken⟩
    cases kind with
    | operator =>
      dsimp only
      cases UnaryOp.ofSymbol? text with
      | none => exact .error _
      | some op =>
        have hafter : shows 1 after after' := h.mono (by decide) (htaken (by simp))
        refine (ihSign ⟨_, here, after, h1, h2, h3⟩ rfl after' hafter).bind ?_
        rintro e e' ⟨hv, hr⟩
        exact .ok ⟨congrArg (Expr.unary op) hv, hr⟩
    | leftParen =>
      have hafter : shows 1 after after' := h.mono (by decide) (htaken (by simp))
      refine (ihParen ⟨_, here, after, h1, h2, h3⟩ rfl after' hafter).bind ?_
      rintro e e' ⟨hv, hr⟩
      refine (h.first hr).bind ?_
      rintro close ⟨token', here', after', h1', h2', h3'⟩ ⟨rfl, -, -, hclose⟩
      dsimp only
      split
      · rename_i hright
        exact .ok ⟨hv, h.mono (by decide) (hclose (by rw [hright]; decide))⟩
      · exact .error _
    | number =>
      dsimp only
      cases Expr.ofNumber? text with
      | none => exact .error _
      | some e => exact .ok ⟨rfl, htaken (by simp)⟩
    | string => exact .ok ⟨rfl, htaken (by simp)⟩
    | ident => exact .ok ⟨rfl, htaken (by simp)⟩
    | _ => exact .error _
  · intro s ihTerm ihRest s' hs
    rw [Grammar.additive, Grammar.additive]
    refine (ihTerm s' hs).bind ?_
    rintro left left' ⟨hv, hr⟩
    rw [← hv]
    refine (ihRest left _ hr).bind ?_
    rintro e e' hsame
    exact .ok hsame
  · intro left s ihTerm ihRest s' hs
    rw [Grammar.terms, Grammar.terms]
    refine (h.first hs).bind ?_
    rintro t ⟨token', here', after', h1', h2', h3'⟩ ⟨rfl, hhere, -, htaken⟩
    dsimp only
    split
    · rename_i op hop
      have hafter : shows 1 t.after after' :=
        h.mono (by decide) (htaken (Token.ne_eof_of_binaryOf? hop))
      refine (ihTerm t op hop _ hafter).bind ?_
      rintro right right' ⟨hv, hr⟩
      rw [← hv]
      refine (ihRest t op hop right _ hr).bind ?_
      rintro e e' hsame
      exact .ok hsame
    · exact .ok ⟨rfl, hhere⟩
  · intro s ihFactor ihRest s' hs
    rw [Grammar.multiplicative, Grammar.multiplicative]
    refine (ihFactor s' hs).bind ?_
    rintro left left' ⟨hv, hr⟩
    rw [← hv]
    refine (ihRest left _ hr).bind ?_
    rintro e e' hsame
    exact .ok hsame
  · intro left s ihFactor ihRest s' hs
    rw [Grammar.factors, Grammar.factors]
    refine (h.first hs).bind ?_
    rintro t ⟨token', here', after', h1', h2', h3'⟩ ⟨rfl, hhere, -, htaken⟩
    dsimp only
    split
    · rename_i op hop
      have hafter : shows 1 t.after after' :=
        h.mono (by decide) (htaken (Token.ne_eof_of_binaryOf? hop))
      refine (ihFactor t op hop _ hafter).bind ?_
      rintro right right' ⟨hv, hr⟩
      rw [← hv]
      refine (ihRest t op hop right _ hr).bind ?_
      rintro e e' hsame
      exact .ok hsame
    · exact .ok ⟨rfl, hhere⟩

theorem expression (h : FrontPace early shows) (resolve : String → Expr) {s : τ} {s' : τ'}
    (hs : shows 1 s s') : Follows early (Parsed.Same (shows 4))
      (Grammar.expression resolve s) (Grammar.expression resolve s') :=
  (h.expressions resolve).2.1 s s' hs

end FrontPace

namespace Pace

theorem declaredName (h : Pace early shows) (after : String) {s : τ} {s' : τ'}
    (hs : shows 1 s s') : Follows early (Parsed.Same (shows 6))
      (Grammar.declaredName after s) (Grammar.declaredName after s') := by
  refine (h.first hs).bind ?_
  rintro t ⟨token', here', after', h1', h2', h3'⟩ ⟨rfl, -, -, htaken⟩
  dsimp only
  split
  · rename_i hname
    exact .ok ⟨rfl, htaken (Token.ne_eof_of_isName hname)⟩
  · exact .error _

theorem arguments (h : Pace early shows) (resolve : String → Expr) (s : τ) :
    ∀ s', shows 4 s s' → Follows early (Reached.Same (shows 3))
      (Grammar.arguments resolve s) (Grammar.arguments resolve s') := by
  induction s using Grammar.arguments.induct with
  | case1 s ih =>
    intro s' hs
    rw [Grammar.arguments, Grammar.arguments]
    refine (h.first hs).bind ?_
    rintro t ⟨token', here', after', h1', h2', h3'⟩ ⟨rfl, hhere, hafter, -⟩
    dsimp only
    split
    · exact .ok ⟨rfl, hafter⟩
    · refine (h.expression resolve (h.mono (by decide) hhere)).bind ?_
      rintro e e' ⟨hv, hr⟩
      refine (h.first hr).bind ?_
      rintro next ⟨token', here', after', h1', h2', h3'⟩ ⟨rfl, -, hnext, htaken⟩
      dsimp only
      split
      · rename_i hcomma
        refine (h.first (htaken (by rw [hcomma]; decide))).bind ?_
        rintro ahead ⟨token', here', after', h1', h2', h3'⟩ ⟨rfl, hahead, -⟩
        dsimp only
        split
        · exact .error _
        · refine (ih t e next ahead _ (h.mono (by decide) hahead)).bind ?_
          rintro more more' ⟨hmv, hmr⟩
          exact .ok ⟨congr (congrArg List.cons hv) hmv, hmr⟩
      · split
        · exact .ok ⟨congrArg (fun x => [x]) hv, hnext⟩
        · exact .error _

/-- A command line and its part behind a head. -/
theorem commandLines (h : Pace early shows) :
    (∀ sc head (s : τ), ∀ s', shows 4 s s' → Follows early (Reached.Same (shows 3))
      (Grammar.commandLine sc head s).result (Grammar.commandLine sc head s').result) ∧
    (∀ sc (s : τ), ∀ s', shows 4 s s' → Follows early (Reached.Same (shows 3))
      (Grammar.heads sc s).result (Grammar.heads sc s').result) := by
  apply Grammar.commandLine.mutual_induct
  · intro sc head s hk s' hs
    rw [Grammar.commandLine, Grammar.commandLine, if_pos hk, if_pos hk]
    exact .error _
  · intro sc head s hk hc ih s' hs
    rw [Grammar.commandLine, Grammar.commandLine, if_neg hk, if_neg hk, hc]
    exact ih s' hs
  · intro sc head s hk type hc htype s' hs
    rw [Grammar.commandLine, Grammar.commandLine, if_neg hk, if_neg hk, hc]
    simp only [if_neg htype, Logged.result_bind]
    refine (h.arguments sc.resolve s s' hs).bind ?_
    rintro args args' ⟨hv, hr⟩
    rw [← hv]
    refine (Follows.refl _).bind ?_
    rintro scope _ rfl
    exact .ok ⟨rfl, hr⟩
  · intro sc head s hk hc body hbody ih s' hs
    rw [Grammar.commandLine, Grammar.commandLine, if_neg hk, if_neg hk, hc, hbody]
    exact ih s' hs
  · intro sc head s hk hc hbody s' hs
    rw [Grammar.commandLine, Grammar.commandLine, if_neg hk, if_neg hk, hc, hbody]
    exact .error _
  · intro sc s ih s' hs
    rw [Grammar.heads, Grammar.heads]
    simp only [Logged.result_bind]
    refine (h.first hs).bind ?_
    rintro t ⟨token', here', after', h1', h2', h3'⟩ ⟨rfl, -, hafter, htaken⟩
    dsimp only
    split
    · exact .ok ⟨rfl, hafter⟩
    · rename_i hend
      simp only [Logged.result_bind]
      have hhead : shows 4 t.after after' :=
        h.mono (by decide) (htaken (Token.ne_eof_of_not_endsLine hend))
      refine (ih t hend _ hhead).bind ?_
      rintro line line' hsame
      exact .ok hsame

theorem labelDeclaration (h : Pace early shows) (sc : Scopes) (name : Token) {s : τ} {s' : τ'}
    (hs : shows 4 s s') : Follows early (Reached.Same (shows 3))
      (Grammar.labelDeclaration sc name s).result (Grammar.labelDeclaration sc name s').result := by
  simp only [Grammar.labelDeclaration, Logged.result_bind]
  refine (h.first hs).bind ?_
  rintro colon colon' ⟨-, -, hafter, -⟩
  split
  · exact .error _
  · exact .ok ⟨rfl, hafter⟩

theorem constantDeclaration (h : Pace early shows) (sc : Scopes) (keyword : Token) {s : τ}
    {s' : τ'} (hs : shows 1 s s') : Follows early (Reached.Same (shows 3))
      (Grammar.constantDeclaration sc keyword s).result
      (Grammar.constantDeclaration sc keyword s').result := by
  simp only [Grammar.constantDeclaration, Logged.result_bind]
  refine (h.declaredName keyword.text hs).bind ?_
  rintro name name' ⟨hn, hnr⟩
  refine (h.expression sc.resolve (h.mono (by decide) hnr)).bind ?_
  rintro e e' ⟨hv, hr⟩
  exact .ok ⟨by dsimp only; rw [hn, hv], h.mono (by decide) hr⟩

theorem named (h : Pace early shows) (sc : Scopes) {s : τ} {s' : τ'} (hs : shows 2 s s') :
    Follows early (Parsed.Same (shows 3)) (Grammar.named sc s).result
      (Grammar.named sc s').result := by
  simp only [Grammar.named, Logged.result_bind]
  refine (h.second hs).bind ?_
  rintro ahead ⟨_, ahead', _⟩ ⟨rfl, hahead⟩
  refine (h.first hahead).bind ?_
  rintro name ⟨token', here', after', h1', h2', h3'⟩ ⟨rfl, -, -, htaken⟩
  dsimp only
  split
  · rename_i hname
    have hafter : shows 4 name.after after' :=
      h.mono (by decide) (htaken (Token.ne_eof_of_isName hname))
    split
    · simp only [Logged.result_bind]
      refine (h.labelDeclaration sc _ hafter).bind ?_
      rintro r r' hsame
      exact .ok hsame
    · simp only [Logged.result_bind]
      refine (h.commandLines.1 sc _ _ _ hafter).bind ?_
      rintro r r' hsame
      exact .ok hsame
  · exact .error _

theorem nodeRows (h : Pace early shows) :
    (∀ opening sc (s : τ), ∀ s', shows 3 s s' →
      Follows early (NodeEnd.SameBy (shows opening.spare) (shows 3))
        (Grammar.node opening sc s).result (Grammar.node opening sc s').result) ∧
    (∀ opening sc (s : τ), ∀ s', shows 3 s s' → Follows early (Reached.Same (shows opening.spare))
      (Grammar.nodes opening sc s).result (Grammar.nodes opening sc s').result) := by
  apply Grammar.node.mutual_induct
  · intro opening sc s ih s' hs
    rw [Grammar.node, Grammar.node]
    simp only [Logged.result_bind]
    refine (h.first hs).bind ?_
    rintro ⟨⟨kind, text, line⟩, here, after, h1, h2, h3⟩ ⟨token', here', after', h1', h2', h3'⟩
      ⟨rfl, hhere, hafter, htaken⟩
    dsimp only at hhere hafter htaken ⊢
    split
    · rename_i hend
      refine .ok (.closed _ _ ?_)
      cases opening with
      | root => exact hafter
      | macroBody name line =>
        have hpays : shows 8 after after' := htaken (by rw [hend]; exact TokenKind.noConfusion)
        exact h.mono (by simp [Opening.spare]) hpays
    · cases kind with
      | macroStart =>
        simp only [Logged.result_bind]
        refine (h.declaredName text (h.mono (by decide) (htaken (by simp)))).bind ?_
        rintro name name' ⟨hn, hnr⟩
        rw [← hn]
        refine (ih ⟨_, here, after, h1, h2, h3⟩ rfl name _ (h.mono (by decide) hnr)).bind ?_
        rintro body body' ⟨hb, hbr⟩
        rw [← hb]
        exact .ok (.extended _ _ hbr)
      | const =>
        simp only [Logged.result_bind]
        refine (h.constantDeclaration sc _ (h.mono (by decide) (htaken (by simp)))).bind ?_
        rintro r r' ⟨hv, hr⟩
        rw [← hv]
        exact .ok (.extended _ _ hr)
      | ident =>
        simp only [Logged.result_bind]
        refine (h.named sc hhere).bind ?_
        rintro r r' ⟨hv, hr⟩
        rw [← hv]
        exact .ok (.extended _ _ hr)
      | newline => exact .ok (.extended _ _ (h.mono (by decide) (htaken (by simp))))
      | _ => exact .error _
  · intro opening sc s ihNode ihNodes s' hs
    rw [Grammar.nodes, Grammar.nodes]
    simp only [Logged.result_bind]
    refine (ihNode s' hs).bind ?_
    rintro e e' (⟨_, _, hr⟩ | ⟨lt, _, hr⟩)
    · exact .ok ⟨rfl, hr⟩
    · simp only [Logged.result_bind]
      refine (ihNodes _ _ lt _ hr).bind ?_
      rintro r r' hsame
      exact .ok hsame

/-- A script is read off both streams or off neither, early errors apart. -/
theorem readScript (h : Pace early shows) (names : Registries) {s : τ} {s' : τ'}
    (hs : shows 3 s s') : Follows early (fun script script' : Script => script = script')
      (CommandScript.readScript names s).result (CommandScript.readScript names s').result := by
  simp only [CommandScript.readScript, Logged.result_bind]
  refine (h.nodeRows.2 .root (.outermost names) s s' hs).bind ?_
  rintro r r' ⟨hv, -⟩
  exact .ok hv

/-- A script compiles off both streams or off neither, early errors apart. -/
theorem compileStream (h : Pace early shows) (names : Registries) {s : τ} {s' : τ'}
    (hs : shows 3 s s') : Follows early (fun script script' : Script => script = script')
      (CommandScript.compileStream names s).result
      (CommandScript.compileStream names s').result := by
  simp only [CommandScript.compileStream, Logged.result_bind]
  refine (h.readScript names hs).bind ?_
  rintro read _ rfl
  exact Follows.refl _

end Pace
end Pace

section Simulation
variable {early : SyntaxError → Prop} {shows : τ → τ' → Prop}

/-- A relation that does not count requests. -/
theorem FrontSimulation.pace (h : FrontSimulation early shows) :
    FrontPace early (fun _ => shows) where
  mono _ hs := hs
  first hs := (h.first hs).mono (fun _ he => he)
    (fun _ _ _ hsame => ⟨hsame.1, hsame.2.1, hsame.2.2, fun _ => hsame.2.2⟩)

theorem Simulation.pace (h : Simulation early shows) : Pace early (fun _ => shows) where
  toFrontPace := h.toFrontSimulation.pace
  second := h.second

theorem FrontSimulation.expression (h : FrontSimulation early shows) (resolve : String → Expr)
    {s : τ} {s' : τ'} (hs : shows s s') : Follows early (Parsed.Same shows)
      (Grammar.expression resolve s) (Grammar.expression resolve s') :=
  h.pace.expression resolve hs

namespace Simulation

/-- What requests keep up is kept up by reading. -/
theorem of_keeps {keeps : τ → Prop}
    (hfirst : ∀ {s : τ} {t : First TokenStream.size s}, keeps s → TokenStream.first s = .ok t →
      keeps t.here ∧ keeps t.after)
    (hsecond : ∀ {s : τ} {t : Second TokenStream.size s}, keeps s → TokenStream.second s = .ok t →
      keeps t.here) : Simulation (fun _ => False) (fun s s' => s = s' ∧ keeps s) where
  first := by
    rintro s _ ⟨rfl, hs⟩
    cases h : TokenStream.first s with
    | error e => exact .error e
    | ok t => exact .ok ⟨rfl, ⟨rfl, (hfirst hs h).1⟩, rfl, (hfirst hs h).2⟩
  second := by
    rintro s _ ⟨rfl, hs⟩
    cases h : TokenStream.second s with
    | error e => exact .error e
    | ok t => exact .ok ⟨rfl, rfl, hsecond hs h⟩

theorem node (h : Simulation early shows) (opening : Opening) (sc : Scopes) {s : τ} {s' : τ'}
    (hs : shows s s') : Follows early (NodeEnd.Same shows)
      (Grammar.node opening sc s).result (Grammar.node opening sc s').result :=
  (h.pace.nodeRows.1 opening sc s s' hs).mono (fun _ he => he) (fun _ _ _ hsame => hsame.same)

theorem readScript (h : Simulation early shows) (names : Registries) {s : τ} {s' : τ'}
    (hs : shows s s') : Follows early (fun script script' : Script => script = script')
      (CommandScript.readScript names s).result (CommandScript.readScript names s').result :=
  h.pace.readScript names hs

theorem compileStream (h : Simulation early shows) (names : Registries) {s : τ} {s' : τ'}
    (hs : shows s s') : Follows early (fun script script' : Script => script = script')
      (CommandScript.compileStream names s).result
      (CommandScript.compileStream names s').result :=
  h.pace.compileStream names hs

end Simulation
end Simulation

end Streams

end CommandScript
