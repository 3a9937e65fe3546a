import CommandScript.Parsing.Node
import CommandScript.Proofs.Outcome
import CommandScript.Proofs.Streams.Row
import Mathlib
/-! # One stack of open bodies

The grammar gives a node the scopes around it and takes a new current scope back. The same nodes can
be read over a single stack that every step changes in place: a macro's body is pushed when it
begins and popped when it ends, what is declared goes to the top, and every lookup goes through the
stack as it is then. Both readers agree, whatever a pop would make of an empty stack. So what lies
below the top is left alone, and behind a node the stack is as high as before it.
-/
namespace CommandScript

open TokenStream

/-- The scopes that are being read. -/
structure BodyStack where
  names : Registries
  root : Script
  /-- The bodies of the macros that have not ended, the innermost first. -/
  bodies : List Script

namespace BodyStack

def current (st : BodyStack) : Script :=
  match st.bodies with
  | [] => st.root
  | body :: _ => body

def setCurrent (st : BodyStack) (scope : Script) : BodyStack :=
  match st.bodies with
  | [] => { st with root := scope }
  | _ :: outer => { st with bodies := scope :: outer }

def update (st : BodyStack) (f : Script → Script) : BodyStack := st.setCurrent (f st.current)

def push (st : BodyStack) : BodyStack := { st with bodies := .empty :: st.bodies }

/-- Takes the innermost body off, or `missing` if no body is open. -/
def pop (missing : Script) (st : BodyStack) : Script × BodyStack :=
  match st.bodies with
  | [] => (missing, st)
  | body :: outer => (body, { st with bodies := outer })

/-- Every scope, the innermost first and the root last. -/
def all (st : BodyStack) : List Script := st.bodies ++ [st.root]

def scopes (st : BodyStack) : Scopes := ⟨st.names, st.current, st.all.tail⟩

/-- At most the innermost scope is another one. -/
structure SameBelow (st st' : BodyStack) : Prop where
  names : st'.names = st.names
  height : st'.bodies.length = st.bodies.length
  below : st'.all.tail = st.all.tail

section Operations
variable (st : BodyStack) (scope scope' : Script)

theorem all_eq : st.all = st.current :: st.all.tail := by
  obtain ⟨names, root, _ | ⟨body, outer⟩⟩ := st <;> rfl

@[simp] theorem current_setCurrent : (st.setCurrent scope).current = scope := by
  obtain ⟨names, root, _ | ⟨body, outer⟩⟩ := st <;> rfl

@[simp] theorem setCurrent_setCurrent :
    (st.setCurrent scope).setCurrent scope' = st.setCurrent scope' := by
  obtain ⟨names, root, _ | ⟨body, outer⟩⟩ := st <;> rfl

@[simp] theorem setCurrent_current : st.setCurrent st.current = st := by
  obtain ⟨names, root, _ | ⟨body, outer⟩⟩ := st <;> rfl

theorem setCurrent_scopes_current : st.setCurrent st.scopes.current = st := st.setCurrent_current

theorem sameBelow_setCurrent : st.SameBelow (st.setCurrent scope) := by
  obtain ⟨names, root, _ | ⟨body, outer⟩⟩ := st <;> exact ⟨rfl, rfl, rfl⟩

theorem scopes_setCurrent : (st.setCurrent scope).scopes = st.scopes.withCurrent scope := by
  obtain ⟨names, root, _ | ⟨body, outer⟩⟩ := st <;> rfl

theorem scopes_push : st.push.scopes = st.scopes.inner := by
  change Scopes.mk st.names .empty st.all = ⟨st.names, .empty, st.current :: st.all.tail⟩
  rw [← all_eq]

end Operations

section Reading
variable {τ : Type} [TokenStream τ]

theorem size_behind_two_le {s : τ} {name : Parsed String s} (e : Parsed Expr name.rest) :
    size e.rest ≤ size s :=
  Nat.le_of_lt (Nat.lt_trans e.lt name.lt)

theorem size_behind_name_lt {s : τ} {ahead : Second size s} {name : First size ahead.here}
    (h : name.token.isName) : size name.after < size s :=
  Nat.lt_of_lt_of_le (name.after_lt (Token.ne_eof_of_isName h)) ahead.here_le

mutual

def commandLine (st : BodyStack) (head : Token) (s : τ) :
    Except SyntaxError (Reached BodyStack s) :=
  if head.kind ≠ .ident then throw (.unexpected head)
  else
    match st.names.commands.get? head.text with
    | some type =>
      if type = .none then heads st s
      else do
        let args ← Grammar.arguments st.scopes.resolve s
        let scope ← Grammar.complete st.current head type args.value
        return ⟨st.setCurrent scope, args.rest, args.le⟩
    | none =>
      match st.scopes.macroNamed? head.text with
      | some body => heads (st.update (·.splice body)) s
      | none => throw (.unknownCommand head.text head.line)
termination_by (size s, 1)

def heads (st : BodyStack) (s : τ) : Except SyntaxError (Reached BodyStack s) := do
  let t ← first s
  if h : t.token.endsLine then return ⟨st, t.after, t.after_le⟩
  else
    have := t.after_lt (Token.ne_eof_of_not_endsLine h)
    let line ← commandLine st t.token t.after
    return ⟨line.value, line.rest, Nat.le_trans line.le t.after_le⟩
termination_by (size s, 0)

end

def labelDeclaration (st : BodyStack) (name : Token) (s : τ) :
    Except SyntaxError (Reached BodyStack s) := do
  let colon ← first s
  if st.current.labels.contains name.text then throw (.duplicateLabel name.text name.line)
  else return ⟨st.update (·.declareLabel name.text), colon.after, colon.after_le⟩

def constantDeclaration (st : BodyStack) (keyword : Token) (s : τ) :
    Except SyntaxError (Reached BodyStack s) := do
  let name ← Grammar.declaredName keyword.text s
  let e ← Grammar.expression st.scopes.resolve name.rest
  return ⟨st.update (·.declareConstant name.value e.value), e.rest, size_behind_two_le e⟩

def named (st : BodyStack) (s : τ) : Except SyntaxError (Parsed BodyStack s) := do
  let ahead ← second s
  let name ← first ahead.here
  if h : name.token.isName then
    have lt := size_behind_name_lt h
    if ahead.token.kind = .colon then
      let r ← labelDeclaration st name.token name.after
      return ⟨r.value, r.rest, Nat.lt_of_le_of_lt r.le lt⟩
    else
      let r ← commandLine st name.token name.after
      return ⟨r.value, r.rest, Nat.lt_of_le_of_lt r.le lt⟩
  else throw (.unexpected name.token)

/-- What a node did: it ended its scope, or the stack may have changed. -/
inductive Turn (s : τ) where
  | closed (stack : BodyStack) (rest : τ) (le : size rest ≤ size s)
  | extended (stack : BodyStack) (rest : τ) (lt : size rest < size s)

mutual

def node (missing : Script) (opening : Opening) (st : BodyStack) (s : τ) :
    Except SyntaxError (Turn s) := do
  let t ← first s
  if t.token.kind = opening.terminator then return .closed st t.after t.after_le
  else
    match hk : t.token.kind with
    | .macroStart =>
      have lt := t.after_lt_of_kind hk (by decide)
      let r ← macroDeclaration missing st t.token t.after
      return .extended r.value r.rest (Nat.lt_of_le_of_lt r.le lt)
    | .const =>
      let r ← constantDeclaration st t.token t.after
      return .extended r.value r.rest (Nat.lt_of_le_of_lt r.le (t.after_lt_of_kind hk (by decide)))
    | .ident =>
      let r ← named st t.here
      return .extended r.value r.rest (Nat.lt_of_lt_of_le r.lt t.here_le)
    | .newline => return .extended st t.after (t.after_lt_of_kind hk (by decide))
    | .eof => throw (opening.unfinished t.token)
    | _ => throw (.unexpected t.token)
termination_by (size s, 0)

/-- A macro behind its keyword: the body is on the stack until it ends. -/
def macroDeclaration (missing : Script) (st : BodyStack) (keyword : Token) (s : τ) :
    Except SyntaxError (Reached BodyStack s) := do
  let name ← Grammar.declaredName keyword.text s
  have hn := name.lt
  let inner ← nodes missing (.macroBody name.value keyword.line) st.push name.rest
  let (body, outer) := inner.value.pop missing
  return ⟨outer.update (·.declareMacro name.value body), inner.rest,
    Nat.le_of_lt (Nat.lt_of_le_of_lt inner.le hn)⟩
termination_by (size s, 2)

def nodes (missing : Script) (opening : Opening) (st : BodyStack) (s : τ) :
    Except SyntaxError (Reached BodyStack s) := do
  match ← node missing opening st s with
  | .closed stack rest le => return ⟨stack, rest, le⟩
  | .extended stack rest lt =>
    let r ← nodes missing opening stack rest
    return ⟨r.value, r.rest, Nat.le_trans r.le (Nat.le_of_lt lt)⟩
termination_by (size s, 1)

end

/-! ### Both readers agree -/

/-- The new current scope, put in its place on the stack. -/
def reached (st : BodyStack) {s : τ} (r : Reached Script s) : Reached BodyStack s :=
  ⟨st.setCurrent r.value, r.rest, r.le⟩

def parsed (st : BodyStack) {s : τ} (p : Parsed Script s) : Parsed BodyStack s :=
  ⟨st.setCurrent p.value, p.rest, p.lt⟩

def turn (st : BodyStack) {s : τ} : NodeEnd s → Turn s
  | .closed rest le => .closed st rest le
  | .extended scope rest lt => .extended (st.setCurrent scope) rest lt

/-- Steps that begin alike and go on alike. -/
theorem bind_eq_map_bind {α β β' : Type} {x : Except SyntaxError α}
    {k : α → Except SyntaxError β} {k' : α → Except SyntaxError β'} {f : β → β'}
    (h : ∀ a, k' a = (k a).map f) : x >>= k' = (x >>= k).map f := by
  cases x with
  | error e => rfl
  | ok a => exact h a

/-- Steps whose beginnings agree up to `g`. -/
theorem bind_eq_map_of_eq_map {α α' β β' : Type} {x : Except SyntaxError α}
    {x' : Except SyntaxError α'} {g : α → α'} {k : α → Except SyntaxError β}
    {k' : α' → Except SyntaxError β'} {f : β → β'} (hx : x' = x.map g)
    (h : ∀ a, k' (g a) = (k a).map f) : x' >>= k' = (x >>= k).map f := by
  subst hx
  cases x with
  | error e => rfl
  | ok a => exact h a

theorem exists_of_map_eq_ok {α β : Type} {x : Except SyntaxError α} {f : α → β} {b : β}
    (h : x.map f = .ok b) : ∃ a, x = .ok a ∧ f a = b := by
  cases x with
  | error e => cases h
  | ok a => cases h; exact ⟨a, rfl, rfl⟩

theorem reached_setCurrent (st : BodyStack) (scope : Script) {s : τ} :
    (st.setCurrent scope).reached (s := s) = st.reached := by
  funext r
  simp [reached]

theorem commandLines_eq :
    (∀ (st : BodyStack) head (s : τ), commandLine st head s =
      (Grammar.commandLine st.scopes head s).result.map st.reached) ∧
    (∀ (st : BodyStack) (s : τ), heads st s =
      (Grammar.heads st.scopes s).result.map st.reached) := by
  apply commandLine.mutual_induct
  · intro st head s hk
    rw [commandLine, Grammar.commandLine, if_pos hk, if_pos hk]
    rfl
  · intro st head s hk hc ih
    have hc' : st.scopes.names.commands.get? head.text = some CommandType.none := hc
    rw [commandLine, Grammar.commandLine, if_neg hk, if_neg hk, hc, hc']
    exact ih
  · intro st head s hk type hc htype
    have hc' : st.scopes.names.commands.get? head.text = some type := hc
    rw [commandLine, Grammar.commandLine, if_neg hk, if_neg hk, hc, hc']
    simp only [if_neg htype, Logged.result_bind]
    refine bind_eq_map_bind (fun args => ?_)
    exact bind_eq_map_bind (fun scope => rfl)
  · intro st head s hk hc body hbody ih
    have hc' : st.scopes.names.commands.get? head.text = none := hc
    rw [commandLine, Grammar.commandLine, if_neg hk, if_neg hk, hc, hc', hbody]
    -- The splice has gone to the top of the stack, where the line goes on.
    rw [update, scopes_setCurrent, reached_setCurrent] at ih
    exact ih
  · intro st head s hk hc hbody
    have hc' : st.scopes.names.commands.get? head.text = none := hc
    rw [commandLine, Grammar.commandLine, if_neg hk, if_neg hk, hc, hc', hbody]
    rfl
  · intro st s ih
    rw [heads, Grammar.heads]
    simp only [Logged.result_bind]
    refine bind_eq_map_bind (fun t => ?_)
    split
    · change _ = Except.ok (st.reached _)
      simp only [reached, setCurrent_scopes_current]
      rfl
    · rename_i hend
      simp only [Logged.result_bind]
      exact bind_eq_map_of_eq_map (ih t hend) (fun line => rfl)

theorem labelDeclaration_eq (st : BodyStack) (name : Token) (s : τ) :
    labelDeclaration st name s =
      (Grammar.labelDeclaration st.scopes name s).result.map st.reached := by
  simp only [labelDeclaration, Grammar.labelDeclaration, Logged.result_bind]
  refine bind_eq_map_bind (fun colon => ?_)
  rw [show st.scopes.current = st.current from rfl]
  split
  · rfl
  · rfl

theorem constantDeclaration_eq (st : BodyStack) (keyword : Token) (s : τ) :
    constantDeclaration st keyword s =
      (Grammar.constantDeclaration st.scopes keyword s).result.map st.reached := by
  simp only [constantDeclaration, Grammar.constantDeclaration, Logged.result_bind]
  refine bind_eq_map_bind (fun name => ?_)
  exact bind_eq_map_bind (fun e => rfl)

theorem named_eq (st : BodyStack) (s : τ) :
    named st s = (Grammar.named st.scopes s).result.map st.parsed := by
  simp only [named, Grammar.named, Logged.result_bind]
  refine bind_eq_map_bind (fun ahead => ?_)
  refine bind_eq_map_bind (fun name => ?_)
  split
  · split
    · simp only [Logged.result_bind]
      exact bind_eq_map_of_eq_map (labelDeclaration_eq ..) (fun r => rfl)
    · simp only [Logged.result_bind]
      exact bind_eq_map_of_eq_map (commandLines_eq.1 ..) (fun r => rfl)
  · rfl

/-- Reading a macro leaves the stack as it was, with the macro declared in the scope around it. -/
theorem nodes_eq (missing : Script) :
    (∀ opening (st : BodyStack) (s : τ), node missing opening st s =
      (Grammar.node opening st.scopes s).result.map st.turn) ∧
    (∀ (st : BodyStack) keyword (s : τ), macroDeclaration missing st keyword s =
      Grammar.declaredName keyword.text s >>= fun name =>
        (Grammar.nodes (.macroBody name.value keyword.line) st.scopes.inner name.rest).result >>=
          fun body => .ok ⟨st.setCurrent (st.current.declareMacro name.value body.value), body.rest,
            Nat.le_of_lt (Nat.lt_of_le_of_lt body.le name.lt)⟩) ∧
    (∀ opening (st : BodyStack) (s : τ), nodes missing opening st s =
      (Grammar.nodes opening st.scopes s).result.map st.reached) := by
  apply node.mutual_induct
  · intro opening st s ih
    rw [node, Grammar.node]
    simp only [Logged.result_bind]
    refine bind_eq_map_bind ?_
    rintro ⟨⟨kind, text, line⟩, here, after, h1, h2, h3⟩
    dsimp only
    split
    · rfl
    · cases kind with
      | macroStart =>
        simp only [Logged.result_bind]
        have h := ih ⟨_, here, after, h1, h2, h3⟩ rfl
        dsimp only at h
        rw [h]
        cases Grammar.declaredName text after with
        | error e => rfl
        | ok name =>
          simp only [Logged.result_lift, ok_bind]
          cases (Grammar.nodes (.macroBody name.value line) st.scopes.inner name.rest).result with
          | error e => rfl
          | ok body => rfl
      | const =>
        simp only [Logged.result_bind]
        exact bind_eq_map_of_eq_map (constantDeclaration_eq ..) (fun r => rfl)
      | ident =>
        simp only [Logged.result_bind]
        exact bind_eq_map_of_eq_map (named_eq ..) (fun r => rfl)
      | newline =>
        change _ = Except.ok (st.turn _)
        simp only [turn, setCurrent_scopes_current]
        rfl
      | _ => rfl
  · intro st keyword s ih
    rw [macroDeclaration]
    cases Grammar.declaredName keyword.text s with
    | error e => rfl
    | ok name =>
      simp only [ok_bind]
      rw [ih name, scopes_push]
      cases (Grammar.nodes (.macroBody name.value keyword.line) st.scopes.inner name.rest).result with
      | error e => rfl
      | ok body => rfl
  · intro opening st s ihNode ihNodes
    rw [nodes, Grammar.nodes]
    simp only [Logged.result_bind]
    refine bind_eq_map_of_eq_map ihNode ?_
    rintro (⟨rest, le⟩ | ⟨scope, rest, lt⟩)
    · change _ = Except.ok (st.reached _)
      simp only [reached, setCurrent_scopes_current]
      rfl
    · have h := ihNodes (st.setCurrent scope) rest lt
      rw [scopes_setCurrent, reached_setCurrent] at h
      simp only [Logged.result_bind]
      exact bind_eq_map_of_eq_map h (fun r => rfl)

/-- The body that a macro's nodes leave on top is the one that is popped, over an unchanged stack. -/
theorem exists_of_macroDeclaration {missing : Script} {st : BodyStack} {keyword : Token} {s : τ}
    {r : Reached BodyStack s} (h : macroDeclaration missing st keyword s = .ok r) :
    ∃ name inner body, Grammar.declaredName keyword.text s = .ok name ∧
      nodes missing (.macroBody name.value keyword.line) st.push name.rest = .ok inner ∧
      inner.value = { st with bodies := body :: st.bodies } ∧ inner.rest = r.rest ∧
      r.value = st.setCurrent (st.current.declareMacro name.value body) := by
  rw [(nodes_eq missing).2.1] at h
  obtain ⟨name, hname, h⟩ := exists_of_bind_eq_ok h
  obtain ⟨body, hbody, h⟩ := exists_of_bind_eq_ok h
  cases h
  have hinner := (nodes_eq missing).2.2 (.macroBody name.value keyword.line) st.push name.rest
  rw [scopes_push, hbody] at hinner
  exact ⟨name, _, body.value, hname, hinner, rfl, rfl, rfl⟩

/-- Nodes are read in isolation. Over one stack of scopes they are read as the grammar reads them,
whatever a pop makes of an empty stack. A node that ends its scope leaves the stack as it is, and any
other changes at most the innermost scope. A macro's nodes leave one body on the stack as it was, and
this body is what the innermost scope around the macro then has under the declared name; nothing
else has changed. -/
theorem nodes_isolated (missing : Script) (opening : Opening) (st : BodyStack) (s : τ) :
    node missing opening st s = (Grammar.node opening st.scopes s).result.map st.turn ∧
      (∀ st' rest le, node missing opening st s = .ok (.closed st' rest le) → st' = st) ∧
      (∀ st' rest lt, node missing opening st s = .ok (.extended st' rest lt) → st.SameBelow st') ∧
      ∀ keyword r, macroDeclaration missing st keyword s = .ok r →
        ∃ name inner body, Grammar.declaredName keyword.text s = .ok name ∧
          nodes missing (.macroBody name.value keyword.line) st.push name.rest = .ok inner ∧
          inner.value = { st with bodies := body :: st.bodies } ∧ inner.rest = r.rest ∧
          st.SameBelow r.value ∧
          r.value.current = { st.current with macros := r.value.current.macros } ∧
          ∀ m, r.value.current.macros.get? m =
            if m = name.value then some body else st.current.macros.get? m := by
  have hnode := (nodes_eq missing).1 opening st s
  refine ⟨hnode, fun st' rest le h => ?_, fun st' rest lt h => ?_, fun keyword r h => ?_⟩
  · rw [hnode] at h
    obtain ⟨e, -, he⟩ := exists_of_map_eq_ok h
    cases e with
    | closed rest' le' => cases he; rfl
    | extended scope rest' lt' => cases he
  · rw [hnode] at h
    obtain ⟨e, -, he⟩ := exists_of_map_eq_ok h
    cases e with
    | closed rest' le' => cases he
    | extended scope rest' lt' => cases he; exact st.sameBelow_setCurrent scope
  · obtain ⟨name, inner, body, hname, hinner, hbody, hrest, hr⟩ := exists_of_macroDeclaration h
    refine ⟨name, inner, body, hname, hinner, hbody, hrest, ?_, ?_, ?_⟩
    · rw [hr]
      exact st.sameBelow_setCurrent _
    · rw [hr, current_setCurrent]
      rfl
    · rw [hr, current_setCurrent]
      exact fun m => NameTable.get?_insert ..

end Reading

/-- A macro inside another macro's body. Its own body has a label of the same name as the body around
it, a constant and a third macro, which it uses. -/
theorem nodes_isolated_third :
    let names : Registries := { Registries.empty with commands := (∅ : NameTable _).insert "nop" ⟨1⟩ }
    let st : BodyStack := ⟨names, Script.empty.declareConstant "k" (.integer 7),
      [Script.empty.declareLabel "a"]⟩
    let keyword : Token := ⟨.macroStart, "macro", 1⟩
    let m : EndMarker := ⟨⟨.eof, "", 5⟩, rfl⟩
    let tokens : List Token := [⟨.ident, "m", 1⟩, ⟨.ident, "a", 1⟩, ⟨.colon, ":", 1⟩,
      ⟨.const, "const", 2⟩, ⟨.ident, "c", 2⟩, ⟨.ident, "k", 2⟩, ⟨.newline, "", 2⟩,
      ⟨.macroStart, "macro", 3⟩, ⟨.ident, "n", 3⟩, ⟨.ident, "nop", 3⟩, ⟨.newline, "", 3⟩,
      ⟨.macroEnd, "endmacro", 4⟩, ⟨.ident, "n", 4⟩, ⟨.newline, "", 4⟩, ⟨.macroEnd, "endmacro", 5⟩]
    let opening : Opening := .macroBody "o" 1
    (∃ r, macroDeclaration .empty st keyword (TokenRow.mk tokens (.ok m)) = .ok r ∧
      st.SameBelow r.value ∧ r.value.current = { st.current with macros := r.value.current.macros } ∧
      ∃ body, ∀ name, r.value.current.macros.get? name = if name = "m" then some body else none) ∧
    (∃ st' rest lt, node .empty opening st (TokenRow.mk (keyword :: tokens) (.ok m)) =
      .ok (.extended st' rest lt) ∧ st.SameBelow st') ∧
    ∃ st' rest le, node .empty opening st (TokenRow.mk [⟨.macroEnd, "endmacro", 5⟩] (.ok m)) =
      .ok (.closed st' rest le) ∧ st' = st := by
  intro names st keyword m tokens opening
  obtain ⟨r, hr⟩ : ∃ r, macroDeclaration .empty st keyword (TokenRow.mk tokens (.ok m)) = .ok r :=
    ⟨_, by cbv⟩
  obtain ⟨st', rest, lt, hextended⟩ : ∃ st' rest lt,
      node .empty opening st (TokenRow.mk (keyword :: tokens) (.ok m)) =
        .ok (.extended st' rest lt) := ⟨_, _, _, by cbv⟩
  obtain ⟨top, left, le, hclosed⟩ : ∃ top left le,
      node .empty opening st (TokenRow.mk [⟨.macroEnd, "endmacro", 5⟩] (.ok m)) =
        .ok (.closed top left le) := ⟨_, _, _, by cbv⟩
  refine ⟨⟨r, hr, ?_⟩, ⟨st', rest, lt, hextended, ?_⟩, ⟨top, left, le, hclosed, ?_⟩⟩
  · obtain ⟨name, inner, body, hname, -, -, -, hbelow, hcurrent, hmacros⟩ :=
      (nodes_isolated .empty opening st _).2.2.2 keyword r hr
    cases hname
    exact ⟨hbelow, hcurrent, body, hmacros⟩
  · exact (nodes_isolated .empty opening st _).2.2.1 st' rest lt hextended
  · exact (nodes_isolated .empty opening st _).2.1 top left le hclosed

end BodyStack

end CommandScript
