import CommandScript.Proofs.Scripts.Placement
import Mathlib
/-! # Where commands come from

Every command of a compiled script is written somewhere in the text: on a line of its own or inside
a macro's body that has been copied, perhaps several times over. On the way into the script its
labels become addresses and its addresses move, and nothing else about it changes. The text itself
has no way to write an address. So an argument of a compiled command is a bare address exactly if a
bare label is written in its place.
-/
namespace CommandScript

/-- What may become of a tree on its way into a script. -/
inductive Expr.Becomes : Expr → Expr → Prop
  | refl (e : Expr) : Becomes e e
  | label (name : String) (a : Address) : Becomes (.label name) (.address a)
  | address (a a' : Address) : Becomes (.address a) (.address a')
  | unary {op : UnaryOp} {e e' : Expr} (h : Becomes e e') : Becomes (.unary op e) (.unary op e')
  | binary {op : BinaryOp} {l l' r r' : Expr} (hl : Becomes l l') (hr : Becomes r r') :
    Becomes (.binary op l r) (.binary op l' r')

namespace Expr.Becomes
variable {e e' e'' : Expr}

theorem trans (h : Becomes e e') (h' : Becomes e' e'') : Becomes e e'' := by
  induction h generalizing e'' with
  | refl e => exact h'
  | label name a =>
    cases h' with
    | refl => exact .label name a
    | address _ a' => exact .label name a'
  | address a a' =>
    cases h' with
    | refl => exact .address a a'
    | address _ a'' => exact .address a a''
  | unary h ih =>
    cases h' with
    | refl => exact .unary h
    | unary h' => exact .unary (ih h')
  | binary hl hr ihl ihr =>
    cases h' with
    | refl => exact .binary hl hr
    | binary hl' hr' => exact .binary (ihl hl') (ihr hr')

theorem rebase (labels : NameTable Address) (base : Address) (e : Expr) :
    Becomes e (e.rebase labels base) := by
  induction e with
  | label name =>
    unfold Expr.rebase
    split
    · exact .label name _
    · exact .refl _
  | address a => exact .address a _
  | unary op e ih => exact .unary ih
  | binary op l r ihl ihr => exact .binary ihl ihr
  | _ => exact .refl _

theorem link (labels : NameTable Address) (e : Expr) : Becomes e (e.link labels).value := by
  induction e with
  | label name =>
    unfold Expr.link
    split
    · exact .label name _
    · exact .refl _
  | unary op e ih => exact .unary ih
  | binary op l r ihl ihr =>
    unfold Expr.link Linked.pair
    split
    · exact .binary ihl (.refl r)
    · exact .binary ihl ihr
  | _ => exact .refl _

end Expr.Becomes

/-- The same command, up to what has become of its arguments. -/
structure Command.Becomes (c d : Command) : Prop where
  type_eq : d.type = c.type
  args : List.Forall₂ Expr.Becomes c.args d.args

namespace Command.Becomes
variable {c d : Command}

theorem refl (c : Command) : c.Becomes c := ⟨rfl, List.forall₂_same.mpr (fun e _ => .refl e)⟩

theorem rebase (h : c.Becomes d) (labels : NameTable Address) (base : Address) :
    c.Becomes (d.rebase labels base) := by
  refine ⟨h.type_eq, List.forall₂_map_right_iff.mpr (h.args.imp (fun e e' he => ?_))⟩
  exact he.trans (.rebase labels base e')

theorem link (h : c.Becomes d) (labels : NameTable Address) :
    c.Becomes ⟨d.type, d.args.map (fun e => (e.link labels).value)⟩ := by
  refine ⟨h.type_eq, List.forall₂_map_right_iff.mpr (h.args.imp (fun e e' he => ?_))⟩
  exact he.trans (.link labels e')

/-- An argument becomes the one at the same place. -/
theorem getElem? (h : c.Becomes d) (place : Nat) :
    (∀ e, c.args[place]? = some e → ∃ e', d.args[place]? = some e' ∧ e.Becomes e') ∧
      ∀ e', d.args[place]? = some e' → ∃ e, c.args[place]? = some e ∧ e.Becomes e' := by
  obtain ⟨hlength, hargs⟩ := List.forall₂_iff_get.mp h.args
  constructor
  · intro e he
    obtain ⟨hlt, rfl⟩ := List.getElem?_eq_some_iff.mp he
    have hlt' : place < d.args.length := hlength ▸ hlt
    exact ⟨_, List.getElem?_eq_getElem hlt', hargs place hlt hlt'⟩
  · intro e' he'
    obtain ⟨hlt', rfl⟩ := List.getElem?_eq_some_iff.mp he'
    have hlt : place < c.args.length := hlength ▸ hlt'
    exact ⟨_, List.getElem?_eq_getElem hlt, hargs place hlt hlt'⟩

end Command.Becomes

namespace Grammar

variable (ending : Except LexError EndMarker)

/-- The line has the command at its end, behind heads that name no command or the empty one. -/
inductive WritesCommand (sc : Scopes) (c : Command) : List Token → Prop
  | here {head : Token} {ts rest : List Token} (hname : head.kind = .ident)
    (hcmd : sc.names.commands.get? head.text = some c.type) (htype : c.type ≠ .none)
    (hargs : ReadsTail ending sc.resolve ts c.args rest) : WritesCommand sc c (head :: ts)
  | behind {head : Token} {ts : List Token} (hname : head.kind = .ident)
    (hhead : ∀ type, sc.names.commands.get? head.text = some type → type = .none)
    (hmore : WritesCommand sc c ts) : WritesCommand sc c (head :: ts)

/-- The command is written somewhere in a row of nodes: on a line behind some of them, or in a
macro's body behind some of them. -/
inductive Written (c : Command) : Scopes → List Token → Prop
  | line {sc : Scopes} {ts ts' : List Token} {s : Script} (hbefore : ReadsNodes ending sc ts s ts')
    (hline : WritesCommand ending (sc.withCurrent s) c ts') : Written c sc ts
  | inside {sc : Scopes} {keyword name : Token} {ts ts' : List Token} {s : Script}
    (hbefore : ReadsNodes ending sc ts s (keyword :: name :: ts'))
    (hkeyword : keyword.kind = .macroStart) (hname : name.kind = .ident)
    (hbody : Written c (sc.withCurrent s).inner ts') : Written c sc ts

variable {ending} {sc : Scopes} {ts rest : List Token} {c : Command}

/-- What is written behind a node is written in the row that starts with the node. -/
theorem Written.behind {s₁ : Script} {ts₁ : List Token}
    (hnode : ∀ s rest, ReadsNodes ending (sc.withCurrent s₁) ts₁ s rest →
      ReadsNodes ending sc ts s rest)
    (h : Written ending c (sc.withCurrent s₁) ts₁) : Written ending c sc ts := by
  cases h with
  | line hbefore hline => exact .line (hnode _ _ hbefore) hline
  | inside hbefore hkeyword hname hbody => exact .inside (hnode _ _ hbefore) hkeyword hname hbody

/-- A copy leaves the constants of its scope as they are, so that arguments are read as before. -/
theorem WritesCommand.of_splice {body : Script}
    (h : WritesCommand ending (sc.withCurrent (sc.current.splice body)) c ts) :
    WritesCommand ending sc c ts := by
  induction h with
  | here hname hcmd htype hargs => exact .here hname hcmd htype hargs
  | behind hname hhead hmore ih => exact .behind hname hhead ih

theorem WritesCommand.address_not_mem (h : WritesCommand ending sc c ts) (hsc : sc.Sound) :
    ∀ e ∈ c.args, ∀ a, .address a ∉ e.leaves := by
  induction h with
  | here hname hcmd htype hargs => exact hargs.address_not_mem hsc
  | behind hname hhead hmore ih => exact ih

/-- No address is written anywhere. -/
theorem Written.address_not_mem (h : Written ending c sc ts) (hsc : sc.Sound) :
    ∀ e ∈ c.args, ∀ a, .address a ∉ e.leaves := by
  induction h with
  | line hbefore hline => exact hline.address_not_mem (hsc.withCurrent (hbefore.sound hsc))
  | inside hbefore hkeyword hname hbody ih => exact ih (hsc.withCurrent (hbefore.sound hsc)).inner

end Grammar

/-- The commands of a script, and those that its macros copy, are all of a kind. -/
structure Script.MadeOf (P : Command → Prop) (s : Script) : Prop where
  own : ∀ c ∈ s.commands, P c
  macros : ∀ entry ∈ s.macros.entries, ∀ c ∈ entry.2.commands, P c

namespace Grammar
variable {ending : Except LexError EndMarker} {sc : Scopes} {ts rest : List Token} {s : Script}
  {P : Command → Prop} (hrebase : ∀ c labels base, P c → P (Command.rebase labels base c))
include hrebase

theorem ReadsLine.madeOf (h : ReadsLine ending sc ts s rest) (hsc : ∀ t ∈ sc.all, t.MadeOf P)
    (hwritten : ∀ c, WritesCommand ending sc c ts → P c) : s.MadeOf P := by
  induction h with
  | ended hend => exact hsc _ List.mem_cons_self
  | emptyHead hname hcmd hmore ih =>
    refine ih hsc (fun c hc => hwritten c (.behind hname (fun type htype => ?_) hc))
    rw [hcmd] at htype
    exact (Option.some.inj htype).symm
  | @macroHead sc head ts rest body s hname hcmd hfound hmore ih =>
    obtain ⟨hcurrent, henclosing⟩ := List.forall_mem_cons.mp hsc
    obtain ⟨t, ht, hget⟩ := List.exists_of_findSome?_eq_some hfound
    have hbody : ∀ c ∈ body.commands, P c := (hsc t ht).macros _ (NameTable.mem_of_get? hget)
    refine ih (List.forall_mem_cons.mpr ⟨⟨fun c hc => ?_, hcurrent.macros⟩, henclosing⟩) ?_
    · rcases Array.mem_append.mp hc with hc | hc
      · exact hcurrent.own c hc
      · obtain ⟨d, hd, rfl⟩ := Array.mem_map.mp hc
        exact hrebase d _ _ (hbody d hd)
    · intro c hc
      refine hwritten c (.behind hname (fun type htype => ?_) hc.of_splice)
      rw [hcmd] at htype
      cases htype
  | command hname hcmd htype hargs harity =>
    have hcurrent := hsc _ List.mem_cons_self
    refine ⟨fun c hc => ?_, hcurrent.macros⟩
    rcases Array.mem_push.mp hc with hc | rfl
    · exact hcurrent.own c hc
    · exact hwritten _ (.here hname hcmd htype hargs)

/-- What holds of every command that is written, and of a copy of a command with the command, holds
of every command of the script that is read. -/
theorem ReadsNodes.madeOf (h : ReadsNodes ending sc ts s rest) (hsc : ∀ t ∈ sc.all, t.MadeOf P)
    (hwritten : ∀ c, Written ending c sc ts → P c) : s.MadeOf P := by
  induction h with
  | done => exact hsc _ List.mem_cons_self
  | blank hline hmore ih =>
    exact ih hsc (fun c hc => hwritten c (hc.behind (fun _ _ => .blank hline)))
  | label hname hcolon hnew hmore ih =>
    obtain ⟨hcurrent, henclosing⟩ := List.forall_mem_cons.mp hsc
    refine ih (List.forall_mem_cons.mpr ⟨⟨hcurrent.own, hcurrent.macros⟩, henclosing⟩) ?_
    exact fun c hc => hwritten c (hc.behind (fun _ _ => .label hname hcolon hnew))
  | constant hkeyword hname he hmore ih =>
    obtain ⟨hcurrent, henclosing⟩ := List.forall_mem_cons.mp hsc
    refine ih (List.forall_mem_cons.mpr ⟨⟨hcurrent.own, hcurrent.macros⟩, henclosing⟩) ?_
    exact fun c hc => hwritten c (hc.behind (fun _ _ => .constant hkeyword hname he))
  | macroBody hkeyword hname hbody hclose hmore ihBody ih =>
    obtain ⟨hcurrent, henclosing⟩ := List.forall_mem_cons.mp hsc
    have hinner := ihBody (List.forall_mem_cons.mpr ⟨⟨nofun, nofun⟩, hsc⟩)
      (fun c hc => hwritten c (.inside .done hkeyword hname hc))
    refine ih (List.forall_mem_cons.mpr ⟨⟨hcurrent.own, fun entry hentry => ?_⟩, henclosing⟩) ?_
    · rcases NameTable.mem_insertEntry hentry with rfl | hentry
      · exact hinner.own
      · exact hcurrent.macros entry hentry
    · exact fun c hc => hwritten c (hc.behind (fun _ _ => .macroBody hkeyword hname hbody hclose))
  | line hname hline hmore ih =>
    obtain ⟨hcurrent, henclosing⟩ := List.forall_mem_cons.mp hsc
    have hmade := hline.madeOf hrebase hsc (fun c hc => hwritten c (.line .done hc))
    refine ih (List.forall_mem_cons.mpr ⟨hmade, henclosing⟩) ?_
    exact fun c hc => hwritten c (hc.behind (fun _ _ => .line hname hline))

end Grammar

variable {text : String} {names : Registries} {config : LookaheadConfig} {script : Script}

/-- The command is written somewhere in the text. -/
def IsWritten (text : String) (names : Registries) (c : Command) : Prop :=
  Grammar.Written (TokenRow.ofSource (Lexer.ofString text)).ending c (.outermost names)
    (TokenRow.ofSource (Lexer.ofString text)).tokens

/-- Every command of a compiled script has become of one that is written in the text. -/
theorem exists_isWritten_of_compile (h : (compile text names config).result = .ok script)
    {d : Command} (hd : d ∈ script.commands) : ∃ c, IsWritten text names c ∧ c.Becomes d := by
  obtain ⟨read, hread, hlink, rfl⟩ := exists_readsNodes_of_compileSource h
  have hmade : read.MadeOf (fun d => ∃ c, IsWritten text names c ∧ c.Becomes d) := by
    refine hread.madeOf ?_ (List.forall_mem_singleton.mpr ⟨nofun, nofun⟩) ?_
    · rintro d labels base ⟨c, hc, hbecomes⟩
      exact ⟨c, hc, hbecomes.rebase labels base⟩
    · exact fun c hc => ⟨c, hc, .refl c⟩
  rw [Script.value_link hlink] at hd
  obtain ⟨d', hd', rfl⟩ := Array.mem_map.mp hd
  obtain ⟨c, hc, hbecomes⟩ := hmade.own d' hd'
  exact ⟨c, hc, hbecomes.link read.labels⟩

/-- The argument at a place of a command is written as a label and nothing more. -/
def WrittenAsLabel (text : String) (names : Registries) (d : Command) (place : Nat) : Prop :=
  ∃ c name, IsWritten text names c ∧ c.Becomes d ∧ c.args[place]? = some (.label name)

/-- In a compiled script the bare addresses are what is written as a bare label. -/
theorem writtenAsLabel_iff (h : (compile text names config).result = .ok script) {d : Command}
    (hd : d ∈ script.commands) {place : Nat} :
    WrittenAsLabel text names d place ↔ ∃ a, d.args[place]? = some (.address a) := by
  constructor
  · rintro ⟨c, name, -, hbecomes, hlabel⟩
    obtain ⟨e, he, hbecomes⟩ := (hbecomes.getElem? place).1 _ hlabel
    cases hbecomes with
    | refl =>
      have hleft := label_not_mem_of_compile h d hd _ (List.mem_of_getElem? he) name
      exact absurd List.mem_cons_self hleft
    | label _ a => exact ⟨a, he⟩
  · rintro ⟨a, ha⟩
    obtain ⟨c, hc, hbecomes⟩ := exists_isWritten_of_compile h hd
    obtain ⟨e, he, hbecomesArg⟩ := (hbecomes.getElem? place).2 _ ha
    have hnone := hc.address_not_mem (.outermost names) e (List.mem_of_getElem? he)
    cases hbecomesArg with
    | refl => exact absurd List.mem_cons_self (hnone a)
    | label name _ => exact ⟨c, name, hc, hbecomes, he⟩
    | address a' _ => exact absurd List.mem_cons_self (hnone a')

end CommandScript
