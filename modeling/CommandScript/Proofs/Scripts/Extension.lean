import CommandScript.Proofs.Grammar.Joining
import CommandScript.Proofs.Scripts.Leaves
import Mathlib
/-! # Extended sources

Reading more of a text only ever appends commands and declares labels that are new. Linking settles
the labels of the earlier commands by the earlier declarations. So a script that is compiled from a
text stays the first part of any script that is compiled from the text and more lines behind it.
-/
namespace CommandScript

/-- Linking with more labels gives the same, if no label is missing. -/
theorem Expr.link_congr {labels labels' : NameTable Address}
    (hlabels : ∀ name pc, labels.get? name = some pc → labels'.get? name = some pc) {e : Expr}
    (h : (e.link labels).missing = none) : e.link labels' = e.link labels := by
  induction e with
  | unary op e ih => rw [link, link, ih h]
  | binary op l r ihl ihr =>
    obtain ⟨hl, hr⟩ := Linked.missing_pair.mp h
    rw [link, link, ihl hl, ihr hr]
  | label name =>
    obtain ⟨pc, hpc⟩ := missing_link_label.mp h
    simp only [link, hpc, hlabels name pc hpc]
  | _ => rfl

namespace Script

/-- The second script starts with the commands of the first, and has its labels at the same
addresses. -/
structure Continues (s t : Script) : Prop where
  commands : ∃ more, t.commands = s.commands ++ more
  labels : ∀ name pc, s.label? name = some pc → t.label? name = some pc

namespace Continues

variable {s t u : Script}

theorem refl (s : Script) : s.Continues s := ⟨⟨#[], by simp⟩, fun _ _ h => h⟩

theorem trans (h : s.Continues t) (h' : t.Continues u) : s.Continues u := by
  obtain ⟨more, hmore⟩ := h.commands
  obtain ⟨more', hmore'⟩ := h'.commands
  refine ⟨⟨more ++ more', ?_⟩, fun name pc hpc => h'.labels name pc (h.labels name pc hpc)⟩
  rw [hmore', hmore, Array.append_assoc]

theorem push (s : Script) (c : Command) : s.Continues (s.push c) :=
  ⟨⟨#[c], rfl⟩, fun _ _ h => h⟩

theorem splice (s body : Script) : s.Continues (s.splice body) :=
  ⟨⟨body.commands.map (Command.rebase body.labels s.size), rfl⟩, fun _ _ h => h⟩

theorem declareConstant (s : Script) (name : String) (e : Expr) :
    s.Continues (s.declareConstant name e) := ⟨(refl s).commands, fun _ _ h => h⟩

theorem declareMacro (s : Script) (name : String) (body : Script) :
    s.Continues (s.declareMacro name body) := ⟨(refl s).commands, fun _ _ h => h⟩

theorem declareLabel {name : String} (hnew : s.label? name = none) :
    s.Continues (s.declareLabel name) := by
  refine ⟨(refl s).commands, fun name' pc hpc => ?_⟩
  have hne : name' ≠ name := by
    rintro rfl
    rw [hnew] at hpc
    cases hpc
  rw [label?, Script.declareLabel, NameTable.get?_insert, if_neg hne]
  exact hpc

/-- Linking keeps the first part of a script what it is when linked alone. -/
theorem link (h : s.Continues t) (hs : s.link.missing = none) (ht : t.link.missing = none) :
    s.link.value.Continues t.link.value := by
  obtain ⟨more, hmore⟩ := h.commands
  have hsame : s.commands.map (fun c =>
        (⟨c.type, c.args.map (fun e => (e.link t.labels).value)⟩ : Command)) =
      s.commands.map (fun c => ⟨c.type, c.args.map (fun e => (e.link s.labels).value)⟩) := by
    refine Array.map_congr_left (fun c hc => ?_)
    have hargs : c.args.map (fun e => (e.link t.labels).value) =
        c.args.map (fun e => (e.link s.labels).value) :=
      List.map_congr_left (fun e he => by
        rw [Expr.link_congr h.labels (Script.missing_link.mp hs c hc e he)])
    rw [hargs]
  rw [value_link hs, value_link ht, hmore, Array.map_append, hsame]
  exact ⟨⟨_, rfl⟩, h.labels⟩

end Continues

end Script

namespace Grammar

variable {ending : Except LexError EndMarker} {sc : Scopes} {ts rest : List Token} {s : Script}

theorem ReadsLine.continues (h : ReadsLine ending sc ts s rest) : sc.current.Continues s := by
  induction h with
  | ended _ => exact .refl _
  | emptyHead _ _ _ ih => exact ih
  | macroHead _ _ _ _ ih => exact (Script.Continues.splice _ _).trans ih
  | command _ _ _ _ _ => exact .push _ _

theorem ReadsNodes.continues (h : ReadsNodes ending sc ts s rest) : sc.current.Continues s := by
  induction h with
  | done => exact .refl _
  | blank _ _ ih => exact ih
  | label _ _ hnew _ ih => exact (Script.Continues.declareLabel hnew).trans ih
  | constant _ _ _ _ ih => exact (Script.Continues.declareConstant _ _ _).trans ih
  | macroBody _ _ _ _ _ _ ih => exact (Script.Continues.declareMacro _ _ _).trans ih
  | line _ hline _ ih => exact hline.continues.trans ih

end Grammar

variable {names : Registries} {s t : Script}

/-- What is read off a row continues what is read off the tokens in front of one of its newlines. -/
theorem continues_of_readScript {ts after : List Token} {newline : Token} {m : EndMarker}
    {ending : Except LexError EndMarker} (hk : newline.kind = .newline)
    (hclean : TokenRow.Clean ending ⟨ts ++ newline :: after, ending⟩)
    (hs : (readScript names (TokenRow.mk ts (.ok m))).result = .ok s)
    (ht : (readScript names (TokenRow.mk (ts ++ newline :: after) ending)).result = .ok t) :
    s.Continues t := by
  have hfront : TokenRow.Clean (.ok m) ⟨ts, .ok m⟩ :=
    ⟨rfl, fun u hu => hclean.ne_eof u (List.mem_append_left _ hu)⟩
  obtain ⟨-, hread⟩ := (Grammar.readScript_row_iff hfront).mp hs
  obtain ⟨⟨m', rfl⟩, -⟩ := (Grammar.readScript_row_iff hclean).mp ht
  obtain ⟨left, hremains, hjoined⟩ := hread.join hk
  have hleft : TokenRow.Clean (.ok m') ⟨left, .ok m'⟩ := by
    refine ⟨rfl, fun u hu => hclean.ne_eof u (List.mem_append_right _ ?_)⟩
    rcases hremains with rfl | ⟨-, rfl⟩
    · exact hu
    · exact List.mem_cons_of_mem _ hu
  simp only [readScript, Logged.result_bind] at ht
  obtain ⟨p, hp, ht⟩ := exists_of_bind_eq_ok ht
  obtain ⟨q, hq, hvalue, -⟩ := hjoined.resume ⟨p, hp, Except.ok.inj ht, rfl⟩
  obtain ⟨-, last, hmore, -⟩ := Grammar.readsNodes_of_nodes.2 _ _ _ hleft q hq
  rw [← hvalue]
  exact hmore.continues

variable {text more : String} {config : LookaheadConfig}

theorem continues_of_compile (hs : (compile text names config).result = .ok s)
    (ht : (compile (text ++ "\n" ++ more) names config).result = .ok t) : s.Continues t := by
  obtain ⟨read, hread, hlink, rfl⟩ := exists_readScript_of_compileSource hs
  obtain ⟨read', hread', hlink', rfl⟩ := exists_readScript_of_compileSource ht
  have hclean := TokenRow.clean_ofSource (Lexer.ofString text)
  obtain ⟨⟨m, hm⟩, -⟩ := (Grammar.readScript_row_iff hclean).mp hread
  have hrow : TokenRow.ofSource (Lexer.ofString text) =
      ⟨(TokenRow.ofSource (Lexer.ofString text)).tokens, .ok m⟩ := by rw [← hm]
  obtain ⟨newline, line, hk, hjoined⟩ := TokenRow.ofSource_append_newline hrow more.toList
  have hclean' := TokenRow.clean_ofSource (Lexer.ofString (text ++ "\n" ++ more))
  have htext : Lexer.ofString (text ++ "\n" ++ more) =
      ⟨(Lexer.ofString text).rest ++ '\n' :: more.toList, (Lexer.ofString text).line⟩ := by
    simp [Lexer.ofString, String.toList_append]
  rw [htext, hjoined] at hclean' hread'
  rw [hrow] at hread
  exact (continues_of_readScript hk hclean' hread hread').link hlink hlink'

/-- Compiling a text with more lines behind it keeps the commands of the text where and what they
are, and its labels where they are. -/
theorem compile_extended (hs : (compile text names config).result = .ok s)
    (ht : (compile (text ++ "\n" ++ more) names config).result = .ok t) :
    s.commands.toList <+: t.commands.toList ∧
      ∀ name pc, s.label? name = some pc → t.label? name = some pc := by
  have h := continues_of_compile hs ht
  obtain ⟨rest, hrest⟩ := h.commands
  exact ⟨⟨rest.toList, by rw [hrest, Array.toList_append]⟩, h.labels⟩

/-- The last line ends with the text, in a comment, and the lines behind it give the constant that it
uses another value. -/
theorem compile_extended_rebound :
    let text := "const n a\na: go n #b:"
    let more := "const n b\nb: go n"
    let names : Registries := { Registries.empty with commands := (∅ : NameTable _).insert "go" ⟨3⟩ }
    let labels := (∅ : NameTable Address).insert "a" 0
    let s : Script :=
      ⟨#[⟨⟨3⟩, [.address 0]⟩], labels, ∅, (∅ : NameTable Expr).insert "n" (.label "a")⟩
    let t : Script :=
      ⟨#[⟨⟨3⟩, [.address 0]⟩, ⟨⟨3⟩, [.address 1]⟩], labels.insert "b" 1, ∅,
        (∅ : NameTable Expr).insert "n" (.label "b")⟩
    (compile text names ⟨1, 2⟩).result = .ok s ∧
      (compile (text ++ "\n" ++ more) names ⟨1, 2⟩).result = .ok t ∧
      s.commands.toList <+: t.commands.toList ∧
        ∀ name pc, s.label? name = some pc → t.label? name = some pc := by
  intro text more names labels s t
  have hs : (compile text names ⟨1, 2⟩).result = .ok s := by cbv
  have ht : (compile (text ++ "\n" ++ more) names ⟨1, 2⟩).result = .ok t := by cbv
  exact ⟨hs, ht, compile_extended hs ht⟩

end CommandScript
