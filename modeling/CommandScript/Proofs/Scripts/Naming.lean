import CommandScript.Proofs.Config.Tables
import CommandScript.Proofs.Grammar.ExpressionReader
import CommandScript.Proofs.Scripts.Placement
import CommandScript.Proofs.Tokens.Segments
import Mathlib
/-! # Names in compiled scripts

In a compiled script, and in every macro body inside it at any depth, the labels stand in the order
of their names, each of these is a word of the text, and every command has a type that the registries
give some name. Reading takes names off the front of its tokens and types from the registries only,
and a copy of a macro's body brings types along that its own commands had.
-/
namespace CommandScript

namespace TokenRow

/-- Every token of a text's row was given by some call of the lexer. -/
theorem exists_next_of_mem {lexer : Lexer} {t : Token} (h : t ∈ (ofSource lexer).tokens) :
    ∃ lexer' : Lexer, lexer'.next.1 = .ok t := by
  induction lexer using ofSource.induct with
  | case1 lexer e rest hnext =>
    rw [ofSource_of_error hnext] at h
    cases h
  | case2 lexer u rest hnext hk =>
    rw [ofSource_of_ok hnext, dif_pos hk] at h
    cases h
  | case3 lexer u hk hnext _ ih =>
    rw [ofSource_of_ok hnext, dif_neg hk] at h
    rcases List.mem_cons.mp h with rfl | h
    · exact ⟨lexer, congrArg Prod.fst hnext⟩
    · exact ih h

end TokenRow

namespace Grammar
variable {ending : Except LexError EndMarker} {sc : Scopes} {ts rest : List Token}

theorem EndsLine.suffix (h : EndsLine ending ts rest) : rest <:+ ts := by
  cases h with
  | newline _ => exact List.suffix_cons _ _
  | input _ => exact List.suffix_rfl

theorem ReadsExpr.suffix {e : Expr} (h : ReadsExpr ending sc.resolve ts e rest) : rest <:+ ts := by
  obtain ⟨lt, h⟩ := h
  obtain ⟨w, hw, -⟩ := (taken_of_expressions.2.1 _ _ h).1
  exact ⟨w, (congrArg TokenRow.tokens hw).symm⟩

theorem ReadsArgs.suffix {args : List Expr} (h : ReadsArgs ending sc.resolve ts args rest) :
    rest <:+ ts := by
  induction h with
  | last he hend => exact hend.suffix.trans he.suffix
  | more he hcomma hmore ih => exact (ih.trans (List.suffix_cons _ _)).trans he.suffix

theorem ReadsTail.suffix {args : List Expr} (h : ReadsTail ending sc.resolve ts args rest) :
    rest <:+ ts := by
  rcases h with ⟨-, hend⟩ | h
  · exact hend.suffix
  · exact h.suffix

theorem ReadsLine.suffix {s : Script} (h : ReadsLine ending sc ts s rest) : rest <:+ ts := by
  induction h with
  | ended hend => exact hend.suffix
  | emptyHead _ _ _ ih => exact ih.trans (List.suffix_cons _ _)
  | macroHead _ _ _ _ ih => exact ih.trans (List.suffix_cons _ _)
  | command _ _ _ hargs _ => exact hargs.suffix.trans (List.suffix_cons _ _)

theorem ReadsNodes.suffix {s : Script} (h : ReadsNodes ending sc ts s rest) : rest <:+ ts := by
  have hskip {t : Token} {us vs : List Token} (h : us <:+ vs) : us <:+ t :: vs :=
    h.trans (List.suffix_cons _ _)
  induction h with
  | done => exact List.suffix_rfl
  | blank _ _ ih => exact hskip ih
  | label _ _ _ _ ih => exact hskip (hskip ih)
  | constant _ _ he _ ih => exact hskip (hskip (ih.trans he.suffix))
  | macroBody _ _ _ _ _ ihBody ih =>
    exact hskip (hskip (ih.trans ((List.suffix_cons _ _).trans ihBody)))
  | line _ hline _ ih => exact ih.trans hline.suffix

end Grammar

namespace Script

/-- Labels in the order of their names, which are words, and commands whose types have a name. -/
structure Named (names : Registries) (s : Script) : Prop where
  ordered : s.labels.Ordered
  word : ∀ entry ∈ s.labels.entries, Lexical.Word entry.1.toList
  exists_name : ∀ c ∈ s.commands, ∃ name, names.commands.get? name = some c.type

namespace Named
variable {names : Registries} {s body : Script}

theorem empty (names : Registries) : Script.empty.Named names :=
  ⟨NameTable.ordered_empty, List.forall_mem_nil _, fun _ hc => absurd hc (Array.not_mem_empty _)⟩

theorem deep_empty (names : Registries) : Script.empty.Deep (Script.Named names) :=
  .intro (.empty names) (List.forall_mem_nil _)

theorem push (h : s.Named names) {c : Command}
    (hc : ∃ name, names.commands.get? name = some c.type) : (s.push c).Named names := by
  refine ⟨h.ordered, h.word, fun d hd => ?_⟩
  rcases Array.mem_push.mp hd with hd | rfl
  · exact h.exists_name d hd
  · exact hc

theorem splice (h : s.Named names) (hbody : body.Named names) : (s.splice body).Named names := by
  refine ⟨h.ordered, h.word, fun d hd => ?_⟩
  rcases Array.mem_append.mp hd with hd | hd
  · exact h.exists_name d hd
  · obtain ⟨c, hc, rfl⟩ := Array.mem_map.mp hd
    exact hbody.exists_name c hc

theorem declareLabel (h : s.Named names) {name : String} (hname : Lexical.Word name.toList) :
    (s.declareLabel name).Named names := by
  refine ⟨h.ordered.insert name s.size, fun entry hentry => ?_, h.exists_name⟩
  rcases NameTable.mem_insertEntry hentry with rfl | hentry
  · exact hname
  · exact h.word entry hentry

theorem link (h : s.Named names) (hlink : s.link.missing = none) : s.link.value.Named names := by
  rw [value_link hlink]
  refine ⟨h.ordered, h.word, fun d hd => ?_⟩
  obtain ⟨c, hc, rfl⟩ := Array.mem_map.mp hd
  exact h.exists_name c hc

end Named

end Script

namespace Grammar
variable {ending : Except LexError EndMarker} {sc : Scopes} {ts rest : List Token} {s : Script}

theorem ReadsLine.named (h : ReadsLine ending sc ts s rest)
    (hsc : ∀ t ∈ sc.all, t.Deep (Script.Named sc.names)) : s.Deep (Script.Named sc.names) := by
  induction h with
  | ended hend => exact hsc _ List.mem_cons_self
  | emptyHead hname hcmd hmore ih => exact ih hsc
  | macroHead hname hcmd hfound hmore ih =>
    obtain ⟨hcurrent, henclosing⟩ := List.forall_mem_cons.mp hsc
    obtain ⟨t, ht, hget⟩ := List.exists_of_findSome?_eq_some hfound
    have hbody := (hsc t ht).macros _ (NameTable.mem_of_get? hget)
    refine ih (List.forall_mem_cons.mpr ⟨?_, henclosing⟩)
    exact .intro (hcurrent.own.splice hbody.own) hcurrent.macros
  | command hname hcmd htype hargs harity =>
    have hcurrent := hsc _ List.mem_cons_self
    exact .intro (hcurrent.own.push ⟨_, hcmd⟩) hcurrent.macros

/-- All open scopes are carried along, since a macro may come from any of them, and so are the names
that are still to be read. -/
theorem ReadsNodes.named (h : ReadsNodes ending sc ts s rest)
    (hsc : ∀ t ∈ sc.all, t.Deep (Script.Named sc.names))
    (hwords : ∀ t ∈ ts, t.kind = .ident → Lexical.Word t.text.toList) :
    s.Deep (Script.Named sc.names) := by
  induction h with
  | done => exact hsc _ List.mem_cons_self
  | blank hline hmore ih => exact ih hsc (List.forall_mem_cons.mp hwords).2
  | label hname hcolon hnew hmore ih =>
    obtain ⟨hcurrent, henclosing⟩ := List.forall_mem_cons.mp hsc
    obtain ⟨hword, -, hwords⟩ := by simpa only [List.forall_mem_cons] using hwords
    refine ih (List.forall_mem_cons.mpr ⟨?_, henclosing⟩) hwords
    exact .intro (hcurrent.own.declareLabel (hword hname)) hcurrent.macros
  | constant hkeyword hname he hmore ih =>
    obtain ⟨hcurrent, henclosing⟩ := List.forall_mem_cons.mp hsc
    refine ih (List.forall_mem_cons.mpr ⟨?_, henclosing⟩) fun t ht => hwords t ?_
    · exact .intro ⟨hcurrent.own.ordered, hcurrent.own.word, hcurrent.own.exists_name⟩
        hcurrent.macros
    · exact List.mem_cons_of_mem _ (List.mem_cons_of_mem _ (he.suffix.subset ht))
  | macroBody hkeyword hname hbody hclose hmore ihBody ih =>
    obtain ⟨hcurrent, henclosing⟩ := List.forall_mem_cons.mp hsc
    have hinside := fun t ht => hwords t (List.mem_cons_of_mem _ (List.mem_cons_of_mem _ ht))
    have hinner := ihBody (List.forall_mem_cons.mpr ⟨Script.Named.deep_empty _, hsc⟩) hinside
    refine ih (List.forall_mem_cons.mpr ⟨hcurrent.declareMacro ?_ hinner, henclosing⟩) fun t ht => ?_
    · exact ⟨hcurrent.own.ordered, hcurrent.own.word, hcurrent.own.exists_name⟩
    · exact hinside t (hbody.suffix.subset (List.mem_cons_of_mem _ ht))
  | line hname hline hmore ih =>
    obtain ⟨hcurrent, henclosing⟩ := List.forall_mem_cons.mp hsc
    refine ih (List.forall_mem_cons.mpr ⟨hline.named hsc, henclosing⟩) fun t ht => ?_
    exact hwords t (hline.suffix.subset ht)

end Grammar

theorem Lexical.Spells.word_of_ident {text raw : List Char} (h : Spells .ident text raw) :
    Word text := by
  cases h with
  | ident hword hkey => exact hword
  | mark hmark => exact absurd hmark (by simp [marks])
  | keyword hkey => exact absurd hkey (by simp [keywords])

theorem named_of_compile {text : String} {names : Registries} {config : LookaheadConfig}
    {script : Script} (h : (compile text names config).result = .ok script) :
    script.Deep (Script.Named names) := by
  obtain ⟨read, hread, hlink, rfl⟩ := exists_readsNodes_of_compileSource h
  have hnamed : read.Deep (Script.Named names) := by
    refine hread.named (List.forall_mem_singleton.mpr (Script.Named.deep_empty names))
      fun t ht hkind => ?_
    obtain ⟨lexer, hnext⟩ := TokenRow.exists_next_of_mem ht
    obtain ⟨raw, hspells⟩ := Lexer.exists_spells_of_next hnext (by rw [hkind]; decide)
    rw [hkind] at hspells
    exact hspells.word_of_ident
  refine .intro (hnamed.own.link hlink) ?_
  rw [Script.value_link hlink]
  exact hnamed.macros

end CommandScript
