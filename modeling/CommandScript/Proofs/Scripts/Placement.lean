import CommandScript.Proofs.Grammar.Acceptance
import CommandScript.Proofs.Grammar.Leaves
import Mathlib
/-! # Compiled scripts are well formed

Every address in a compiled script lies in it or at its end, every label does, no command is the
empty one, and each built-in command has the arguments that it takes. The same holds for the bodies
of all macros, at any depth. While a script is read, the constants of all open scopes are free of
addresses: an address enters an argument only when a macro's body is copied, and moves along with
each copy.
-/
namespace CommandScript

namespace NameTable
variable {α : Type}

theorem mem_insertEntry {name : String} {a : α} {es : List (String × α)} {e : String × α}
    (h : e ∈ insertEntry name a es) : e = (name, a) ∨ e ∈ es := by
  induction es with
  | nil => exact .inl (List.mem_singleton.mp h)
  | cons f es ih =>
    unfold insertEntry at h
    split at h
    · exact List.mem_cons.mp h
    · split at h
      · exact (List.mem_cons.mp h).imp_right (List.mem_cons_of_mem _)
      · rcases List.mem_cons.mp h with rfl | h
        · exact .inr List.mem_cons_self
        · exact (ih h).imp_right (List.mem_cons_of_mem _)

theorem mem_of_get? {t : NameTable α} {name : String} {a : α} (h : t.get? name = some a) :
    (name, a) ∈ t.entries := by
  obtain ⟨l₁, l₂, hl, -⟩ := List.lookup_eq_some_iff.mp h
  rw [hl]
  exact List.mem_append_right _ List.mem_cons_self

end NameTable

namespace Expr
variable {labels : NameTable Address}

/-- An address in a copy was an address before, or a label of the copied script. -/
theorem address_of_rebase {base : Address} {e : Expr} {a : Address}
    (h : .address a ∈ (e.rebase labels base).leaves) :
    ∃ pc, a = base + pc ∧ (.address pc ∈ e.leaves ∨ ∃ name, labels.get? name = some pc) := by
  rw [rebase_eq_mapLeaves] at h
  obtain ⟨x, hx, ha⟩ := mem_leaves_mapLeaves.mp h
  rcases (isLeaf_of_mem_leaves hx).label_or_address_or_plain with ⟨name, rfl⟩ | ⟨pc, rfl⟩ | hplain
  · unfold rebase at ha
    split at ha
    · rename_i pc hpc
      cases List.mem_singleton.mp ha
      exact ⟨pc, rfl, .inr ⟨name, hpc⟩⟩
    · cases List.mem_singleton.mp ha
  · cases List.mem_singleton.mp ha
    exact ⟨pc, rfl, .inl hx⟩
  · rw [hplain.rebase_eq, hplain.leaves_eq, List.mem_singleton] at ha
    exact absurd ha.symm (hplain.ne_address a)

/-- A linked tree has no labels, and its addresses were addresses before or are those of labels. -/
theorem leaves_of_link {e : Expr} (hlink : (e.link labels).missing = none) {y : Expr}
    (hy : y ∈ (e.link labels).value.leaves) :
    (∀ name, y ≠ .label name) ∧
      ∀ a, y = .address a → .address a ∈ e.leaves ∨ ∃ name, labels.get? name = some a := by
  rw [value_link hlink] at hy
  obtain ⟨x, hx, hy⟩ := mem_leaves_mapLeaves.mp hy
  rcases (isLeaf_of_mem_leaves hx).label_or_address_or_plain with ⟨name, rfl⟩ | ⟨pc, rfl⟩ | hplain
  · obtain ⟨pc, hpc⟩ := missing_link_label.mp (missing_link.mp hlink _ hx)
    simp only [link, hpc, leaves, List.mem_singleton] at hy
    subst hy
    refine ⟨fun _ h => Expr.noConfusion h, fun a ha => .inr ⟨name, ?_⟩⟩
    cases ha
    exact hpc
  · cases List.mem_singleton.mp hy
    refine ⟨fun _ h => Expr.noConfusion h, fun a ha => .inl ?_⟩
    cases ha
    exact hx
  · rw [hplain.link_eq, hplain.leaves_eq, List.mem_singleton] at hy
    subst hy
    exact ⟨hplain.ne_label, fun a ha => absurd ha (hplain.ne_address a)⟩

end Expr

/-- What a command of a script with the given end is like. -/
structure Command.WellFormed (limit : Address) (c : Command) : Prop where
  address_le : ∀ e ∈ c.args, ∀ a, .address a ∈ e.leaves → a ≤ limit
  type_ne_none : c.type ≠ .none
  arity : ∀ n, c.type.arity = some n → c.args.length = n

namespace Command.WellFormed
variable {limit limit' base : Address} {c : Command}

theorem mono (h : c.WellFormed limit) (hle : limit ≤ limit') : c.WellFormed limit' where
  address_le e he a ha := Nat.le_trans (h.address_le e he a ha) hle
  type_ne_none := h.type_ne_none
  arity := h.arity

theorem rebase {labels : NameTable Address} (h : c.WellFormed limit)
    (hlabels : ∀ entry ∈ labels.entries, entry.2 ≤ limit) :
    (c.rebase labels base).WellFormed (base + limit) where
  address_le e he a ha := by
    obtain ⟨x, hx, rfl⟩ := List.mem_map.mp he
    obtain ⟨pc, rfl, hpc | ⟨name, hname⟩⟩ := Expr.address_of_rebase ha
    · exact Nat.add_le_add_left (h.address_le x hx pc hpc) base
    · exact Nat.add_le_add_left (hlabels _ (NameTable.mem_of_get? hname)) base
  type_ne_none := h.type_ne_none
  arity n hn := by
    rw [Command.rebase, List.length_map]
    exact h.arity n hn

theorem link {labels : NameTable Address} (h : c.WellFormed limit)
    (hlabels : ∀ entry ∈ labels.entries, entry.2 ≤ limit)
    (hlink : ∀ e ∈ c.args, (e.link labels).missing = none) :
    Command.WellFormed limit ⟨c.type, c.args.map (fun e => (e.link labels).value)⟩ where
  address_le e he a ha := by
    obtain ⟨x, hx, rfl⟩ := List.mem_map.mp he
    rcases (Expr.leaves_of_link (hlink x hx) ha).2 a rfl with hpc | ⟨name, hname⟩
    · exact h.address_le x hx a hpc
    · exact hlabels _ (NameTable.mem_of_get? hname)
  type_ne_none := h.type_ne_none
  arity n hn := by
    rw [List.length_map]
    exact h.arity n hn

end Command.WellFormed

namespace Script

/-- What a script's own commands and labels are like. -/
structure WellFormed (s : Script) : Prop where
  command : ∀ c ∈ s.commands, c.WellFormed s.size
  label_le : ∀ entry ∈ s.labels.entries, entry.2 ≤ s.size

/-- A script is the given one or the body of a macro in it, at any depth. -/
inductive Within (s : Script) : Script → Prop
  | self : Within s s
  | body {t b : Script} {name : String} (h : (name, b) ∈ t.macros.entries) (hs : Within s b) :
    Within s t

/-- Something holds of the script and of all macro bodies in it. -/
def Deep (P : Script → Prop) (s : Script) : Prop := ∀ t, Within t s → P t

namespace Deep
variable {P : Script → Prop} {s : Script}

theorem intro (own : P s) (macros : ∀ entry ∈ s.macros.entries, entry.2.Deep P) : s.Deep P := by
  intro t ht
  cases ht with
  | self => exact own
  | body hmem ht => exact macros _ hmem t ht

theorem own (h : s.Deep P) : P s := h s .self

theorem macros (h : s.Deep P) (entry : String × Script) (hmem : entry ∈ s.macros.entries) :
    entry.2.Deep P := fun t ht => h t (.body hmem ht)

theorem declareMacro (h : s.Deep P) {name : String} {body : Script}
    (hown : P (s.declareMacro name body)) (hbody : body.Deep P) :
    (s.declareMacro name body).Deep P := by
  refine .intro hown (fun entry hentry => ?_)
  rcases NameTable.mem_insertEntry hentry with rfl | hentry
  · exact hbody
  · exact h.macros entry hentry

end Deep

/-- A script as it is while it is read: well formed, with constants that hold no address. -/
structure Tidy (s : Script) : Prop extends WellFormed s where
  constant : ∀ entry ∈ s.constants.entries, ∀ a, .address a ∉ entry.2.leaves

/-- The script and all macro bodies in it are tidy. -/
def Sound (s : Script) : Prop := s.Deep Tidy

namespace Sound
variable {s t : Script}

theorem empty : Script.empty.Sound := .intro ⟨⟨nofun, nofun⟩, nofun⟩ nofun

theorem push (h : s.Sound) {c : Command} (hc : c.WellFormed (s.size + 1)) : (s.push c).Sound := by
  have hsize : (s.push c).size = s.size + 1 := Array.size_push ..
  refine .intro ⟨⟨fun d hd => ?_, fun entry hentry => ?_⟩, h.own.constant⟩ h.macros
  · rw [hsize]
    rcases Array.mem_push.mp hd with hd | rfl
    · exact (h.own.command d hd).mono (Nat.le_succ _)
    · exact hc
  · rw [hsize]
    exact Nat.le_succ_of_le (h.own.label_le entry hentry)

/-- The copy's addresses are shifted by the old size, which the new size leaves room for. -/
theorem splice (h : s.Sound) (hbody : t.Sound) : (s.splice t).Sound := by
  have hsize : (s.splice t).size = s.size + t.size := by simp [size, Script.splice]
  refine .intro ⟨⟨fun d hd => ?_, fun entry hentry => ?_⟩, h.own.constant⟩ h.macros
  · rw [hsize]
    rcases Array.mem_append.mp hd with hd | hd
    · exact (h.own.command d hd).mono (Nat.le_add_right ..)
    · obtain ⟨c, hc, rfl⟩ := Array.mem_map.mp hd
      exact (hbody.own.command c hc).rebase hbody.own.label_le
  · rw [hsize]
    exact Nat.le_add_right_of_le (h.own.label_le entry hentry)

theorem declareLabel (h : s.Sound) (name : String) : (s.declareLabel name).Sound := by
  refine .intro ⟨⟨h.own.command, fun entry hentry => ?_⟩, h.own.constant⟩ h.macros
  rcases NameTable.mem_insertEntry hentry with rfl | hentry
  · exact Nat.le_refl _
  · exact h.own.label_le entry hentry

theorem declareConstant (h : s.Sound) (name : String) {e : Expr}
    (he : ∀ a, .address a ∉ e.leaves) : (s.declareConstant name e).Sound := by
  refine .intro ⟨⟨h.own.command, h.own.label_le⟩, fun entry hentry => ?_⟩ h.macros
  rcases NameTable.mem_insertEntry hentry with rfl | hentry
  · exact he
  · exact h.own.constant entry hentry

theorem declareMacro (h : s.Sound) (name : String) (hbody : t.Sound) :
    (s.declareMacro name t).Sound :=
  Deep.declareMacro h ⟨⟨h.own.command, h.own.label_le⟩, h.own.constant⟩ hbody

theorem link (h : s.Sound) (hlink : s.link.missing = none) : s.link.value.Sound := by
  rw [value_link hlink]
  refine .intro ⟨⟨fun d hd => ?_, fun entry hentry => ?_⟩, h.own.constant⟩ h.macros
  · obtain ⟨c, hc, rfl⟩ := Array.mem_map.mp hd
    rw [size, Array.size_map]
    exact (h.own.command c hc).link h.own.label_le (missing_link.mp hlink c hc)
  · rw [size, Array.size_map]
    exact h.own.label_le entry hentry

end Sound

end Script

namespace Scopes

/-- All open scopes are sound. -/
def Sound (sc : Scopes) : Prop := ∀ s ∈ sc.all, s.Sound

namespace Sound
variable {sc : Scopes}

theorem outermost (names : Registries) : (Scopes.outermost names).Sound :=
  List.forall_mem_singleton.mpr .empty

theorem current (h : sc.Sound) : sc.current.Sound := h _ List.mem_cons_self

theorem withCurrent (h : sc.Sound) {s : Script} (hs : s.Sound) : (sc.withCurrent s).Sound :=
  List.forall_mem_cons.mpr ⟨hs, fun t ht => h t (List.mem_cons_of_mem _ ht)⟩

theorem inner (h : sc.Sound) : sc.inner.Sound := List.forall_mem_cons.mpr ⟨.empty, h⟩

theorem macroNamed (h : sc.Sound) {name : String} {body : Script}
    (hbody : sc.macroNamed? name = some body) : body.Sound := by
  obtain ⟨s, hs, hget⟩ := List.exists_of_findSome?_eq_some hbody
  exact (h s hs).macros _ (NameTable.mem_of_get? hget)

/-- No name stands for anything with an address in it. -/
theorem address_not_mem_resolve (h : sc.Sound) (name : String) (a : Address) :
    .address a ∉ (sc.resolve name).leaves := by
  unfold Scopes.resolve
  split
  · rename_i e he
    obtain ⟨s, hs, hget⟩ := List.exists_of_findSome?_eq_some he
    exact (h s hs).own.constant _ (NameTable.mem_of_get? hget) a
  · split
    · simp [Expr.leaves]
    · split
      · simp [Expr.leaves]
      · split <;> simp [Expr.leaves]

end Sound

end Scopes

namespace Grammar
variable {ending : Except LexError EndMarker} {sc : Scopes} {ts rest : List Token}

theorem ReadsExpr.address_not_mem {e : Expr} (h : ReadsExpr ending sc.resolve ts e rest)
    (hsc : sc.Sound) (a : Address) : .address a ∉ e.leaves := by
  obtain ⟨lt, h⟩ := h
  intro ha
  cases sourced_of_expression h _ ha with
  | name hx => exact hsc.address_not_mem_resolve _ a hx

theorem ReadsArgs.address_not_mem {args : List Expr} (h : ReadsArgs ending sc.resolve ts args rest)
    (hsc : sc.Sound) : ∀ e ∈ args, ∀ a, .address a ∉ e.leaves := by
  induction h with
  | last he hend => exact List.forall_mem_singleton.mpr (he.address_not_mem hsc)
  | more he hcomma hmore ih => exact List.forall_mem_cons.mpr ⟨he.address_not_mem hsc, ih⟩

theorem ReadsTail.address_not_mem {args : List Expr} (h : ReadsTail ending sc.resolve ts args rest)
    (hsc : sc.Sound) : ∀ e ∈ args, ∀ a, .address a ∉ e.leaves := by
  rcases h with ⟨rfl, -⟩ | h
  · exact nofun
  · exact h.address_not_mem hsc

theorem ReadsLine.sound {s : Script} (h : ReadsLine ending sc ts s rest) (hsc : sc.Sound) :
    s.Sound := by
  induction h with
  | ended hend => exact hsc.current
  | emptyHead hname hcmd hmore ih => exact ih hsc
  | macroHead hname hcmd hfound hmore ih =>
    exact ih (hsc.withCurrent (hsc.current.splice (hsc.macroNamed hfound)))
  | command hname hcmd htype hargs harity =>
    -- What is read has no address yet, so any end of the script will do for it.
    refine hsc.current.push ⟨fun e he a ha => ?_, htype, harity⟩
    exact absurd ha (hargs.address_not_mem hsc e he a)

theorem ReadsNodes.sound {s : Script} (h : ReadsNodes ending sc ts s rest) (hsc : sc.Sound) :
    s.Sound := by
  -- All open scopes are carried along: a constant or a macro may come from any of them.
  induction h with
  | done => exact hsc.current
  | blank hline hmore ih => exact ih hsc
  | label hname hcolon hnew hmore ih => exact ih (hsc.withCurrent (hsc.current.declareLabel _))
  | constant hkeyword hname he hmore ih =>
    exact ih (hsc.withCurrent (hsc.current.declareConstant _ (he.address_not_mem hsc)))
  | macroBody hkeyword hname hbody hclose hmore ihBody ih =>
    exact ih (hsc.withCurrent (hsc.current.declareMacro _ (ihBody hsc.inner)))
  | line hname hline hmore ih => exact ih (hsc.withCurrent (hline.sound hsc))

end Grammar

variable {text : String} {names : Registries} {config : LookaheadConfig} {script : Script}

theorem sound_of_compile (h : (compile text names config).result = .ok script) : script.Sound := by
  obtain ⟨read, hread, hlink, rfl⟩ := exists_readsNodes_of_compileSource h
  exact (hread.sound (.outermost names)).link hlink

theorem label_not_mem_of_compile (h : (compile text names config).result = .ok script) :
    ∀ c ∈ script.commands, ∀ e ∈ c.args, ∀ name, .label name ∉ e.leaves := by
  obtain ⟨read, hread, hlink, rfl⟩ := exists_readsNodes_of_compileSource h
  rw [Script.value_link hlink]
  intro d hd e he name hname
  obtain ⟨c, hc, rfl⟩ := Array.mem_map.mp hd
  obtain ⟨x, hx, rfl⟩ := List.mem_map.mp he
  exact (Expr.leaves_of_link (Script.missing_link.mp hlink c hc x hx) hname).1 name rfl

/-- In a compiled script no label is left, and the script and all macro bodies in it are well
formed. -/
theorem compile_wellFormed (h : (compile text names config).result = .ok script) :
    (∀ c ∈ script.commands, ∀ e ∈ c.args, ∀ name, .label name ∉ e.leaves) ∧
      ∀ s : Script, s.Within script → s.WellFormed :=
  ⟨label_not_mem_of_compile h, fun s hs => (sound_of_compile h s hs).toWellFormed⟩

/-- A macro that jumps to its own label, used twice, and a jump to the end of the script. -/
theorem compile_wellFormed_loops :
    let text := "macro m\na: goto a\nendmacro\nm m goto z\nz:"
    let names : Registries := { Registries.empty with commands := (∅ : NameTable _).insert "goto" ⟨3⟩ }
    let body : Script := (Script.empty.declareLabel "a").push ⟨⟨3⟩, [.label "a"]⟩
    let script : Script :=
      ⟨#[⟨⟨3⟩, [.address 0]⟩, ⟨⟨3⟩, [.address 1]⟩, ⟨⟨3⟩, [.address 3]⟩],
        (∅ : NameTable Address).insert "z" 3, (∅ : NameTable Script).insert "m" body, ∅⟩
    (compile text names ⟨1, 2⟩).result = .ok script ∧
      (∀ c ∈ script.commands, ∀ e ∈ c.args, ∀ name, .label name ∉ e.leaves) ∧
        script.WellFormed ∧ body.WellFormed := by
  intro text names body script
  have h : (compile text names ⟨1, 2⟩).result = .ok script := by cbv
  obtain ⟨hlabel, hall⟩ := compile_wellFormed h
  exact ⟨h, hlabel, hall _ .self, hall _ (.body List.mem_cons_self .self)⟩

end CommandScript
