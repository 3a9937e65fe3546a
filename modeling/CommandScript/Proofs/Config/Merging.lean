import CommandScript.Proofs.Config.Descriptions
import CommandScript.Proofs.Machine.DryRuns
import CommandScript.Proofs.Scripts.Listings
import Mathlib
/-! # Merging name tables

A merged table has the names of all tables, and each name has the value that the last table with the
name gives it. A table has each of its names once, so it does not matter in which order its entries
are put in. For a host this says which type a command's name has, which of its names a type is shown
by, and how far the types reach.
-/
namespace CommandScript

namespace NameTable
variable {α : Type}

section Merge
variable {base own : NameTable α}

theorem Ordered.merge (h : base.Ordered) (own : NameTable α) : (base.merge own).Ordered :=
  h.insertAll own.entries

theorem Ordered.mergeAll (h : base.Ordered) (tables : List (NameTable α)) :
    (base.mergeAll tables).Ordered := by
  induction tables generalizing base with
  | nil => exact h
  | cons own tables ih => exact ih (h.merge own)

/-- Where each name comes once, the entries may come in any order. -/
theorem get?_insertAll_of_perm (base : NameTable α) (hown : own.Ordered)
    {es : List (String × α)} (hperm : es.Perm own.entries) (name : String) :
    (base.insertAll es).get? name = (own.get? name).or (base.get? name) := by
  have hreverse : es.reverse.Perm own.entries := es.reverse_perm.trans hperm
  rw [get?_insertAll, lookup_eq_of_perm hreverse hown.nodup]
  rfl

theorem get?_merge (base : NameTable α) (hown : own.Ordered) (name : String) :
    (base.merge own).get? name = (own.get? name).or (base.get? name) :=
  get?_insertAll_of_perm base hown (.refl _) name

theorem get?_mergeAll (base : NameTable α) {tables : List (NameTable α)}
    (h : ∀ t ∈ tables, t.Ordered) (name : String) :
    (base.mergeAll tables).get? name =
      (base :: tables).reverse.findSome? (fun t => t.get? name) := by
  induction tables using List.reverseRecOn with
  | nil => cases hget : base.get? name <;> simp [mergeAll, hget]
  | append_singleton tables own ih =>
    obtain ⟨htables, hown⟩ := List.forall_mem_append.mp h
    have hlast : base.mergeAll (tables ++ [own]) = (base.mergeAll tables).merge own := by
      rw [mergeAll, List.foldl_append]
      rfl
    rw [hlast, get?_merge _ (hown own (List.mem_singleton_self own)), ih htables,
      ← List.cons_append, List.reverse_append, List.reverse_singleton, List.singleton_append,
      List.findSome?_cons]
    cases own.get? name <;> rfl

/-- The last of some tables that has the name gives it this value. -/
def LastGives (tables : List (NameTable α)) (name : String) (a : α) : Prop :=
  ∃ (before : List (NameTable α)) (t : NameTable α) (after : List (NameTable α)),
    tables = before ++ t :: after ∧ t.get? name = some a ∧ ∀ u ∈ after, u.get? name = none

theorem lastGives_iff {tables : List (NameTable α)} {name : String} {a : α} :
    LastGives tables name a ↔ tables.reverse.findSome? (fun t => t.get? name) = some a := by
  rw [List.findSome?_eq_some_iff]
  constructor
  · rintro ⟨before, t, after, rfl, ht, hafter⟩
    refine ⟨after.reverse, t, before.reverse, by simp, ht, fun u hu => ?_⟩
    exact hafter u (List.mem_reverse.mp hu)
  · rintro ⟨after, t, before, htables, ht, hafter⟩
    refine ⟨before.reverse, t, after.reverse, ?_, ht, fun u hu => ?_⟩
    · rw [← List.reverse_reverse tables, htables]
      simp
    · exact hafter u (List.mem_reverse.mp hu)

theorem contains_mergeAll (base : NameTable α) {tables : List (NameTable α)}
    (h : ∀ t ∈ tables, t.Ordered) (name : String) :
    (base.mergeAll tables).contains name ↔ ∃ t ∈ base :: tables, t.contains name := by
  rw [contains, get?_mergeAll base h, List.findSome?_isSome_iff]
  simp only [List.mem_reverse, contains]

end Merge

section Visits
variable {base : NameTable α}

/-- Puts in the entries of one table after the other, those of a table in the order in which it is
visited. -/
def mergeVisits (base : NameTable α) (visits : List (List (String × α))) : NameTable α :=
  visits.foldl insertAll base

/-- Both results are in order and give the same for each name, so they are the same table. -/
theorem Ordered.insertAll_eq_merge (h : base.Ordered) {own : NameTable α} (hown : own.Ordered)
    {es : List (String × α)} (hperm : es.Perm own.entries) : base.insertAll es = base.merge own := by
  refine (h.insertAll es).ext (h.merge own) fun name => ?_
  rw [get?_insertAll_of_perm base hown hperm, get?_merge base hown]

theorem Ordered.mergeVisits_eq (h : base.Ordered) {tables : List (NameTable α)}
    (htables : ∀ t ∈ tables, t.Ordered) {visits : List (List (String × α))}
    (hvisits : List.Forall₂ (fun es t => es.Perm t.entries) visits tables) :
    base.mergeVisits visits = base.mergeAll tables := by
  induction hvisits generalizing base with
  | nil => rfl
  | @cons es own visits tables hperm _ ih =>
    obtain ⟨hown, htables⟩ := List.forall_mem_cons.mp htables
    calc base.mergeVisits (es :: visits)
      _ = (base.insertAll es).mergeVisits visits := rfl
      _ = (base.merge own).mergeVisits visits := by rw [h.insertAll_eq_merge hown hperm]
      _ = (base.merge own).mergeAll tables := ih (h.merge own) htables

end Visits

end NameTable

namespace Registries

/-- The names that every script may use, with their types. -/
def IsBuiltin (name : String) (type : CommandType) : Prop :=
  name = "none" ∧ type = .none ∨ ∃ b : Builtin, name = b.name ∧ type = b.type

theorem get?_builtinCommands {name : String} {type : CommandType} :
    builtinCommands.get? name = some type ↔ IsBuiltin name type := by
  have hnames : ((("none", CommandType.none) ::
      Builtin.all.map (fun b => (b.name, b.type))).reverse.map Prod.fst).Nodup := by decide
  have hall : ∀ b : Builtin, b ∈ Builtin.all := by
    intro b
    cases b <;> decide
  rw [builtinCommands, NameTable.get?_ofList, NameTable.lookup_eq_some_iff_mem hnames]
  simp only [List.mem_reverse, List.mem_cons, List.mem_map, Prod.mk.injEq, IsBuiltin, hall, true_and]
  simp only [eq_comm]

section Names
variable {r : Registries}

theorem commandName?_eq_none_iff (h : r.commands.Ordered) {type : CommandType} :
    r.commandName? type = none ↔ ∀ name, r.commands.get? name ≠ some type := by
  rw [commandName?, NameTable.nameWhere?_eq_head?, List.head?_eq_none_iff,
    List.eq_nil_iff_forall_not_mem]
  simp [h.mem_namesWhere]

/-- The name that a type is shown by is the least of its names. -/
theorem commandName?_eq_some_iff (h : r.commands.Ordered) {type : CommandType} {name : String} :
    r.commandName? type = some name ↔ r.commands.get? name = some type ∧
      ∀ other, r.commands.get? other = some type → other = name ∨ bytes name < bytes other := by
  constructor
  · intro hname
    have hknown : ∃ known, r.commands.get? known = some type := by
      by_contra hnone
      have hfree := (commandName?_eq_none_iff h).mpr (not_exists.mp hnone)
      cases hname.symm.trans hfree
    obtain ⟨least, hleast, hget, hothers⟩ := Listing.exists_commandName? h hknown
    cases hname.symm.trans hleast
    exact ⟨hget, hothers⟩
  · rintro ⟨hget, hothers⟩
    obtain ⟨least, hleast, hget', hothers'⟩ := Listing.exists_commandName? h ⟨name, hget⟩
    rcases hothers least hget' with rfl | hlt
    · exact hleast
    · rcases hothers' name hget with rfl | hgt
      · exact hleast
      · exact absurd hgt (List.lt_asymm hlt)

theorem foldl_max_eq_or_mem (entries : List (String × CommandType)) (top : CommandType) :
    let last := entries.foldl (fun top e => if top.handle < e.2.handle then e.2 else top) top
    last = top ∨ ∃ name, (name, last) ∈ entries := by
  induction entries generalizing top with
  | nil => exact .inl rfl
  | cons e entries ih =>
    rcases ih (if top.handle < e.2.handle then e.2 else top) with hlast | ⟨name, hmem⟩
    · rw [List.foldl_cons, hlast]
      split
      · exact .inr ⟨e.1, List.mem_cons_self⟩
      · exact .inl rfl
    · exact .inr ⟨name, List.mem_cons_of_mem _ hmem⟩

/-- Where there are names at all, the largest type has one. -/
theorem exists_get?_maxCommand (h : r.commands.Ordered) {known : String} {type : CommandType}
    (hknown : r.commands.get? known = some type) :
    ∃ name, r.commands.get? name = some r.maxCommand := by
  rcases foldl_max_eq_or_mem r.commands.entries .none with hnone | ⟨name, hmem⟩
  · -- No type exceeds the empty command's, so the known name has that type too.
    have hle : type.index ≤ r.maxCommand.index := index_le_maxCommand hknown
    have hmax : r.maxCommand = .none := hnone
    have hzero : type.handle = 0 := by
      rw [hmax] at hle
      exact UInt32.toNat_inj.mp (Nat.le_zero.mp hle)
    refine ⟨known, hknown.trans (congrArg some ?_)⟩
    rw [hmax]
    exact congrArg CommandType.mk hzero
  · exact ⟨name, h.get?_eq_some_iff.mpr hmem⟩

end Names

end Registries

namespace HostConfig
variable {c : HostConfig}

theorem ordered_commands (c : HostConfig) : c.registries.commands.Ordered :=
  (NameTable.ordered_ofList _).merge c.own.commands

theorem get?_commands (h : c.own.commands.Ordered) (name : String) :
    c.registries.commands.get? name =
      (c.own.commands.get? name).or (Registries.builtinCommands.get? name) :=
  NameTable.get?_merge Registries.builtinCommands h name

theorem get?_commands_eq_some_iff (h : c.own.commands.Ordered) {name : String}
    {type : CommandType} :
    c.registries.commands.get? name = some type ↔ c.own.commands.get? name = some type ∨
      c.own.commands.get? name = none ∧ Registries.IsBuiltin name type := by
  rw [get?_commands h, Option.or_eq_some_iff, Registries.get?_builtinCommands]

theorem exists_get?_commands (h : c.own.commands.Ordered) :
    ∃ type, c.registries.commands.get? "none" = some type := by
  have hbuiltin : Registries.builtinCommands.get? "none" = some .none :=
    Registries.get?_builtinCommands.mpr (.inl ⟨rfl, rfl⟩)
  rw [get?_commands h, hbuiltin]
  cases c.own.commands.get? "none" with
  | none => exact ⟨_, rfl⟩
  | some type => exact ⟨type, rfl⟩

end HostConfig

open NameTable in
/-- Later tables replace what earlier ones say of a name. Tables have each name once, in order. A
merged table is such a table too; its names are those of all tables, each with the value from the last
table that has it, in whatever order the entries of each table are visited; and it is the same to
merge in two stages. The table of a loaded host has each name once, in order. So a host's command has
the type that the host gives it, or else the built-in one; a type is shown by the least of its names,
if there is one; and the largest type bounds those of all names and belongs to one of them. -/
theorem merging_replaces :
    (∀ (α : Type) (base : NameTable α) (tables : List (NameTable α)),
      (∀ t ∈ base :: tables, t.Ordered) →
        (base.mergeAll tables).Ordered ∧
        (∀ name, (base.mergeAll tables).contains name ↔ ∃ t ∈ base :: tables, t.contains name) ∧
        (∀ name a, (base.mergeAll tables).get? name = some a ↔ LastGives (base :: tables) name a) ∧
        ∀ visits, List.Forall₂ (fun es t => es.Perm t.entries) visits tables →
          base.mergeVisits visits = base.mergeAll tables) ∧
    (∀ (α : Type) (base : NameTable α) (first second : List (NameTable α)),
      base.mergeAll (first ++ second) = (base.mergeAll first).mergeAll second) ∧
    (∀ text c, (HostConfig.load text).result = .ok c → c.own.commands.Ordered) ∧
    ∀ c : HostConfig, c.own.commands.Ordered →
      (∀ name type, c.registries.commands.get? name = some type ↔
        c.own.commands.get? name = some type ∨
          c.own.commands.get? name = none ∧ Registries.IsBuiltin name type) ∧
      (∀ type name, c.registries.commandName? type = some name ↔
        c.registries.commands.get? name = some type ∧
          ∀ other, c.registries.commands.get? other = some type →
            other = name ∨ bytes name < bytes other) ∧
      (∀ type, c.registries.commandName? type = none ↔
        ∀ name, c.registries.commands.get? name ≠ some type) ∧
      (∀ name type, c.registries.commands.get? name = some type →
        type.index ≤ c.registries.maxCommand.index) ∧
      ∃ name, c.registries.commands.get? name = some c.registries.maxCommand := by
  refine ⟨fun α base tables h => ?_, fun α base first second => List.foldl_append,
    fun text c h => (HostConfig.regular_of_load h).commands, fun c h => ?_⟩
  · obtain ⟨hbase, htables⟩ := List.forall_mem_cons.mp h
    refine ⟨hbase.mergeAll tables, contains_mergeAll base htables, fun name a => ?_,
      fun visits => hbase.mergeVisits_eq htables⟩
    rw [get?_mergeAll base htables, lastGives_iff]
  · have hordered := c.ordered_commands
    obtain ⟨type, hknown⟩ := HostConfig.exists_get?_commands h
    exact ⟨fun name type => HostConfig.get?_commands_eq_some_iff h,
      fun type name => Registries.commandName?_eq_some_iff hordered,
      fun type => Registries.commandName?_eq_none_iff hordered,
      fun name type => Registries.index_le_maxCommand,
      Registries.exists_get?_maxCommand hordered hknown⟩

open NameTable in
/-- Two tables with a name in common, the first visited backwards; and a host that takes `goto` for a
command of its own and has two other names for the built-in one. -/
theorem merging_replaces_goto :
    let hero : NameTable Variable := .ofList [("hp", ⟨1⟩), ("mp", ⟨2⟩)]
    let foe : NameTable Variable := .ofList [("hp", ⟨7⟩)]
    let commands : NameTable CommandType := .ofList [("leap", ⟨3⟩), ("goto", ⟨20⟩), ("jump", ⟨3⟩)]
    let config : HostConfig := ⟨{ Registries.empty with commands }, {}⟩
    (∀ t ∈ [∅, hero, foe], t.Ordered) ∧ commands.Ordered ∧
      ((∅ : NameTable Variable).mergeAll [hero, foe]).get? "hp" = some ⟨7⟩ ∧
      (∅ : NameTable Variable).mergeVisits [[("mp", ⟨2⟩), ("hp", ⟨1⟩)], [("hp", ⟨7⟩)]] =
        (∅ : NameTable Variable).mergeAll [hero, foe] ∧
      config.registries.commands.get? "goto" = some ⟨20⟩ ∧
      config.registries.commands.get? "set" = some Builtin.set.type ∧
      config.registries.commandName? ⟨3⟩ = some "jump" ∧
      (∀ other, config.registries.commands.get? other = some ⟨3⟩ →
        other = "jump" ∨ bytes "jump" < bytes other) ∧
      ∃ name, config.registries.commands.get? name = some config.registries.maxCommand := by
  intro hero foe commands config
  have htables : ∀ t ∈ [∅, hero, foe], t.Ordered := by
    intro t ht
    simp only [List.mem_cons, List.not_mem_nil, or_false] at ht
    rcases ht with rfl | rfl | rfl
    · exact ordered_empty
    · exact ordered_ofList _
    · exact ordered_ofList _
  have hcommands : commands.Ordered := ordered_ofList _
  have hvisits : List.Forall₂ (fun es t => es.Perm t.entries)
      [[("mp", ⟨2⟩), ("hp", ⟨1⟩)], [("hp", ⟨7⟩)]] [hero, foe] := by
    have hhero : hero.entries = [("hp", ⟨1⟩), ("mp", ⟨2⟩)] := by cbv
    refine .cons ?_ (.cons (.refl _) .nil)
    rw [hhero]
    exact .swap _ _ _
  have hshown : config.registries.commandName? ⟨3⟩ = some "jump" := by cbv
  obtain ⟨hmerge, -, -, hhost⟩ := merging_replaces
  obtain ⟨-, -, hlast, hvisited⟩ := hmerge Variable ∅ [hero, foe] htables
  obtain ⟨htype, hname, -, -, hmax⟩ := hhost config hcommands
  refine ⟨htables, hcommands, ?_, hvisited _ hvisits, ?_, ?_, hshown,
    ((hname ⟨3⟩ "jump").mp hshown).2, hmax⟩
  · exact (hlast _ _).mpr ⟨[∅, hero], foe, [], rfl, by cbv, List.forall_mem_nil _⟩
  · exact (htype _ _).mpr (.inl (by cbv))
  · exact (htype _ _).mpr (.inr ⟨by cbv, .inr ⟨.set, rfl, rfl⟩⟩)

end CommandScript
