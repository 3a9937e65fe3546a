import CommandScript.Proofs.Scripts.Naming
import CommandScript.Script.Listing
import Mathlib
/-! # The rows of a listing

A listing is a list of rows, written one after another. For each address there are the labels of the
address, in the order of their bytes, and behind them the address's own entry. In a compiled script,
and in every macro body inside it, no label lies behind the end, so each has its row, and every
command is shown by the least of the names that its type has in the registries.
-/
namespace CommandScript

namespace Listing

/-- A label, or the entry of a command or of the end. -/
inductive Row where
  | label (name : String)
  | entry (pc : Address)
deriving DecidableEq

/-- The rows of an address: its labels and then its entry. -/
def rowsAt (s : Script) (pc : Address) : List Row := (s.labelsAt pc).map .label ++ [.entry pc]

/-- All addresses of a script have their rows, the end included. -/
def rows (s : Script) : List Row := (List.range (s.size + 1)).flatMap (rowsAt s)

def Row.text (s : Script) (shown : Registries) : Row → String
  | label name => name ++ ":\n"
  | entry pc => line pc ((s.command? pc).elim "<end>" (commandText shown))

/-- What is written behind a command's name. -/
def argumentsText (c : Command) : String :=
  if c.args.isEmpty then "" else " " ++ ", ".intercalate (c.args.map Expr.text)

theorem commandText_eq (shown : Registries) (c : Command) :
    commandText shown c = commandName shown c.type ++ argumentsText c := by
  unfold commandText argumentsText
  split
  · exact String.append_empty.symm
  · exact String.append_assoc

section Text
variable {s : Script} {shown : Registries}

theorem join_rowsAt (s : Script) (shown : Registries) (pc : Address) :
    String.join ((rowsAt s pc).map (Row.text s shown)) =
      labels s pc ++ line pc ((s.command? pc).elim "<end>" (commandText shown)) := by
  have hlabels : Row.text s shown ∘ Row.label = (· ++ ":\n") := rfl
  rw [rowsAt, List.map_append, String.join_append, List.map_map, hlabels, List.map_singleton,
    String.join_cons, String.join_nil, String.append_empty, labels, Row.text]

theorem command?_eq_head? (s : Script) (pc : Address) :
    s.command? pc = (s.commands.toList.drop pc).head? := by
  rw [List.head?_drop, Array.getElem?_toList, Script.command?]

/-- The recursion is on the commands that are left, which stand from `pc` on. -/
theorem entries_eq_join {pc : Address} {cs : List Command} (h : s.commands.toList.drop pc = cs) :
    entries s shown pc cs = String.join
      (((List.range' pc (cs.length + 1)).flatMap (rowsAt s)).map (Row.text s shown)) := by
  induction cs generalizing pc with
  | nil =>
    rw [List.length_nil, List.range'_one, List.flatMap_singleton, join_rowsAt, command?_eq_head?, h]
    rfl
  | cons c cs ih =>
    have hrest : s.commands.toList.drop (pc + 1) = cs := by
      rw [← List.tail_drop, h, List.tail_cons]
    rw [List.length_cons, List.range'_succ, List.flatMap_cons, List.map_append, String.join_append,
      join_rowsAt, command?_eq_head?, h, ← ih hrest]
    rfl

theorem listing_eq_join (s : Script) (shown : Registries) :
    s.listing shown = String.join ((rows s).map (Row.text s shown)) := by
  rw [Script.listing, entries_eq_join List.drop_zero, Array.length_toList, ← List.range_eq_range']
  rfl

end Text

section Rows
variable {s : Script} {name : String} {pc : Address}

theorem mem_labelsAt (h : s.labels.Ordered) : name ∈ s.labelsAt pc ↔ s.label? name = some pc := by
  rw [Script.labelsAt, h.mem_namesWhere, Script.label?]
  simp only [beq_iff_eq, exists_eq_right]

theorem label_mem_rowsAt (h : s.labels.Ordered) :
    .label name ∈ rowsAt s pc ↔ s.label? name = some pc := by
  simp [rowsAt, mem_labelsAt h]

/-- The address that a row stands at. -/
def Row.address? (s : Script) : Row → Option Address
  | label name => s.label? name
  | entry pc => some pc

theorem address?_of_mem (h : s.labels.Ordered) {row : Row} (hrow : row ∈ rowsAt s pc) :
    row.address? s = some pc := by
  cases row with
  | label name => exact (label_mem_rowsAt h).mp hrow
  | entry a =>
    have ha : a = pc := by simpa [rowsAt] using hrow
    exact congrArg some ha

theorem nodup_rowsAt (h : s.labels.Ordered) : (rowsAt s pc).Nodup := by
  have hlabels : (s.labelsAt pc).Nodup :=
    (h.pairwise_namesWhere _).imp String.ne_of_lt
  refine List.nodup_append.mpr ⟨hlabels.map fun _ _ => Row.label.inj, List.nodup_singleton _, ?_⟩
  rintro _ hrow _ hentry rfl
  obtain ⟨_, -, heq⟩ := List.mem_map.mp hrow
  cases heq.trans (List.mem_singleton.mp hentry)

/-- No row is there twice, since a row tells its address. -/
theorem nodup_rows (h : s.labels.Ordered) : (rows s).Nodup := by
  refine List.nodup_flatMap.mpr ⟨fun pc _ => nodup_rowsAt h, ?_⟩
  refine List.nodup_range.imp fun hne row hrow hrow' => hne ?_
  exact Option.some.inj ((address?_of_mem h hrow).symm.trans (address?_of_mem h hrow'))

theorem label_mem_rows (h : s.labels.Ordered) (hs : s.WellFormed) :
    .label name ∈ rows s ↔ (s.label? name).isSome := by
  rw [rows, List.mem_flatMap, Option.isSome_iff_exists]
  constructor
  · rintro ⟨pc, -, hrow⟩
    exact ⟨pc, (label_mem_rowsAt h).mp hrow⟩
  · rintro ⟨pc, hpc⟩
    have hlimit : pc ≤ s.size := hs.label_le _ (NameTable.mem_of_get? hpc)
    exact ⟨pc, List.mem_range.mpr (Nat.lt_succ_of_le hlimit), (label_mem_rowsAt h).mpr hpc⟩

/-- Between a label and its address there are labels of the same address only. -/
theorem exists_rows_eq (h : s.labels.Ordered) (hs : s.WellFormed)
    (hpc : s.label? name = some pc) :
    ∃ (before : List Row) (others : List String) (after : List Row),
      rows s = before ++ .label name :: (others.map .label ++ .entry pc :: after) ∧
        ∀ other ∈ others, s.label? other = some pc := by
  have hlimit : pc ≤ s.size := hs.label_le _ (NameTable.mem_of_get? hpc)
  obtain ⟨lower, upper, hrange⟩ := List.append_of_mem (List.mem_range.mpr (Nat.lt_succ_of_le hlimit))
  obtain ⟨smaller, others, hlabels⟩ := List.append_of_mem ((mem_labelsAt h).mpr hpc)
  refine ⟨lower.flatMap (rowsAt s) ++ smaller.map .label, others, upper.flatMap (rowsAt s), ?_, ?_⟩
  · rw [rows, hrange, List.flatMap_append, List.flatMap_cons, rowsAt, hlabels, List.map_append,
      List.map_cons]
    simp only [List.append_assoc, List.cons_append, List.nil_append]
  · intro other hother
    refine (mem_labelsAt h).mp ?_
    rw [hlabels]
    exact List.mem_append_right _ (List.mem_cons_of_mem _ hother)

end Rows

/-- A type that has names is shown by the least of them. -/
theorem exists_commandName? {names : Registries} (h : names.commands.Ordered) {type : CommandType}
    (hname : ∃ name, names.commands.get? name = some type) :
    ∃ name, names.commandName? type = some name ∧ names.commands.get? name = some type ∧
      ∀ other, names.commands.get? other = some type → other = name ∨ bytes name < bytes other := by
  have hmem {name : String} : name ∈ names.commands.namesWhere (· == type) ↔
      names.commands.get? name = some type := by
    rw [h.mem_namesWhere]
    simp only [beq_iff_eq, exists_eq_right]
  obtain ⟨known, hget⟩ := hname
  obtain ⟨least, hleast, hfound, hothers⟩ := h.exists_nameWhere? (hmem.mpr hget)
  refine ⟨least, hfound, hmem.mp hleast, fun other hother => ?_⟩
  exact (hothers other (hmem.mpr hother)).imp_right bytes_lt_bytes

theorem text_entry_of_commandName? {s : Script} {names : Registries} {pc : Address} {c : Command}
    (hc : s.command? pc = some c) {name : String} (hname : names.commandName? c.type = some name) :
    Row.text s names (.entry pc) = line pc (name ++ argumentsText c) := by
  rw [Row.text, hc, Option.elim_some, commandText_eq, commandName, hname, Option.getD_some]

end Listing

open Listing in
/-- For a compiled script and every macro body in it: the listing is the row of labels and entries,
address by address; the labels of an address are in the order of their bytes; each label is written
once, with nothing but labels of its address between it and the entry of the address; and every
command is shown by the least name of its type, in registries that keep their names in order as all
tables do that are built by insertion. -/
theorem listing_of_compile {text : String} {names : Registries} {config : LookaheadConfig}
    {script s : Script} (h : (compile text names config).result = .ok script)
    (hs : s.Within script) :
    (∀ shown, s.listing shown = String.join ((rows s).map (Row.text s shown))) ∧
    (∀ pc, (s.labelsAt pc).Pairwise (fun a b => bytes a < bytes b) ∧
      ∀ name, name ∈ s.labelsAt pc ↔ s.label? name = some pc) ∧
    (∀ name, (rows s).count (.label name) = if (s.label? name).isSome then 1 else 0) ∧
    (∀ name pc, s.label? name = some pc →
      ∃ (before : List Row) (others : List String) (after : List Row),
        rows s = before ++ .label name :: (others.map .label ++ .entry pc :: after) ∧
          ∀ other ∈ others, s.label? other = some pc) ∧
    (names.commands.Ordered → ∀ pc c, s.command? pc = some c →
      ∃ name, names.commandName? c.type = some name ∧
        Row.text s names (.entry pc) = line pc (name ++ argumentsText c) ∧
        names.commands.get? name = some c.type ∧
        ∀ other, names.commands.get? other = some c.type →
          other = name ∨ bytes name < bytes other) := by
  have hnamed := named_of_compile h s hs
  have hformed := (sound_of_compile h s hs).toWellFormed
  have hordered := hnamed.ordered
  refine ⟨listing_eq_join s, fun pc => ⟨?_, fun name => mem_labelsAt hordered⟩, fun name => ?_,
    fun name pc => exists_rows_eq hordered hformed, fun hnames pc c hc => ?_⟩
  · exact (hordered.pairwise_namesWhere _).imp bytes_lt_bytes
  · rw [(nodup_rows hordered).count]
    exact if_congr (label_mem_rows hordered hformed) rfl rfl
  · have hmem : c ∈ s.commands := Array.mem_of_getElem? hc
    obtain ⟨name, hfound, hleast⟩ := exists_commandName? hnames (hnamed.exists_name c hmem)
    exact ⟨name, hfound, text_entry_of_commandName? hc hfound, hleast⟩

open Listing in
/-- A macro inside a macro, with two labels at one address and a command of two names. -/
theorem listing_of_compile_nested :
    let text := "macro m\nmacro k\nb: a: jump b\nendmacro\nk\nendmacro\nz: m"
    let commands := ((∅ : NameTable CommandType).insert "jump" ⟨3⟩).insert "goto" ⟨3⟩
    let names : Registries := { Registries.empty with commands := commands }
    let inner : Script := ((Script.empty.declareLabel "b").declareLabel "a").push ⟨⟨3⟩, [.label "b"]⟩
    let outer : Script := (Script.empty.declareMacro "k" inner).push ⟨⟨3⟩, [.address 0]⟩
    let script : Script :=
      ((Script.empty.declareMacro "m" outer).declareLabel "z").push ⟨⟨3⟩, [.address 0]⟩
    (compile text names ⟨1, 2⟩).result = .ok script ∧ inner.Within script ∧ commands.Ordered ∧
      inner.listing names = "a:\nb:\n0000  goto b\n0001  <end>\n" ∧
      (rows inner).count (.label "b") = 1 ∧
      ∃ name, names.commandName? ⟨3⟩ = some name ∧
        ∀ other, commands.get? other = some ⟨3⟩ → other = name ∨ bytes name < bytes other := by
  intro text commands names inner outer script
  have h : (compile text names ⟨1, 2⟩).result = .ok script := by cbv
  have hwithin : inner.Within script :=
    .body List.mem_cons_self (.body List.mem_cons_self .self)
  have hnames : commands.Ordered := (NameTable.ordered_empty.insert _ _).insert _ _
  obtain ⟨htext, -, hcount, -, hentry⟩ := listing_of_compile h hwithin
  obtain ⟨name, hname, -, -, hleast⟩ := hentry hnames 0 ⟨⟨3⟩, [.label "b"]⟩ rfl
  refine ⟨h, hwithin, hnames, ?_, hcount "b", name, hname, hleast⟩
  rw [htext]
  cbv

end CommandScript
