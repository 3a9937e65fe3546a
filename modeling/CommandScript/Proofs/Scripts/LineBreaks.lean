import CommandScript.Proofs.Decimal.Writing
import CommandScript.Proofs.Scripts.Listings
import Mathlib
/-! # The lines of a listing

A row of a listing is one line, unless what it shows has a line break of its own. Labels are words,
and numbers are written with digits, signs, points and letters, so breaks come from two places only:
a string, which is shown as it is, and a name that the host gave a command. The listing of a compiled
script has one line for each command, each label and the end, and one more for each such break.
-/
namespace CommandScript

/-- The number of lines that end in a text. -/
def newlines (w : String) : Nat := w.toList.count '\n'

section Newlines

theorem newlines_eq_zero {w : String} : newlines w = 0 ↔ '\n' ∉ w.toList := List.count_eq_zero

@[simp] theorem newlines_append (v w : String) : newlines (v ++ w) = newlines v + newlines w := by
  rw [newlines, String.toList_append, List.count_append]
  rfl

theorem newlines_join (ws : List String) : newlines (String.join ws) = (ws.map newlines).sum := by
  induction ws with
  | nil => rfl
  | cons w ws ih => rw [String.join_cons, newlines_append, ih, List.map_cons, List.sum_cons]

theorem newlines_intercalate {separator : String} (h : newlines separator = 0) (ws : List String) :
    newlines (separator.intercalate ws) = (ws.map newlines).sum := by
  induction ws with
  | nil => rfl
  | cons w ws ih =>
    rw [List.map_cons, List.sum_cons, ← ih]
    cases ws with
    | nil =>
      rw [String.intercalate_singleton, String.intercalate_nil]
      rfl
    | cons v ws =>
      rw [String.intercalate_cons_cons, newlines_append, newlines_append, h, Nat.add_zero]

theorem newlines_toString_nat (n : Nat) : newlines (toString n) = 0 := by
  refine newlines_eq_zero.mpr fun hmem => ?_
  rw [Nat.toString_eq_repr, Nat.toList_repr] at hmem
  exact absurd (Decimal.isDigit_of_mem_toDigits hmem) (by decide)

theorem newlines_toString_int (i : Int) : newlines (toString i) = 0 := by
  cases i with
  | ofNat n => exact newlines_toString_nat n
  | negSucc n =>
    refine newlines_eq_zero.mpr ?_
    rw [Decimal.toList_toString_negSucc]
    rintro (_ | ⟨_, hmem⟩)
    exact absurd (Decimal.isDigit_of_mem_toDigits hmem) (by decide)

/-- A number between two texts, as handles are shown. -/
theorem newlines_numbered (head tail : String) (n : Nat) :
    newlines (head ++ toString n ++ tail) = newlines head + newlines tail := by
  rw [newlines_append, newlines_append, newlines_toString_nat, Nat.add_zero]

theorem newlines_floatText (x : Float) : newlines (floatText x) = 0 := by
  refine newlines_eq_zero.mpr ?_
  cases hfinite : x.isFinite with
  | true =>
    intro hmem
    have hnumber := Decimal.numberText_write floatLayout hfinite
    exact absurd (Json.isNumberChar_of_text hnumber _ hmem) (by decide)
  | false =>
    rw [floatText]
    rcases Decimal.write_of_not_finite floatLayout hfinite with h | h | h <;> rw [h] <;> decide

theorem newlines_of_word {w : String} (h : Lexical.Word w.toList) : newlines w = 0 :=
  newlines_eq_zero.mpr fun hmem => absurd (h.wordChar _ hmem) (by decide)

end Newlines

namespace Expr

/-- The line breaks in the strings of an expression. -/
def lineBreaks : Expr → Nat
  | string w => newlines w
  | unary _ e => e.lineBreaks
  | binary _ l r => l.lineBreaks + r.lineBreaks
  | _ => 0

theorem lineBreaks_eq_zero {e : Expr} :
    e.lineBreaks = 0 ↔ ∀ w, .string w ∈ e.leaves → newlines w = 0 := by
  induction e with
  | string w => simp [lineBreaks, leaves]
  | unary op e ih => exact ih
  | binary op l r ihl ihr =>
    simp only [lineBreaks, leaves, List.mem_append, Nat.add_eq_zero_iff, ihl, ihr, or_imp, forall_and]
  | _ => simp [lineBreaks, leaves]

/-- Where no label is left, only strings can break a line. -/
theorem newlines_text {e : Expr} (h : ∀ name, .label name ∉ e.leaves) :
    newlines e.text = e.lineBreaks := by
  induction e with
  | integer n => exact newlines_toString_int _
  | float x => exact newlines_floatText x
  | string w =>
    rw [text, newlines_append, newlines_append]
    exact Nat.zero_add (newlines w)
  | identifier i => exact newlines_numbered "ident(" ")" _
  | var v => exact newlines_numbered "var(" ")" _
  | flag f => exact newlines_numbered "flag(" ")" _
  | label name => exact absurd List.mem_cons_self (h name)
  | address a =>
    rw [text, newlines_append]
    exact congrArg (newlines "@" + ·) (newlines_toString_nat a)
  | unary op e ih =>
    have hsymbol : newlines op.symbol = 0 := by cases op <;> rfl
    rw [text, newlines_append, hsymbol, ih h, Nat.zero_add, lineBreaks]
  | binary op l r ihl ihr =>
    have hsymbol : newlines op.symbol = 0 := by cases op <;> rfl
    have hmarks : newlines "(" = 0 ∧ newlines " " = 0 ∧ newlines ")" = 0 := ⟨rfl, rfl, rfl⟩
    simp only [leaves, List.mem_append, not_or, forall_and] at h
    simp only [text, newlines_append, ihl h.1, ihr h.2, hsymbol, hmarks, lineBreaks, Nat.zero_add,
      Nat.add_zero]

end Expr

/-- The line breaks in a command as it is shown: those of its name and of its arguments. -/
def Command.lineBreaks (shown : Registries) (c : Command) : Nat :=
  newlines (Listing.commandName shown c.type) + (c.args.map Expr.lineBreaks).sum

theorem Command.lineBreaks_eq_zero {shown : Registries} {c : Command} :
    c.lineBreaks shown = 0 ↔ '\n' ∉ (Listing.commandName shown c.type).toList ∧
      ∀ e ∈ c.args, ∀ w, .string w ∈ e.leaves → '\n' ∉ w.toList := by
  rw [lineBreaks, Nat.add_eq_zero_iff, newlines_eq_zero, List.sum_eq_zero_iff, List.forall_mem_map]
  simp only [Expr.lineBreaks_eq_zero, newlines_eq_zero]

namespace Listing

section Entries
variable {shown : Registries} {c : Command}

theorem newlines_argumentsText (h : ∀ e ∈ c.args, ∀ name, .label name ∉ e.leaves) :
    newlines (argumentsText c) = (c.args.map Expr.lineBreaks).sum := by
  have hargs : c.args.map (newlines ∘ Expr.text) = c.args.map Expr.lineBreaks :=
    List.map_congr_left fun e he => Expr.newlines_text (h e he)
  unfold argumentsText
  split
  · rename_i hempty
    rw [List.isEmpty_iff.mp hempty]
    rfl
  · rw [newlines_append, newlines_intercalate (by rfl), List.map_map, hargs]
    exact Nat.zero_add _

theorem newlines_commandText (h : ∀ e ∈ c.args, ∀ name, .label name ∉ e.leaves) :
    newlines (commandText shown c) = c.lineBreaks shown := by
  rw [commandText_eq, newlines_append, newlines_argumentsText h, Command.lineBreaks]

theorem newlines_line (pc : Address) (w : String) : newlines (line pc w) = newlines w + 1 := by
  have haddress : newlines (addressText pc) = 0 := by
    have hzeros (n : Nat) : newlines (String.ofList (List.replicate n '0')) = 0 := by
      rw [newlines_eq_zero, String.toList_ofList]
      exact fun hmem => absurd (List.eq_of_mem_replicate hmem) (by decide)
    rw [addressText, newlines_append, hzeros, newlines_toString_nat]
  have hmarks : newlines "  " = 0 ∧ newlines "\n" = 1 := ⟨rfl, rfl⟩
  simp only [line, newlines_append, haddress, hmarks, Nat.zero_add]

theorem exists_entries_eq (s : Script) (shown : Registries) (pc : Address) (cs : List Command) :
    ∃ w, entries s shown pc cs = w ++ line (pc + cs.length) "<end>" := by
  induction cs generalizing pc with
  | nil => exact ⟨labels s pc, rfl⟩
  | cons c cs ih =>
    obtain ⟨w, hw⟩ := ih (pc + 1)
    refine ⟨labels s pc ++ line pc (commandText shown c) ++ w, ?_⟩
    rw [entries, hw, ← String.append_assoc, List.length_cons, Nat.add_right_comm, Nat.add_assoc]

end Entries

section Rows
variable {s : Script} {shown : Registries}

theorem entry_mem_rows {pc : Address} : .entry pc ∈ rows s ↔ pc ≤ s.size := by
  simp [rows, rowsAt]

/-- Up to their order, the rows are the labels and the addresses. -/
theorem rows_perm (h : s.labels.Ordered) (hs : s.WellFormed) :
    (rows s).Perm (s.labels.entries.map (fun e => .label e.1) ++
      (List.range (s.size + 1)).map .entry) := by
  have hlabels : (s.labels.entries.map fun e => Row.label e.1).Nodup :=
    List.pairwise_map.mpr (h.imp fun hlt heq => String.ne_of_lt hlt (Row.label.inj heq))
  have hentries : ((List.range (s.size + 1)).map Row.entry).Nodup :=
    List.nodup_range.map fun _ _ => Row.entry.inj
  refine (List.perm_ext_iff_of_nodup (nodup_rows h) (hlabels.append hentries ?_)).mpr fun row => ?_
  · intro row hlabel hentry
    obtain ⟨_, -, rfl⟩ := List.mem_map.mp hlabel
    obtain ⟨_, -, heq⟩ := List.mem_map.mp hentry
    cases heq
  · cases row with
    | label name =>
      rw [label_mem_rows h hs, Option.isSome_iff_exists]
      simp [Script.label?, h.get?_eq_some_iff]
    | entry pc => simp [entry_mem_rows]

theorem sum_map_rows (h : s.labels.Ordered) (hs : s.WellFormed) (f : Row → Nat) :
    ((rows s).map f).sum = (s.labels.entries.map fun e => f (.label e.1)).sum +
      ((List.range (s.size + 1)).map fun pc => f (.entry pc)).sum := by
  rw [((rows_perm h hs).map f).sum_eq, List.map_append, List.sum_append, List.map_map,
    List.map_map]
  rfl

theorem newlines_text_label {name : String} (h : Lexical.Word name.toList) :
    newlines (Row.text s shown (.label name)) = 1 := by
  rw [Row.text, newlines_append, newlines_of_word h]
  rfl

theorem newlines_text_entry
    (h : ∀ c ∈ s.commands, ∀ e ∈ c.args, ∀ name, .label name ∉ e.leaves) (pc : Address) :
    newlines (Row.text s shown (.entry pc)) =
      (s.command? pc).elim 0 (Command.lineBreaks shown) + 1 := by
  rw [Row.text, newlines_line]
  cases hc : s.command? pc with
  | none =>
    rw [Option.elim_none, Option.elim_none]
    rfl
  | some c =>
    rw [Option.elim_some, Option.elim_some, newlines_commandText (h c (Array.mem_of_getElem? hc))]

theorem sum_lineBreaks (s : Script) (shown : Registries) :
    ((List.range (s.size + 1)).map
      fun pc => (s.command? pc).elim 0 (Command.lineBreaks shown)).sum =
      (s.commands.toList.map (Command.lineBreaks shown)).sum := by
  have hend : s.command? s.size = none := Array.getElem?_eq_none (Nat.le_refl _)
  rw [List.range_succ, List.map_append, List.sum_append, List.map_singleton, List.sum_singleton, hend]
  refine congrArg List.sum (List.ext_getElem ?_ fun pc hpc hpc' => ?_)
  · rw [List.length_map, List.length_map, List.length_range, Array.length_toList, Script.size]
  · have hlt : pc < s.commands.size := by simpa using hpc'
    rw [List.getElem_map, List.getElem_map, List.getElem_range, Script.command?,
      Array.getElem?_eq_getElem hlt, Option.elim_some, Array.getElem_toList]

/-- One line for each label, for each command and for the end, and one for each break. -/
theorem newlines_listing {names : Registries} (h : s.Named names) (hs : s.WellFormed)
    (hlabel : ∀ c ∈ s.commands, ∀ e ∈ c.args, ∀ name, .label name ∉ e.leaves)
    (shown : Registries) :
    newlines (s.listing shown) = s.size + s.labels.size + 1 +
      (s.commands.toList.map (Command.lineBreaks shown)).sum := by
  have hlabels : ∀ e ∈ s.labels.entries, newlines (Row.text s shown (.label e.1)) = 1 :=
    fun e he => newlines_text_label (h.word e he)
  rw [listing_eq_join, newlines_join, List.map_map, sum_map_rows h.ordered hs]
  simp only [Function.comp_apply, List.map_congr_left hlabels, newlines_text_entry hlabel,
    List.sum_map_add, sum_lineBreaks, List.map_const', List.length_range, List.sum_replicate,
    smul_eq_mul, mul_one, NameTable.size]
  omega

end Rows

end Listing

open Listing in
/-- The listing of a compiled script ends with the end's line. It has a line for each command, each
label and the end, and one more for each line break in a string or in a command's shown name; so it
has no others just if no shown name and no string has a line break. -/
theorem newlines_listing_of_compile {text : String} {names : Registries} {config : LookaheadConfig}
    {script : Script} (h : (compile text names config).result = .ok script) (shown : Registries) :
    newlines (script.listing shown) = script.size + script.labels.size + 1 +
      (script.commands.toList.map (Command.lineBreaks shown)).sum ∧
    (newlines (script.listing shown) = script.size + script.labels.size + 1 ↔
      ∀ c ∈ script.commands, '\n' ∉ (commandName shown c.type).toList ∧
        ∀ e ∈ c.args, ∀ w, .string w ∈ e.leaves → '\n' ∉ w.toList) ∧
    ∃ w, script.listing shown = w ++ line script.size "<end>" := by
  have hcount := newlines_listing (named_of_compile h).own (sound_of_compile h).own.toWellFormed
    (label_not_mem_of_compile h) shown
  refine ⟨hcount, ?_, ?_⟩
  · rw [hcount, Nat.add_eq_left, List.sum_eq_zero_iff, List.forall_mem_map]
    simp only [Array.mem_toList_iff, Command.lineBreaks_eq_zero]
  · obtain ⟨w, hw⟩ := exists_entries_eq script shown 0 script.commands.toList
    rw [Nat.zero_add, Array.length_toList] at hw
    exact ⟨w, hw⟩

/-- Two labels, and a string with two breaks: five lines and two more. -/
theorem newlines_listing_of_compile_labels :
    let text := "a: hostCall \"x\n\ny\", 1 + a\nb: hostCall"
    let names : Registries :=
      { Registries.empty with commands := (∅ : NameTable _).insert "hostCall" ⟨2⟩ }
    let first : Command := ⟨⟨2⟩, [.string "x\n\ny", .binary .add (.integer 1) (.address 0)]⟩
    let script : Script :=
      ((Script.empty.declareLabel "a").push first |>.declareLabel "b").push ⟨⟨2⟩, []⟩
    (compile text names ⟨1, 2⟩).result = .ok script ∧ newlines (script.listing names) = 7 ∧
      ¬newlines (script.listing names) = script.size + script.labels.size + 1 := by
  intro text names first script
  have h : (compile text names ⟨1, 2⟩).result = .ok script := by cbv
  obtain ⟨hcount, hlines, -⟩ := newlines_listing_of_compile h names
  have hfirst : first ∈ script.commands := Array.mem_push_of_mem _ Array.mem_push_self
  refine ⟨h, hcount.trans (by cbv), fun hexact => ?_⟩
  have hstrings := (hlines.mp hexact first hfirst).2
  exact hstrings (.string "x\n\ny") List.mem_cons_self "x\n\ny" List.mem_cons_self (by decide)

/-- One command and no label, but three lines: its string is shown with the break in it. -/
theorem newlines_listing_broken_string :
    let text := "hostCall \"a\nb\""
    let names : Registries :=
      { Registries.empty with commands := (∅ : NameTable _).insert "hostCall" ⟨2⟩ }
    let script : Script := Script.empty.push ⟨⟨2⟩, [.string "a\nb"]⟩
    (compile text names ⟨1, 2⟩).result = .ok script ∧
      script.listing names = "0000  hostCall \"a\nb\"\n0001  <end>\n" ∧
      newlines (script.listing names) ≠ script.size + script.labels.size + 1 := by
  intro text names script
  have hlisting : script.listing names = "0000  hostCall \"a\nb\"\n0001  <end>\n" := by cbv
  refine ⟨by cbv, hlisting, ?_⟩
  rw [hlisting]
  decide

end CommandScript
