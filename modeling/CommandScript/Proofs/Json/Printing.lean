import CommandScript.Json.Printer
import CommandScript.Proofs.Decimal.Digits
import CommandScript.Proofs.Json.Grammar
import Mathlib
/-! # What is written can be read

A value whose numbers and strings keep to the grammar is written, at every depth, as a text of the
grammar. So the reader takes the text for the same value.
-/
namespace CommandScript.Json

/-- Every number and every string of the value is legal as it is written. -/
inductive Strict : Json → Prop
  | null : Strict .null
  | bool (b : Bool) : Strict (.bool b)
  | number {lexeme : String} (h : NumberText lexeme.toList) : Strict (.number lexeme)
  | string {raw : String} (h : RawString raw.toList) : Strict (.string raw)
  | array {js : List Json} (h : ∀ j ∈ js, Strict j) : Strict (.array js)
  | object {ms : List (String × Json)} (hnames : ∀ m ∈ ms, RawString m.1.toList)
    (h : ∀ m ∈ ms, Strict m.2) : Strict (.object ms)

section Blocks

theorem prettyItems_eq_map (depth : Nat) (js : List Json) :
    prettyItems depth js = js.map (pretty depth) := by
  induction js with
  | nil => rfl
  | cons j js ih => rw [prettyItems, ih, List.map_cons]

theorem prettyMembers_eq_map (depth : Nat) (ms : List (String × Json)) :
    prettyMembers depth ms = ms.map (fun m => quote m.1 ++ ": " ++ pretty depth m.2) := by
  induction ms with
  | nil => rfl
  | cons m ms ih => rw [prettyMembers, ih, List.map_cons]

theorem blanks_indent (depth : Nat) : Blanks (indent depth).toList := by
  intro c hc
  rw [indent, String.toList_ofList] at hc
  rw [List.eq_of_mem_replicate hc]
  decide

/-- The blanks that start a line. -/
def lineStart (depth : Nat) : List Char := '\n' :: (indent depth).toList

theorem blanks_lineStart (depth : Nat) : Blanks (lineStart depth) :=
  List.forall_mem_cons.mpr ⟨by decide, blanks_indent depth⟩

/-- Lines with commas between them spell a row, if each line spells its part of it. -/
theorem row_of_lines {α : Type} (Row : List α → List Char → Prop) {line : α → String}
    {depth : Nat} {b : List Char} {as : List α} (hne : as ≠ [])
    (hlast : ∀ a ∈ as, Row [a] (lineStart depth ++ ((line a).toList ++ b)))
    (hmore : ∀ a ∈ as, ∀ as' q, Row as' q →
      Row (a :: as') (lineStart depth ++ ((line a).toList ++ []) ++ ',' :: q)) :
    Row as ('\n' ::
      ((",\n".intercalate ((as.map line).map (indent depth ++ ·))).toList ++ b)) := by
  induction as with
  | nil => exact absurd rfl hne
  | cons a as ih =>
    cases as with
    | nil => simpa [lineStart] using hlast a List.mem_cons_self
    | cons a' as =>
      have hrow := ih (List.cons_ne_nil _ _) (fun x hx => hlast x (List.mem_cons_of_mem _ hx))
        (fun x hx => hmore x (List.mem_cons_of_mem _ hx))
      simpa [lineStart] using hmore a List.mem_cons_self _ _ hrow

theorem toList_block {opening closing : String} {depth : Nat} {lines : List String}
    (h : lines ≠ []) :
    (block opening closing depth lines).toList =
      opening.toList ++ ('\n' ::
        ((",\n".intercalate (lines.map (indent (depth + 1) ++ ·))).toList ++ lineStart depth) ++
        closing.toList) := by
  rw [block, if_neg (by simpa using h)]
  simp [lineStart]

end Blocks

section Texts
variable {j : Json} {js : List Json} {ms : List (String × Json)}

theorem spelled_items {depth : Nat} (hne : js ≠ [])
    (h : ∀ j ∈ js, Spelled (.value j) (pretty (depth + 1) j).toList) :
    Spelled (.value (.array js)) (block "[" "]" depth (js.map (pretty (depth + 1)))).toList := by
  have hpadded (j : Json) {b : List Char} (hb : Blanks b) :
      Padded (pretty (depth + 1) j).toList
        (lineStart (depth + 1) ++ ((pretty (depth + 1) j).toList ++ b)) :=
    .intro (blanks_lineStart _) hb
  rw [toList_block (by simpa using hne)]
  refine .array (row_of_lines (fun js => Spelled (.items js)) hne ?_ ?_)
  · intro j hj
    exact .item (h j hj) (hpadded j (blanks_lineStart depth))
  · intro j hj js' q hq
    exact .moreItems (h j hj) (hpadded j (List.forall_mem_nil _)) hq

theorem spelled_members {depth : Nat} (hne : ms ≠ []) (hnames : ∀ m ∈ ms, RawString m.1.toList)
    (h : ∀ m ∈ ms, Spelled (.value m.2) (pretty (depth + 1) m.2).toList) :
    Spelled (.value (.object ms)) (block "\x7b" "\x7d" depth
      (ms.map (fun m => quote m.1 ++ ": " ++ pretty (depth + 1) m.2))).toList := by
  have hkeyed {m : String × Json} (hm : m ∈ ms) {b : List Char} (hb : Blanks b) :
      Keyed m.1.toList (pretty (depth + 1) m.2).toList
        (lineStart (depth + 1) ++
          ((quote m.1 ++ ": " ++ pretty (depth + 1) m.2).toList ++ b)) := by
    have hblank : Blanks [' '] := by simp [Blanks]
    have hkey := Keyed.intro (blanks_lineStart (depth + 1)) (hnames m hm) (List.forall_mem_nil _)
      (Padded.intro (w := (pretty (depth + 1) m.2).toList) hblank hb)
    simpa [quote] using hkey
  rw [toList_block (by simpa using hne)]
  refine .object (row_of_lines (fun ms => Spelled (.members ms)) hne ?_ ?_)
  · intro m hm
    have hrow := Spelled.member (h m hm) (hkeyed hm (blanks_lineStart depth))
    rwa [String.ofList_toList] at hrow
  · intro m hm ms' q hq
    have hrow := Spelled.moreMembers (h m hm) (hkeyed hm (List.forall_mem_nil _)) hq
    rwa [String.ofList_toList] at hrow

/-- The text of a legal value spells it. -/
theorem Strict.spelled_pretty (h : Strict j) (depth : Nat) :
    Spelled (.value j) (pretty depth j).toList := by
  induction h generalizing depth with
  | null => simpa [pretty] using Spelled.null
  | bool b =>
    cases b with
    | false => simpa [pretty] using Spelled.boolFalse
    | true => simpa [pretty] using Spelled.boolTrue
  | number h =>
    have hspelled := Spelled.number h
    rwa [String.ofList_toList] at hspelled
  | string h =>
    have hspelled := Spelled.string h
    rw [String.ofList_toList] at hspelled
    simpa [pretty, quote] using hspelled
  | @array js h ih =>
    rw [pretty, prettyItems_eq_map]
    by_cases hne : js = []
    · subst hne
      simpa [block] using Spelled.emptyArray (List.forall_mem_nil _)
    · exact spelled_items hne (fun j hj => ih j hj (depth + 1))
  | @object ms hnames h ih =>
    rw [pretty, prettyMembers_eq_map]
    by_cases hne : ms = []
    · subst hne
      simpa [block] using Spelled.emptyObject (List.forall_mem_nil _)
    · exact spelled_members hne hnames (fun m hm => ih m hm (depth + 1))

theorem Strict.isText_pretty (h : Strict j) : IsText j (pretty 0 j ++ "\n") := by
  refine ⟨(pretty 0 j).toList, h.spelled_pretty 0, ?_⟩
  have hline : Blanks ['\n'] := by simp [Blanks]
  have hpadded := Padded.intro (w := (pretty 0 j).toList) (List.forall_mem_nil _) hline
  simpa using hpadded

theorem Strict.parse?_pretty (h : Strict j) : parse? (pretty 0 j ++ "\n") = some j :=
  parse?_of_isText h.isText_pretty

end Texts

section Values

theorem strict_text (s : String) : Strict (text s) := .string (denotes_escape s).rawString

theorem wholePart_toDigits (n : Nat) : WholePart (Nat.toDigits 10 n) := by
  by_cases hzero : n = 0
  · subst hzero
    rw [Nat.toDigits_zero]
    exact .zero
  · obtain ⟨c, ds, htext, hc⟩ := Decimal.exists_head_toDigits hzero
    rw [htext]
    refine .digits hc ⟨List.cons_ne_nil _ _, fun d hd => ?_⟩
    rw [← htext] at hd
    exact Decimal.isDigit_of_mem_toDigits hd

theorem numberText_whole {sign whole : List Char} (hsign : sign ∈ [[], ['-']])
    (h : WholePart whole) : NumberText (sign ++ whole) := by
  have hnumber := NumberText.intro hsign h .none .none
  rwa [List.append_nil, List.append_nil] at hnumber

theorem strict_int (n : Int) : Strict (int n) := by
  refine .number ?_
  cases n with
  | ofNat n =>
    have hnumber : NumberText ([] ++ Nat.toDigits 10 n) :=
      numberText_whole (by decide) (wholePart_toDigits n)
    rwa [Int.ofNat_eq_natCast, Decimal.toList_toString_natCast]
  | negSucc n =>
    have hnumber : NumberText (['-'] ++ Nat.toDigits 10 (n + 1)) :=
      numberText_whole (by decide) (wholePart_toDigits (n + 1))
    rwa [Decimal.toList_toString_negSucc]

theorem strict_nat (n : Nat) : Strict (nat n) := strict_int n

theorem strict_record {ms : List (String × Json)} (h : ∀ m ∈ ms, Strict m.2) :
    Strict (record ms) := by
  refine .object ?_ ?_
  · intro m hm
    obtain ⟨m', -, rfl⟩ := List.mem_map.mp hm
    exact (denotes_escape m'.1).rawString
  · intro m hm
    obtain ⟨m', hm', rfl⟩ := List.mem_map.mp hm
    exact h m' hm'

end Values

end CommandScript.Json
