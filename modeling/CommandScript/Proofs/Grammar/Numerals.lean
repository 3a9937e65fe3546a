import CommandScript.Parsing.Expression
import CommandScript.Proofs.Decimal.Digits
import CommandScript.Proofs.Outcome
import CommandScript.Proofs.Streams.Row
import CommandScript.Proofs.Tokens.Segments
import Mathlib
/-! # What numerals stand for

A numeral without a point has the value that its digits have by their places, in base ten or, behind
`0x`, in base sixteen. It is read as that integer if 32 bits with a sign can hold it, and refused
otherwise, however long it is; a `0x` without digits is refused too. A numeral with a point is never
refused. Lexing and reading tell these forms apart in the same way: there are no other ones, and
none is taken for another.
-/
namespace CommandScript

namespace Lexical

instance (c : Char) : Decidable (HexDigit c) := inferInstanceAs (Decidable (_ ∨ _))

/-- The place of a digit among all of them, in either case. -/
def digitOf (c : Char) : Nat := "0123456789abcdef".toList.idxOf c.toLower

/-- The value of a row of digits, of which the last one counts ones. -/
def placeValue (base : Nat) (ds : List Char) : Nat := Nat.ofDigits base (ds.reverse.map digitOf)

theorem placeValue_concat (base : Nat) (ds : List Char) (d : Char) :
    placeValue base (ds ++ [d]) = placeValue base ds * base + digitOf d := by
  rw [placeValue, List.reverse_append, List.reverse_singleton, List.singleton_append, List.map_cons,
    Nat.ofDigits_cons, placeValue]
  ring

theorem HexDigit.toNat_lt {c : Char} (h : HexDigit c) : c.toNat < 128 := by
  have hle : c ≤ 'f' := by
    rcases h with h | h | h
    · exact h.2.trans (by decide)
    · exact h.2
    · exact h.2.trans (by decide)
  have hnat : c.toNat ≤ 'f'.toNat := hle
  exact hnat.trans_lt (by decide)

theorem digitValue?_of_hexDigit {c : Char} (h : HexDigit c) :
    Decimal.digitValue? c = some (digitOf c) ∧ digitOf c < 16 ∧ (Digit c → digitOf c < 10) := by
  have hall : ∀ n < 128, HexDigit (Char.ofNat n) →
      Decimal.digitValue? (Char.ofNat n) = some (digitOf (Char.ofNat n)) ∧
        digitOf (Char.ofNat n) < 16 ∧ (Digit (Char.ofNat n) → digitOf (Char.ofNat n) < 10) := by
    decide +kernel
  rw [← Char.ofNat_toNat c] at h ⊢
  exact hall _ (by simpa using h.toNat_lt) h

/-- The digits of a base. -/
def InBase (base : Nat) (c : Char) : Prop :=
  Decimal.digitValue? c = some (digitOf c) ∧ digitOf c < base

theorem Digit.inBase_ten {c : Char} (h : Digit c) : InBase 10 c :=
  have hvalue := digitValue?_of_hexDigit (.inl h)
  ⟨hvalue.1, hvalue.2.2 h⟩

theorem HexDigit.inBase_sixteen {c : Char} (h : HexDigit c) : InBase 16 c :=
  have hvalue := digitValue?_of_hexDigit h
  ⟨hvalue.1, hvalue.2.1⟩

end Lexical

namespace Decimal
open Lexical
variable {base : Nat} {ds : List Char}

theorem readDigits?_concat (base value : Nat) (ds : List Char) (d : Char) :
    readDigits? base value (ds ++ [d]) =
      (readDigits? base value ds).bind fun n => readDigits? base n [d] := by
  induction ds generalizing value with
  | nil => rfl
  | cons c ds ih =>
    rw [List.cons_append, readDigits?, readDigits?]
    split
    · split
      · exact ih _
      · rfl
    · rfl

theorem readDigits?_eq_placeValue (h : ∀ d ∈ ds, InBase base d) :
    readDigits? base 0 ds = some (placeValue base ds) := by
  induction ds using List.reverseRecOn with
  | nil => rfl
  | append_singleton ds d ih =>
    obtain ⟨hds, hd⟩ := List.forall_mem_append.mp h
    obtain ⟨hvalue, hlt⟩ := hd d List.mem_cons_self
    rw [readDigits?_concat, ih hds, Option.bind_some, placeValue_concat]
    simp [readDigits?, hvalue, hlt]

theorem readInt?_eq_placeValue (hne : ds ≠ []) (h : ∀ d ∈ ds, InBase base d) :
    readInt? base ds = some (placeValue base ds : Int) := by
  have hsign : splitSign ds = (false, ds) := by
    cases ds with
    | nil => rfl
    | cons d ds =>
      have hvalue := (h d List.mem_cons_self).1
      unfold splitSign
      split
      · rename_i hminus
        cases hminus
        exact absurd hvalue (by decide)
      · rename_i hplus
        cases hplus
        exact absurd hvalue (by decide)
      · rfl
  have hempty : ds.isEmpty = false := List.isEmpty_eq_false_iff.mpr hne
  rw [readInt?, hsign]
  simp [readNat?, hempty, readDigits?_eq_placeValue h]

/-- Digits, a point and perhaps more digits always spell a number. -/
theorem readFloat?_of_fraction {fs : List Char} (hne : ds ≠ []) (hds : ∀ d ∈ ds, Digit d)
    (hfs : ∀ d ∈ fs, Digit d) :
    readFloat? (ds ++ '.' :: fs) =
      some (nearest (Nat.ofDigitChars 10 (ds ++ fs) 0) (0 - fs.length)) := by
  have hdigit : ∀ d ∈ ds, d.isDigit = true := fun d hd => isDigit_iff.mpr (hds d hd)
  have hfdigit : ∀ d ∈ fs, d.isDigit = true := fun d hd => isDigit_iff.mpr (hfs d hd)
  have hsign : splitSign (ds ++ '.' :: fs) = (false, ds ++ '.' :: fs) := by
    obtain ⟨d, ds, rfl⟩ := List.exists_cons_of_ne_nil hne
    exact splitSign_cons (hdigit d List.mem_cons_self) _
  have hwhole : (ds ++ '.' :: fs).takeWhile Char.isDigit = ds := by
    rw [List.takeWhile_append_of_pos hdigit]
    simp
  have hpoint : (ds ++ '.' :: fs).dropWhile Char.isDigit = '.' :: fs := by
    rw [List.dropWhile_append_of_pos hdigit]
    simp
  have hfraction : fs.takeWhile Char.isDigit = fs := List.takeWhile_eq_self_iff.mpr hfdigit
  have hend : fs.dropWhile Char.isDigit = [] := List.dropWhile_eq_nil_iff.mpr hfdigit
  have hread : readNat? 10 (ds ++ fs) = some (Nat.ofDigitChars 10 (ds ++ fs) 0) :=
    readNat?_of_digits (by simp [hne]) (List.forall_mem_append.mpr ⟨hdigit, hfdigit⟩)
  simp only [readFloat?, hsign, hwhole, hpoint, hfraction, hend, hread, readExponent?]
  rfl

end Decimal

namespace Expr
open Lexical
variable {text : String} {ds : List Char}

theorem int32?_of_le {n : Nat} (h : n ≤ 2 ^ 31 - 1) :
    ∃ k : Int32, int32? n = some k ∧ k.toInt = n :=
  ⟨Int32.ofInt n, if_pos (by omega), Int32.toInt_ofInt_of_le (by omega) (by omega)⟩

theorem int32?_of_lt {n : Nat} (h : 2 ^ 31 - 1 < n) : int32? n = none := if_neg (by omega)

theorem ofNumber?_of_whole (hne : ds ≠ []) (h : ∀ d ∈ ds, Digit d) (htext : text.toList = ds) :
    ofNumber? text = (int32? (placeValue 10 ds)).map integer := by
  have hdigits : ∀ c ∈ text.toList, c.isDigit = true := fun c hc =>
    isDigit_iff.mpr (h c (htext ▸ hc))
  rw [ofNumber?_of_digits hdigits, htext,
    Decimal.readInt?_eq_placeValue hne fun d hd => (h d hd).inBase_ten, Option.bind_some]

theorem ofNumber?_hexadecimal (htext : text.toList = '0' :: 'x' :: ds) :
    ofNumber? text = ((Decimal.readInt? 16 ds).bind int32?).map integer := by
  unfold ofNumber?
  split
  · rename_i more hmore
    cases htext.symm.trans hmore
    rfl
  · rename_i hother
    exact absurd htext (hother ds)

theorem ofNumber?_of_hexadecimal (hne : ds ≠ []) (h : ∀ d ∈ ds, HexDigit d)
    (htext : text.toList = '0' :: 'x' :: ds) :
    ofNumber? text = (int32? (placeValue 16 ds)).map integer := by
  rw [ofNumber?_hexadecimal htext,
    Decimal.readInt?_eq_placeValue hne fun d hd => (h d hd).inBase_sixteen, Option.bind_some]

theorem ofNumber?_bare (htext : text.toList = ['0', 'x']) : ofNumber? text = none := by
  rw [ofNumber?_hexadecimal htext]
  rfl

theorem exists_ofNumber?_of_fraction {fs : List Char} (hne : ds ≠ []) (hds : ∀ d ∈ ds, Digit d)
    (hfs : ∀ d ∈ fs, Digit d) (htext : text.toList = ds ++ '.' :: fs) :
    ∃ x, ofNumber? text = some (.float x) := by
  have hnot : 'x' ∉ ds ++ '.' :: fs := by
    simp only [List.mem_append, List.mem_cons, not_or]
    exact ⟨fun hx => absurd (hds _ hx) (by decide), by decide,
      fun hx => absurd (hfs _ hx) (by decide)⟩
  have hread : ofNumber? text = (Decimal.readFloat? (ds ++ '.' :: fs)).map float := by
    unfold ofNumber?
    rw [htext]
    split
    · rename_i more hmore
      exact absurd (by simp [hmore]) hnot
    · rw [if_pos (by simp)]
  rw [hread, Decimal.readFloat?_of_fraction hne hds hfs]
  exact ⟨_, rfl⟩

end Expr

namespace Lexical

theorem Spells.number_of_kind {text raw : List Char} (h : Spells .number text raw) :
    Number text := by
  cases h with
  | number hnumber => exact hnumber
  | mark hmark => exact absurd hmark (by simp [marks])
  | keyword hkey => exact absurd hkey (by simp [keywords])

theorem Number.fraction_of_point {text : List Char} (h : Number text) (hpoint : '.' ∈ text) :
    ∃ ds fs, text = ds ++ '.' :: fs ∧ ds ≠ [] ∧ (∀ d ∈ ds, Digit d) ∧ ∀ d ∈ fs, Digit d := by
  cases h with
  | hexadecimal hds =>
    simp only [List.mem_cons, Char.reduceEq, false_or] at hpoint
    exact absurd (hds _ hpoint) (by decide)
  | whole hne hds => exact absurd (hds _ hpoint) (by decide)
  | @fraction ds fs hne hds hfs => exact ⟨ds, fs, rfl, hne, hds, hfs⟩

end Lexical

namespace Grammar
open TokenStream Lexical
variable {τ : Type} [TokenStream τ] (resolve : String → Expr) {s : τ} (t : First size s)

/-- The first token is taken for a leaf. -/
def Takes (e : Expr) : Prop := ∃ lt, primary resolve s = .ok ⟨e, t.after, lt⟩

/-- The first token is refused as a number, with its text and its line. -/
def Refuses : Prop := primary resolve s = .error (.invalidNumber t.token.text t.token.line)

/-- The first token is taken for a value, unless the value is too large. -/
def TakesValue (value : Nat) : Prop :=
  (value ≤ 2 ^ 31 - 1 → ∃ n : Int32, n.toInt = value ∧ Takes resolve t (.integer n)) ∧
    (2 ^ 31 - 1 < value → Refuses resolve t)

variable {resolve t} (hfirst : first s = .ok t) (hkind : t.token.kind = .number)
include hfirst hkind

theorem primary_of_number :
    primary resolve s =
      match Expr.ofNumber? t.token.text with
      | some e => .ok ⟨e, t.after, t.after_lt_of_kind hkind (by decide)⟩
      | none => .error (.invalidNumber t.token.text t.token.line) := by
  rw [primary, hfirst, ok_bind]
  split
  · rename_i hk
    cases hkind.symm.trans hk
  · rename_i hk
    cases hkind.symm.trans hk
  · cases Expr.ofNumber? t.token.text <;> rfl
  · rename_i hk
    cases hkind.symm.trans hk
  · rename_i hk
    cases hkind.symm.trans hk
  · rename_i hnumber _ _
    exact absurd hkind hnumber

theorem takes_of_ofNumber? {e : Expr} (h : Expr.ofNumber? t.token.text = some e) :
    Takes resolve t e :=
  ⟨t.after_lt_of_kind hkind (by decide), by rw [primary_of_number hfirst hkind, h]⟩

theorem refuses_of_ofNumber? (h : Expr.ofNumber? t.token.text = none) : Refuses resolve t := by
  rw [Refuses, primary_of_number hfirst hkind, h]

theorem takesValue_of_ofNumber? {value : Nat}
    (h : Expr.ofNumber? t.token.text = (Expr.int32? value).map .integer) :
    TakesValue resolve t value := by
  constructor
  · intro hle
    obtain ⟨n, hn, hvalue⟩ := Expr.int32?_of_le hle
    rw [hn] at h
    exact ⟨n, hvalue, takes_of_ofNumber? hfirst hkind h⟩
  · intro hlt
    rw [Expr.int32?_of_lt hlt] at h
    exact refuses_of_ofNumber? hfirst hkind h

/-- A number of the lexer's is of one of three forms. Decimal digits, and hexadecimal ones behind
`0x`, are taken for their value by place if it fits and refused if not, `0x` alone is refused, and a
number with a point is taken for a float. -/
theorem primary_of_numeral {lexer : Lexer} (hlexer : lexer.next.1 = .ok t.token) :
    Lexical.Number t.token.text.toList ∧
    (∀ ds, t.token.text.toList = ds → ds ≠ [] → (∀ d ∈ ds, Digit d) →
      TakesValue resolve t (placeValue 10 ds)) ∧
    (∀ ds, t.token.text.toList = '0' :: 'x' :: ds → ds ≠ [] → (∀ d ∈ ds, HexDigit d) →
      TakesValue resolve t (placeValue 16 ds)) ∧
    (t.token.text = "0x" → Refuses resolve t) ∧
    ('.' ∈ t.token.text.toList → ∃ x, Takes resolve t (.float x)) := by
  obtain ⟨raw, hspells⟩ := Lexer.exists_spells_of_next hlexer (by rw [hkind]; decide)
  rw [hkind] at hspells
  have hnumber := hspells.number_of_kind
  refine ⟨hnumber, fun ds htext hne hds => ?_, fun ds htext hne hds => ?_, fun htext => ?_,
    fun hpoint => ?_⟩
  · exact takesValue_of_ofNumber? hfirst hkind (Expr.ofNumber?_of_whole hne hds htext)
  · exact takesValue_of_ofNumber? hfirst hkind (Expr.ofNumber?_of_hexadecimal hne hds htext)
  · exact refuses_of_ofNumber? hfirst hkind (Expr.ofNumber?_bare (by rw [htext]; rfl))
  · obtain ⟨ds, fs, htext, hne, hds, hfs⟩ := hnumber.fraction_of_point hpoint
    obtain ⟨x, hx⟩ := Expr.exists_ofNumber?_of_fraction hne hds hfs htext
    exact ⟨x, takes_of_ofNumber? hfirst hkind hx⟩

omit hfirst hkind in
/-- The largest integer with zeros in front and digits of either case, and the next one. -/
theorem primary_of_numeral_bounds :
    let row (text : String) : TokenRow := ⟨[⟨.number, text, 1⟩], .ok ⟨⟨.eof, "", 1⟩, rfl⟩⟩
    (∃ rest lt, primary .label (row "0x007fFFfFfF") = .ok ⟨.integer 0x7FFFFFFF, rest, lt⟩) ∧
      primary .label (row "02147483648") = .error (.invalidNumber "02147483648" 1) := by
  intro row
  have hfirst (text : String) := TokenRow.first_cons ⟨.number, text, 1⟩ [] (row text).ending
  constructor
  · have hlexer : (Lexer.mk "0x007fFFfFfF".toList 1).next.1 =
        .ok ⟨.number, "0x007fFFfFfF", 1⟩ := by decide
    have hdigits : ∀ d ∈ "007fFFfFfF".toList, HexDigit d := by simp [HexDigit, Digit]
    have hvalue : placeValue 16 "007fFFfFfF".toList = 0x7FFFFFFF := by decide
    obtain ⟨-, -, hhexadecimal, -, -⟩ := primary_of_numeral (hfirst "0x007fFFfFfF") rfl hlexer
    obtain ⟨n, hn, lt, htakes⟩ :=
      (hhexadecimal "007fFFfFfF".toList (by decide) (by decide) hdigits).1 (by omega)
    have hlargest : n = 0x7FFFFFFF := by
      rw [hvalue] at hn
      exact Int32.toInt_inj.mp hn
    exact ⟨_, lt, hlargest ▸ htakes⟩
  · have hlexer : (Lexer.mk "02147483648".toList 1).next.1 =
        .ok ⟨.number, "02147483648", 1⟩ := by decide
    have hdigits : ∀ d ∈ "02147483648".toList, Digit d := by simp [Digit]
    have hvalue : placeValue 10 "02147483648".toList = 2 ^ 31 := by decide
    obtain ⟨-, hwhole, -⟩ := primary_of_numeral (hfirst "02147483648") rfl hlexer
    exact (hwhole "02147483648".toList rfl (by decide) hdigits).2 (by omega)

end Grammar

end CommandScript
