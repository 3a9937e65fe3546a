import CommandScript.Token.Lexer
import Mathlib
/-! # Lexemes

How tokens are written. A word is a letter or an underscore with letters, digits and underscores
behind it, a number is hexadecimal or decimal, and a string stands in quotes, where a backslash
protects the character behind it. The grammar is stated on raw characters, without a lexer. Scanning
finds a lexeme of the grammar where there is one, and a word or a number is the longest that starts
at its place.
-/
namespace CommandScript

namespace Lexical

def Letter (c : Char) : Prop := ('a' ≤ c ∧ c ≤ 'z') ∨ ('A' ≤ c ∧ c ≤ 'Z')

instance (c : Char) : Decidable (Letter c) := inferInstanceAs (Decidable (_ ∨ _))

def Digit (c : Char) : Prop := '0' ≤ c ∧ c ≤ '9'

instance (c : Char) : Decidable (Digit c) := inferInstanceAs (Decidable (_ ∧ _))

def HexDigit (c : Char) : Prop := Digit c ∨ ('a' ≤ c ∧ c ≤ 'f') ∨ ('A' ≤ c ∧ c ≤ 'F')

def WordChar (c : Char) : Prop := Letter c ∨ Digit c ∨ c = '_'

instance (c : Char) : Decidable (WordChar c) := inferInstanceAs (Decidable (_ ∨ _ ∨ _))

inductive Word : List Char → Prop
  | intro {c : Char} {cs : List Char} (hfirst : Letter c ∨ c = '_')
    (hrest : ∀ d ∈ cs, WordChar d) : Word (c :: cs)

inductive Number : List Char → Prop
  | hexadecimal {ds : List Char} (h : ∀ d ∈ ds, HexDigit d) : Number ('0' :: 'x' :: ds)
  | whole {ds : List Char} (hne : ds ≠ []) (h : ∀ d ∈ ds, Digit d) : Number ds
  | fraction {ds fs : List Char} (hne : ds ≠ []) (h : ∀ d ∈ ds, Digit d) (hf : ∀ d ∈ fs, Digit d) :
    Number (ds ++ '.' :: fs)

/-- The inside of a string, and the text that it stands for. Quotes and backslashes of the text have
a backslash in front of them, and so may any other character. -/
inductive Quoted : List Char → List Char → Prop
  | nil : Quoted [] []
  | plain {c : Char} {body text : List Char} (hquote : c ≠ '"') (hslash : c ≠ '\\')
    (h : Quoted body text) : Quoted (c :: body) (c :: text)
  | escaped {c : Char} {body text : List Char} (h : Quoted body text) :
    Quoted ('\\' :: c :: body) (c :: text)

def keywords : List (TokenKind × List Char) :=
  [(.macroStart, "macro".toList), (.macroEnd, "endmacro".toList), (.const, "const".toList)]

def marks : List (TokenKind × Char) :=
  [(.newline, '\n'), (.leftParen, '('), (.rightParen, ')'), (.comma, ','), (.colon, ':'),
    (.operator, '+'), (.operator, '-'), (.operator, '*'), (.operator, '/'), (.operator, '%')]

/-- The raw characters, given last, that a token of some kind and text is written with. -/
inductive Spells : TokenKind → List Char → List Char → Prop
  | mark {kind : TokenKind} {c : Char} (h : (kind, c) ∈ marks) : Spells kind [c] [c]
  | keyword {kind : TokenKind} {w : List Char} (h : (kind, w) ∈ keywords) : Spells kind w w
  | ident {w : List Char} (h : Word w) (hkey : ∀ k ∈ keywords, w ≠ k.2) : Spells .ident w w
  | number {w : List Char} (h : Number w) : Spells .number w w
  | string {body text : List Char} (h : Quoted body text) :
    Spells .string text ('"' :: body ++ ['"'])

/-- The characters that some lexeme starts with. -/
def Starts (c : Char) : Prop :=
  c ∈ marks.map Prod.snd ∨ c = '"' ∨ Digit c ∨ Letter c ∨ c = '_'

instance (c : Char) : Decidable (Starts c) := inferInstanceAs (Decidable (_ ∨ _))

/-- Nothing longer of the grammar starts at the same place. -/
def Maximal (grammar : List Char → Prop) (raw rest : List Char) : Prop :=
  ∀ v, v <+: raw ++ rest → grammar v → v.length ≤ raw.length

/-- A word is the longest word at its place, and a number the longest number. -/
def Longest : TokenKind → List Char → List Char → Prop
  | .ident | .macroStart | .macroEnd | .const => Maximal Word
  | .number => Maximal Number
  | _ => fun _ _ => True

section Characters
variable {c : Char}

theorem isAlpha_iff : c.isAlpha = true ↔ Letter c := by
  simp only [Char.isAlpha, Char.isUpper, Char.isLower, Letter, Char.le_def, ge_iff_le,
    Bool.or_eq_true, Bool.and_eq_true, decide_eq_true_eq]
  exact or_comm

theorem isDigit_iff : c.isDigit = true ↔ Digit c := by
  simp only [Char.isDigit, Digit, Char.le_def, ge_iff_le, Bool.and_eq_true, decide_eq_true_eq]

theorem isHexDigit_iff : Lexer.isHexDigit c = true ↔ HexDigit c := by
  simp only [Lexer.isHexDigit, HexDigit, Bool.or_eq_true, Bool.and_eq_true, decide_eq_true_eq,
    isDigit_iff, or_assoc]

theorem isWordChar_iff : Lexer.isWordChar c = true ↔ WordChar c := by
  simp only [Lexer.isWordChar, Char.isAlphanum, WordChar, Bool.or_eq_true, beq_iff_eq, isAlpha_iff,
    isDigit_iff, or_assoc]

theorem isOperator_iff : Lexer.isOperator c = true ↔ (TokenKind.operator, c) ∈ marks := by
  simp [Lexer.isOperator, marks, or_assoc]

end Characters

/-- A run of characters is no longer than the longest one. -/
theorem length_le_takeWhile {p : Char → Bool} {v cs : List Char} (h : v <+: cs)
    (hv : ∀ d ∈ v, p d = true) : v.length ≤ (cs.takeWhile p).length := by
  obtain ⟨more, rfl⟩ := h
  rw [List.takeWhile_append_of_pos hv, List.length_append]
  exact Nat.le_add_right _ _

section Maximal
variable {grammar : List Char → Prop} {raw raw' rest rest' tail : List Char}

theorem maximal_nil : Maximal grammar raw [] := by
  intro v hv _
  rw [List.append_nil] at hv
  exact hv.length_le

theorem Maximal.unique (h : Maximal grammar raw rest) (hraw : grammar raw)
    (h' : Maximal grammar raw' rest') (hraw' : grammar raw') (hsame : raw ++ rest = raw' ++ rest') :
    raw = raw' ∧ rest = rest' := by
  have hle : raw.length ≤ raw'.length := h' raw (hsame ▸ List.prefix_append raw rest) hraw
  have hge : raw'.length ≤ raw.length := h raw' (hsame ▸ List.prefix_append raw' rest') hraw'
  exact List.append_inj hsame (Nat.le_antisymm hle hge)

/-- What is longest stays so in front of a character that the grammar never uses. -/
theorem Maximal.append (h : Maximal grammar raw rest)
    (htail : ∀ c ∈ tail.head?, ∀ v, grammar v → c ∉ v) : Maximal grammar raw (rest ++ tail) := by
  intro v hv hgrammar
  rw [← List.append_assoc] at hv
  rcases Nat.le_total v.length (raw ++ rest).length with hshort | hlong
  · exact h v (List.prefix_of_prefix_length_le hv (List.prefix_append _ _) hshort) hgrammar
  · obtain ⟨w, rfl⟩ := List.prefix_of_prefix_length_le (List.prefix_append _ _) hv hlong
    cases w with
    | nil =>
      rw [List.append_nil] at hgrammar ⊢
      exact h _ (List.prefix_refl _) hgrammar
    | cons c w =>
      obtain ⟨more, hmore⟩ := (List.prefix_append_right_inj _).mp hv
      subst hmore
      exact absurd (List.mem_append_right _ List.mem_cons_self) (htail c rfl _ hgrammar)

end Maximal

open Lexer

section Numbers
variable {c : Char} {cs raw rest tail : List Char}

/-- How a number is scanned: as a hexadecimal one, or else as a decimal one with or without a
point. -/
theorem scanNumber_cases (c : Char) (cs : List Char) :
    (∃ r, c :: cs = '0' :: 'x' :: r ∧
        scanNumber c cs = ('0' :: 'x' :: r.takeWhile isHexDigit, r.dropWhile isHexDigit)) ∨
      (∀ r, c :: cs ≠ '0' :: 'x' :: r) ∧
        ((∃ r, cs.dropWhile Char.isDigit = '.' :: r ∧
            scanNumber c cs = (c :: cs.takeWhile Char.isDigit ++ '.' :: r.takeWhile Char.isDigit,
              r.dropWhile Char.isDigit)) ∨
          (∀ r, cs.dropWhile Char.isDigit ≠ '.' :: r) ∧
            scanNumber c cs = (c :: cs.takeWhile Char.isDigit, cs.dropWhile Char.isDigit)) := by
  unfold scanNumber
  split
  · exact .inl ⟨_, rfl, rfl⟩
  · rename_i hhex
    refine .inr ⟨fun r hr => ?_, ?_⟩
    · cases hr
      exact hhex r rfl rfl
    · split
      · rename_i r hr
        exact .inl ⟨r, hr, rfl⟩
      · rename_i hpoint
        exact .inr ⟨hpoint, rfl⟩

theorem digits_takeWhile (hc : Digit c) (cs : List Char) :
    ∀ d ∈ c :: cs.takeWhile Char.isDigit, Digit d := by
  intro d hd
  rcases List.mem_cons.mp hd with rfl | hd
  · exact hc
  · exact isDigit_iff.mp (List.mem_takeWhile_imp hd)

theorem number_of_scanNumber (hc : Digit c) (h : scanNumber c cs = (raw, rest)) :
    c :: cs = raw ++ rest ∧ Number raw := by
  have hdigits := digits_takeWhile hc cs
  have hcut : cs.takeWhile Char.isDigit ++ cs.dropWhile Char.isDigit = cs :=
    List.takeWhile_append_dropWhile
  rcases scanNumber_cases c cs with ⟨r, hr, hscan⟩ | ⟨-, ⟨r, hr, hscan⟩ | ⟨-, hscan⟩⟩
  · rw [h] at hscan
    cases hscan
    refine ⟨by simp [hr], .hexadecimal fun d hd => isHexDigit_iff.mp (List.mem_takeWhile_imp hd)⟩
  · rw [h] at hscan
    cases hscan
    refine ⟨?_, .fraction (List.cons_ne_nil _ _) hdigits ?_⟩
    · rw [List.append_assoc, List.cons_append, List.cons_append, List.takeWhile_append_dropWhile,
        ← hr, hcut]
    · intro d hd
      exact isDigit_iff.mp (List.mem_takeWhile_imp hd)
  · rw [h] at hscan
    cases hscan
    exact ⟨by rw [List.cons_append, hcut], .whole (List.cons_ne_nil _ _) hdigits⟩

/-- Digits alone do not get beyond the first run of digits. -/
theorem length_le_of_digits (hc : Digit c) {ds : List Char} (h : ds <+: c :: cs)
    (hds : ∀ d ∈ ds, Digit d) : ds.length ≤ (cs.takeWhile Char.isDigit).length + 1 := by
  have hle := length_le_takeWhile (p := Char.isDigit) h (fun d hd => isDigit_iff.mpr (hds d hd))
  rwa [List.takeWhile_cons_of_pos (isDigit_iff.mpr hc)] at hle

/-- Digits in front of a point are all of the first run of digits. -/
theorem cut_of_fraction (hc : Digit c) {ds fs : List Char} (h : ds ++ '.' :: fs <+: c :: cs)
    (hds : ∀ d ∈ ds, Digit d) :
    ds = c :: cs.takeWhile Char.isDigit ∧ ∃ more, cs.dropWhile Char.isDigit = '.' :: (fs ++ more) := by
  obtain ⟨more, hmore⟩ := h
  have hcd : c.isDigit = true := isDigit_iff.mpr hc
  have hds : ∀ d ∈ ds, d.isDigit = true := fun d hd => isDigit_iff.mpr (hds d hd)
  have htake := congrArg (List.takeWhile Char.isDigit) hmore
  have hdrop := congrArg (List.dropWhile Char.isDigit) hmore
  rw [List.append_assoc, List.takeWhile_append_of_pos hds, List.cons_append,
    List.takeWhile_cons_of_neg (by decide), List.append_nil, List.takeWhile_cons_of_pos hcd] at htake
  rw [List.append_assoc, List.dropWhile_append_of_pos hds, List.cons_append,
    List.dropWhile_cons_of_neg (by decide), List.dropWhile_cons_of_pos hcd] at hdrop
  exact ⟨htake, more, hdrop.symm⟩

theorem maximal_of_scanNumber (hc : Digit c) (h : scanNumber c cs = (raw, rest)) :
    Maximal Number raw rest := by
  intro v hv hnumber
  rw [← (number_of_scanNumber hc h).1] at hv
  rcases scanNumber_cases c cs with ⟨r, hr, hscan⟩ | ⟨hhex, ⟨r, hr, hscan⟩ | ⟨hpoint, hscan⟩⟩
  · rw [h] at hscan
    cases hscan
    cases hr
    cases hnumber with
    | hexadecimal hds =>
      have hprefix := (List.cons_prefix_cons.mp (List.cons_prefix_cons.mp hv).2).2
      have hle := length_le_takeWhile (p := isHexDigit) hprefix
        (fun d hd => isHexDigit_iff.mpr (hds d hd))
      simp only [List.length_cons]
      omega
    | whole _ hds =>
      have hle := length_le_of_digits hc hv hds
      rw [List.takeWhile_cons_of_neg (by decide), List.length_nil] at hle
      simp only [List.length_cons]
      omega
    | fraction _ hds _ =>
      obtain ⟨-, more, hmore⟩ := cut_of_fraction hc hv hds
      cases hmore
  · rw [h] at hscan
    cases hscan
    simp only [List.length_append, List.length_cons]
    cases hnumber with
    | hexadecimal _ =>
      obtain ⟨more, hmore⟩ := hv
      exact absurd hmore.symm (hhex _)
    | whole _ hds =>
      have hle := length_le_of_digits hc hv hds
      omega
    | @fraction ds fs _ hds hfs =>
      obtain ⟨rfl, more, hmore⟩ := cut_of_fraction hc hv hds
      obtain rfl : r = fs ++ more := (List.cons.inj (hr.symm.trans hmore)).2
      have hle := length_le_takeWhile (p := Char.isDigit) (List.prefix_append fs more)
        (fun d hd => isDigit_iff.mpr (hfs d hd))
      simp only [List.length_append, List.length_cons]
      omega
  · rw [h] at hscan
    cases hscan
    cases hnumber with
    | hexadecimal _ =>
      obtain ⟨more, hmore⟩ := hv
      exact absurd hmore.symm (hhex _)
    | whole _ hds => exact length_le_of_digits hc hv hds
    | fraction _ hds _ =>
      obtain ⟨-, more, hmore⟩ := cut_of_fraction hc hv hds
      exact absurd hmore (hpoint _)

theorem Number.exists_digit (h : Number raw) : ∃ c cs, raw = c :: cs ∧ Digit c := by
  have hfirst {ds : List Char} (hne : ds ≠ []) (hds : ∀ d ∈ ds, Digit d) :
      ∃ c cs, ds = c :: cs ∧ Digit c := by
    obtain ⟨c, cs, rfl⟩ := List.exists_cons_of_ne_nil hne
    exact ⟨c, cs, rfl, hds c List.mem_cons_self⟩
  cases h with
  | hexadecimal => exact ⟨'0', _, rfl, by decide⟩
  | whole hne hds => exact hfirst hne hds
  | fraction hne hds _ =>
    obtain ⟨c, cs, rfl, hc⟩ := hfirst hne hds
    exact ⟨c, _, rfl, hc⟩

/-- Scanning finds the longest number. -/
theorem scanNumber_eq (hc : Digit c) (hsame : c :: cs = raw ++ rest) (h : Number raw)
    (hlongest : Maximal Number raw rest) : scanNumber c cs = (raw, rest) := by
  rcases hscan : scanNumber c cs with ⟨raw', rest'⟩
  obtain ⟨hcut, h'⟩ := number_of_scanNumber hc hscan
  have hlongest' := maximal_of_scanNumber hc hscan
  obtain ⟨rfl, rfl⟩ := hlongest.unique h hlongest' h' (hsame.symm.trans hcut)
  rfl

end Numbers

section Words
variable {c : Char} {cs raw rest : List Char}

theorem word_takeWhile (hc : Letter c ∨ c = '_') (cs : List Char) :
    Word (c :: cs.takeWhile isWordChar) :=
  .intro hc fun _ hd => isWordChar_iff.mp (List.mem_takeWhile_imp hd)

theorem maximal_takeWhile (c : Char) (cs : List Char) :
    Maximal Word (c :: cs.takeWhile isWordChar) (cs.dropWhile isWordChar) := by
  intro v hv hword
  rw [List.cons_append, List.takeWhile_append_dropWhile] at hv
  cases hword with
  | @intro d ds _ hds =>
    have hle := length_le_takeWhile (p := isWordChar) (List.cons_prefix_cons.mp hv).2
      (fun d hd => isWordChar_iff.mpr (hds d hd))
    simp only [List.length_cons]
    omega

/-- Scanning finds the longest word. -/
theorem takeWhile_eq (hsame : c :: cs = raw ++ rest) (h : Word raw)
    (hlongest : Maximal Word raw rest) :
    c :: cs.takeWhile isWordChar = raw ∧ cs.dropWhile isWordChar = rest := by
  cases h with
  | @intro d ds hd hds =>
    obtain ⟨rfl, -⟩ := List.cons.inj hsame
    refine (maximal_takeWhile c cs).unique (word_takeWhile hd cs) hlongest (.intro hd hds) ?_
    rw [← hsame, List.cons_append, List.takeWhile_append_dropWhile]

end Words

section Strings
variable {cs body text rest : List Char}

theorem exists_quoted_of_scanString (h : scanString cs = some (text, rest)) :
    ∃ body, cs = body ++ '"' :: rest ∧ Quoted body text := by
  induction cs using scanString.induct generalizing text with
  | case1 => cases h
  | case2 r =>
    cases h
    exact ⟨[], rfl, .nil⟩
  | case3 => cases h
  | case4 c r ih =>
    simp only [scanString, Option.map_eq_some_iff] at h
    obtain ⟨⟨text, _⟩, hscan, h⟩ := h
    cases h
    obtain ⟨body, rfl, hbody⟩ := ih hscan
    exact ⟨'\\' :: c :: body, rfl, .escaped hbody⟩
  | case5 c r hquote hlast hslash ih =>
    have hplain : c ≠ '\\' := by
      intro hc
      cases r with
      | nil => exact hlast hc rfl
      | cons d r => exact hslash d r hc rfl
    rw [scanString] at h
    · obtain ⟨⟨text, _⟩, hscan, h⟩ := Option.map_eq_some_iff.mp h
      cases h
      obtain ⟨body, rfl, hbody⟩ := ih hscan
      exact ⟨c :: body, rfl, .plain hquote hplain hbody⟩
    all_goals assumption

theorem scanString_of_quoted (h : Quoted body text) (rest : List Char) :
    scanString (body ++ '"' :: rest) = some (text, rest) := by
  induction h with
  | nil => rfl
  | @plain c body text hquote hslash h ih =>
    rw [List.cons_append, scanString]
    · rw [ih]
      rfl
    · exact hquote
    · exact fun h _ => hslash h
    · exact fun _ _ h _ => hslash h
  | @escaped c body text h ih =>
    rw [List.cons_append, List.cons_append, scanString, ih]
    rfl

theorem Quoted.count_eq (h : Quoted body text) : body.count '\n' = text.count '\n' := by
  induction h with
  | nil => rfl
  | plain _ _ _ ih => simp only [List.count_cons, ih]
  | escaped _ ih =>
    rw [List.count_cons_of_ne (by decide), List.count_cons, List.count_cons, ih]

end Strings

section Scanning
variable {kind : TokenKind} {c : Char} {cs text raw rest tail : List Char}

theorem not_mark_of_wordChar (h : WordChar c) (kind : TokenKind) : (kind, c) ∉ marks := by
  have hnone : ∀ m ∈ marks, ¬WordChar m.2 := by decide
  exact fun hmark => hnone _ hmark h

theorem scan_of_mark (h : (kind, c) ∈ marks) (cs : List Char) : scan c cs = .token kind [c] cs := by
  have hall : ∀ m ∈ marks, scan m.2 cs = .token m.1 [m.2] cs := by simp [marks, scan, isOperator]
  exact hall _ h

theorem scan_of_not_mark (h : ∀ kind, (kind, c) ∉ marks) (hquote : c ≠ '"') (cs : List Char) :
    scan c cs =
      if c.isDigit then .token .number (scanNumber c cs).1 (scanNumber c cs).2
      else if c.isAlpha || c = '_' then
        .token (wordKind (String.ofList (c :: cs.takeWhile isWordChar)))
          (c :: cs.takeWhile isWordChar) (cs.dropWhile isWordChar)
      else .stray := by
  have hne (kind : TokenKind) {d : Char} (hd : (kind, d) ∈ marks) : c ≠ d := by
    rintro rfl
    exact h kind hd
  have hop : ¬isOperator c = true := fun hop => h _ (isOperator_iff.mp hop)
  rw [scan, if_neg (hne .newline (by decide)), if_neg (hne .leftParen (by decide)),
    if_neg (hne .rightParen (by decide)), if_neg (hne .comma (by decide)),
    if_neg (hne .colon (by decide)), if_neg hop, if_neg hquote]

theorem scan_of_digit (hc : Digit c) (cs : List Char) :
    scan c cs = .token .number (scanNumber c cs).1 (scanNumber c cs).2 := by
  have hquote : c ≠ '"' := by
    rintro rfl
    exact absurd hc (by decide)
  rw [scan_of_not_mark (not_mark_of_wordChar (.inr (.inl hc))) hquote, if_pos (isDigit_iff.mpr hc)]

theorem scan_of_letter (hc : Letter c ∨ c = '_') (cs : List Char) :
    scan c cs = .token (wordKind (String.ofList (c :: cs.takeWhile isWordChar)))
      (c :: cs.takeWhile isWordChar) (cs.dropWhile isWordChar) := by
  have hword : WordChar c := hc.imp_right .inr
  have hquote : c ≠ '"' := by
    rintro rfl
    exact absurd hword (by decide)
  have hdigit : ¬c.isDigit = true := by
    rw [isDigit_iff]
    rintro ⟨hlow, hhigh⟩
    rcases hc with (⟨hc, -⟩ | ⟨hc, -⟩) | rfl
    · exact absurd (hc.trans hhigh) (by decide)
    · exact absurd (hc.trans hhigh) (by decide)
    · exact absurd hhigh (by decide)
  have hfirst : (c.isAlpha || c = '_') = true := by
    simpa [isAlpha_iff] using hc
  rw [scan_of_not_mark (not_mark_of_wordChar hword) hquote, if_neg hdigit, if_pos hfirst]

theorem scan_of_not_starts (h : ¬Starts c) (cs : List Char) : scan c cs = .stray := by
  simp only [Starts, not_or] at h
  obtain ⟨hmark, hquote, hdigit, hletter, hline⟩ := h
  have hmark : ∀ kind, (kind, c) ∉ marks := fun kind hmem =>
    hmark (List.mem_map_of_mem (f := Prod.snd) hmem)
  have hfirst : ¬(c.isAlpha || c = '_') = true := by
    simp [isAlpha_iff, hletter, hline]
  rw [scan_of_not_mark hmark hquote, if_neg (fun h => hdigit (isDigit_iff.mp h)), if_neg hfirst]

theorem scan_quote_some (h : scanString cs = some (text, rest)) :
    scan '"' cs = .token .string text rest := by
  simp [scan, isOperator, h]

theorem scan_quote_none (h : scanString cs = none) : scan '"' cs = .unclosed := by
  simp [scan, isOperator, h]

theorem wordKind_of_keyword (h : (kind, raw) ∈ keywords) : wordKind (String.ofList raw) = kind := by
  have hall : ∀ k ∈ keywords, wordKind (String.ofList k.2) = k.1 := by simp [keywords, wordKind]
  exact hall _ h

theorem wordKind_of_not_keyword (h : ∀ k ∈ keywords, raw ≠ k.2) :
    wordKind (String.ofList raw) = .ident := by
  have hne {word : String} (hmem : ∃ kind, (kind, word.toList) ∈ keywords) :
      String.ofList raw ≠ word := by
    rintro rfl
    obtain ⟨kind, hmem⟩ := hmem
    exact h _ hmem String.toList_ofList.symm
  rw [wordKind, if_neg (hne ⟨.macroStart, by decide⟩), if_neg (hne ⟨.macroEnd, by decide⟩),
    if_neg (hne ⟨.const, by decide⟩)]

theorem word_of_keyword (h : (kind, raw) ∈ keywords) : Word raw := by
  simp only [keywords, String.reduceToList, List.mem_cons, Prod.mk.injEq, List.not_mem_nil,
    or_false] at h
  rcases h with ⟨-, rfl⟩ | ⟨-, rfl⟩ | ⟨-, rfl⟩ <;>
    exact .intro (by decide) (by simp [WordChar, Letter])

theorem longest_of_keyword (h : (kind, raw) ∈ keywords) :
    Longest kind raw rest ↔ Maximal Word raw rest := by
  have hall : ∀ k ∈ keywords, Longest k.1 = Maximal Word := by simp [keywords, Longest]
  rw [hall _ h]

theorem longest_of_mark (h : (kind, c) ∈ marks) : Longest kind raw rest := by
  have hall : ∀ m ∈ marks, Longest m.1 raw rest := by simp [marks, Longest]
  exact hall _ h

/-- A word is an identifier or a keyword. -/
theorem spells_of_word (h : Word raw) (hlongest : Maximal Word raw rest) :
    Spells (wordKind (String.ofList raw)) raw raw ∧ Longest (wordKind (String.ofList raw)) raw rest := by
  by_cases hkey : ∀ k ∈ keywords, raw ≠ k.2
  · rw [wordKind_of_not_keyword hkey]
    exact ⟨.ident h hkey, hlongest⟩
  · push Not at hkey
    obtain ⟨⟨kind, _⟩, hmem, rfl⟩ := hkey
    rw [wordKind_of_keyword hmem]
    exact ⟨.keyword hmem, (longest_of_keyword hmem).mpr hlongest⟩

/-- What stands at the front of some text, for each outcome of a scan. -/
inductive Scanned (c : Char) (cs : List Char) : Lexeme → Prop
  | mark {kind : TokenKind} (h : (kind, c) ∈ marks) : Scanned c cs (.token kind [c] cs)
  | string {text rest : List Char} (hc : c = '"') (h : scanString cs = some (text, rest)) :
    Scanned c cs (.token .string text rest)
  | unclosed (hc : c = '"') (h : scanString cs = none) : Scanned c cs .unclosed
  | number {text rest : List Char} (hc : Digit c) (h : scanNumber c cs = (text, rest)) :
    Scanned c cs (.token .number text rest)
  | word (hc : Letter c ∨ c = '_') :
    Scanned c cs (.token (wordKind (String.ofList (c :: cs.takeWhile isWordChar)))
      (c :: cs.takeWhile isWordChar) (cs.dropWhile isWordChar))
  | stray (h : ¬Starts c) : Scanned c cs .stray

theorem scanned (c : Char) (cs : List Char) : Scanned c cs (scan c cs) := by
  by_cases h : Starts c
  · rcases h with hmark | rfl | hdigit | hletter
    · obtain ⟨⟨kind, d⟩, hmem, rfl⟩ := List.mem_map.mp hmark
      rw [scan_of_mark hmem]
      exact .mark hmem
    · cases hscan : scanString cs with
      | none =>
        rw [scan_quote_none hscan]
        exact .unclosed rfl hscan
      | some found =>
        rw [scan_quote_some hscan]
        exact .string rfl hscan
    · rw [scan_of_digit hdigit]
      exact .number hdigit rfl
    · rw [scan_of_letter hletter]
      exact .word hletter
  · rw [scan_of_not_starts h]
    exact .stray h

theorem exists_spells_of_scan (h : scan c cs = .token kind text rest) :
    ∃ raw, c :: cs = raw ++ rest ∧ Spells kind text raw ∧ Longest kind raw rest := by
  have hscanned := scanned c cs
  rw [h] at hscanned
  cases hscanned with
  | mark hmark => exact ⟨[c], rfl, .mark hmark, longest_of_mark hmark⟩
  | string hc hscan =>
    subst hc
    obtain ⟨body, rfl, hbody⟩ := exists_quoted_of_scanString hscan
    exact ⟨'"' :: body ++ ['"'], by simp, .string hbody, trivial⟩
  | number hc hscan =>
    obtain ⟨hcut, hnumber⟩ := number_of_scanNumber hc hscan
    exact ⟨text, hcut, .number hnumber, maximal_of_scanNumber hc hscan⟩
  | word hc =>
    obtain ⟨hspells, hlongest⟩ := spells_of_word (word_takeWhile hc cs) (maximal_takeWhile c cs)
    exact ⟨_, by rw [List.cons_append, List.takeWhile_append_dropWhile], hspells, hlongest⟩

theorem scan_of_word (hcut : c :: cs = raw ++ rest) (h : Word raw)
    (hlongest : Maximal Word raw rest) :
    scan c cs = .token (wordKind (String.ofList raw)) raw rest := by
  obtain ⟨hhead, htail⟩ := takeWhile_eq hcut h hlongest
  cases h with
  | intro hfirst _ =>
    obtain ⟨rfl, -⟩ := List.cons.inj hcut
    rw [scan_of_letter hfirst, hhead, htail]

/-- Scanning finds a token exactly where a lexeme of its kind and text is written that can not be
prolonged. -/
theorem scan_eq_token_iff : scan c cs = .token kind text rest ↔
    ∃ raw, c :: cs = raw ++ rest ∧ Spells kind text raw ∧ Longest kind raw rest := by
  refine ⟨exists_spells_of_scan, ?_⟩
  rintro ⟨raw, hcut, hspells, hlongest⟩
  cases hspells with
  | mark hmark =>
    obtain ⟨rfl, rfl⟩ := List.cons.inj hcut
    exact scan_of_mark hmark _
  | keyword hmem =>
    have hlongest := (longest_of_keyword hmem).mp hlongest
    rw [scan_of_word hcut (word_of_keyword hmem) hlongest, wordKind_of_keyword hmem]
  | ident hword hkey => rw [scan_of_word hcut hword hlongest, wordKind_of_not_keyword hkey]
  | number hnumber =>
    obtain ⟨d, ds, rfl, hd⟩ := hnumber.exists_digit
    obtain ⟨rfl, -⟩ := List.cons.inj hcut
    rw [scan_of_digit hd, scanNumber_eq hd hcut hnumber hlongest]
  | @string body _ hbody =>
    obtain ⟨rfl, hcs⟩ := List.cons.inj hcut
    have hcs : cs = body ++ '"' :: rest := by simpa using hcs
    rw [hcs]
    exact scan_quote_some (scanString_of_quoted hbody rest)

theorem longest_nil (kind : TokenKind) (raw : List Char) : Longest kind raw [] := by
  cases kind with
  | ident | macroStart | macroEnd | const | number => exact maximal_nil
  | _ => trivial

theorem Spells.exists_starts (h : Spells kind text raw) : ∃ c cs, raw = c :: cs ∧ Starts c := by
  have hword (h : Word raw) : ∃ c cs, raw = c :: cs ∧ Starts c := by
    cases h with
    | intro hfirst _ => exact ⟨_, _, rfl, .inr (.inr (.inr hfirst))⟩
  cases h with
  | mark hmark => exact ⟨_, [], rfl, .inl (List.mem_map_of_mem (f := Prod.snd) hmark)⟩
  | keyword hmem => exact hword (word_of_keyword hmem)
  | ident hraw _ => exact hword hraw
  | number hraw =>
    obtain ⟨c, cs, rfl, hc⟩ := hraw.exists_digit
    exact ⟨c, cs, rfl, .inr (.inr (.inl hc))⟩
  | string _ => exact ⟨_, _, rfl, .inr (.inl rfl)⟩

theorem Spells.ne_eof (h : Spells kind text raw) : kind ≠ .eof := by
  obtain ⟨c, cs, rfl, -⟩ := h.exists_starts
  have hscan : scan c cs = .token kind text [] :=
    scan_eq_token_iff.mpr ⟨c :: cs, (List.append_nil _).symm, h, longest_nil kind _⟩
  exact scan_ne_eof hscan

theorem Spells.count_eq (h : Spells kind text raw) : raw.count '\n' = text.count '\n' := by
  cases h with
  | @string body _ hbody =>
    rw [List.cons_append, List.count_cons_of_ne (by decide), List.count_append, hbody.count_eq]
    rfl
  | _ => rfl

end Scanning

/-- Text in front of which words and numbers end. -/
def Breaks (tail : List Char) : Prop := ∀ c ∈ tail.head?, ¬WordChar c ∧ c ≠ '.'

theorem Word.wordChar {raw : List Char} (h : Word raw) : ∀ d ∈ raw, WordChar d := by
  cases h with
  | intro hfirst hrest => exact List.forall_mem_cons.mpr ⟨hfirst.imp_right .inr, hrest⟩

theorem HexDigit.wordChar {c : Char} (h : HexDigit c) : WordChar c := by
  rcases h with hdigit | ⟨hlow, hhigh⟩ | ⟨hlow, hhigh⟩
  · exact .inr (.inl hdigit)
  · exact .inl (.inl ⟨hlow, hhigh.trans (by decide)⟩)
  · exact .inl (.inr ⟨hlow, hhigh.trans (by decide)⟩)

theorem Number.wordChar_or_point {raw : List Char} (h : Number raw) :
    ∀ d ∈ raw, WordChar d ∨ d = '.' := by
  have hdigit {d : Char} (hd : Digit d) : WordChar d ∨ d = '.' := .inl (.inr (.inl hd))
  cases h with
  | hexadecimal hds =>
    refine List.forall_mem_cons.mpr ⟨.inl (by decide), List.forall_mem_cons.mpr ⟨.inl (by decide), ?_⟩⟩
    exact fun d hd => .inl (hds d hd).wordChar
  | whole _ hds => exact fun d hd => hdigit (hds d hd)
  | fraction _ hds hfs =>
    refine List.forall_mem_append.mpr ⟨fun d hd => hdigit (hds d hd), ?_⟩
    exact List.forall_mem_cons.mpr ⟨.inr rfl, fun d hd => hdigit (hfs d hd)⟩

theorem Longest.append {kind : TokenKind} {raw rest tail : List Char} (h : Longest kind raw rest)
    (htail : Breaks tail) : Longest kind raw (rest ++ tail) := by
  have hword (h : Maximal Word raw rest) : Maximal Word raw (rest ++ tail) :=
    h.append fun c hc v hv hmem => (htail c hc).1 (hv.wordChar c hmem)
  have hnumber (h : Maximal Number raw rest) : Maximal Number raw (rest ++ tail) := by
    refine h.append fun c hc v hv hmem => ?_
    rcases hv.wordChar_or_point c hmem with hc' | hc'
    · exact (htail c hc).1 hc'
    · exact (htail c hc).2 hc'
  cases kind with
  | ident | macroStart | macroEnd | const => exact hword h
  | number => exact hnumber h
  | _ => trivial

/-- What is scanned off the front of a text is scanned off the front of a longer one, if no word or
number of the first goes on in the second. -/
theorem scan_append {kind : TokenKind} {c : Char} {cs text rest tail : List Char}
    (h : scan c cs = .token kind text rest) (htail : Breaks tail) :
    scan c (cs ++ tail) = .token kind text (rest ++ tail) := by
  obtain ⟨raw, hcut, hspells, hlongest⟩ := scan_eq_token_iff.mp h
  refine scan_eq_token_iff.mpr ⟨raw, ?_, hspells, hlongest.append htail⟩
  rw [← List.cons_append, hcut, List.append_assoc]

end Lexical

end CommandScript
