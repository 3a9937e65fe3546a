import CommandScript.Proofs.Tokens.Segments
import Mathlib
/-! # Rendered tokens

Tokens that are written out with blanks between them are read back as they were. A string may be
written with a backslash in front of any of its characters, and must be in front of quotes and
backslashes; what it holds besides, newlines and comment signs included, does not matter. A blank
ends every word and number, so that no two tokens run together.
-/
namespace CommandScript

namespace Lexical

/-- Tokens, by kind and text, written out in order. Some blanks stand between any two of them. -/
inductive Rendered : List (TokenKind × String) → List Char → Prop
  | nil : Rendered [] []
  | last {kind : TokenKind} {text : String} {raw : List Char} (h : Spells kind text.toList raw) :
    Rendered [(kind, text)] raw
  | cons {kind : TokenKind} {text : String} {raw gap rest : List Char}
    {tokens : List (TokenKind × String)} (h : Spells kind text.toList raw) (hgap : gap ≠ [])
    (hblank : ∀ c ∈ gap, c ∈ [' ', '\t', '\r']) (hmore : Rendered tokens rest) :
    Rendered ((kind, text) :: tokens) (raw ++ gap ++ rest)

theorem breaks_of_blank {gap rest : List Char} (hgap : gap ≠ [])
    (hblank : ∀ c ∈ gap, c ∈ [' ', '\t', '\r']) : Breaks (gap ++ rest) := by
  obtain ⟨c, gap, rfl⟩ := List.exists_cons_of_ne_nil hgap
  have hc := hblank c List.mem_cons_self
  intro d hd
  cases hd
  fin_cases hc <;> decide

theorem Starts.not_skipped {c : Char} (h : Starts c) : c ∉ [' ', '\t', '\r', '#'] := by
  intro hc
  fin_cases hc <;> exact absurd h (by decide)

end Lexical

namespace Lexer
open Lexical

/-- What is written out is read back, if nothing longer starts at the same place. -/
theorem next_of_longest {kind : TokenKind} {text raw tail : List Char} (h : Spells kind text raw)
    (hlongest : Longest kind raw tail) (line : Nat) :
    next ⟨raw ++ tail, line⟩ =
      (.ok ⟨kind, String.ofList text, line⟩, ⟨tail, line + text.count '\n'⟩) := by
  obtain ⟨c, cs, rfl, hstarts⟩ := h.exists_starts
  have hscan : scan c (cs ++ tail) = .token kind text tail :=
    scan_eq_token_iff.mpr ⟨c :: cs, rfl, h, hlongest⟩
  have hskip : skipTrivia false (c :: cs ++ tail) = c :: (cs ++ tail) := by
    refine skipTrivia_append .nothing fun d hd => ?_
    cases hd
    exact hstarts.not_skipped
  simp only [next, hskip, read, hscan]

theorem next_of_spells {kind : TokenKind} {text raw tail : List Char} (h : Spells kind text raw)
    (htail : Breaks tail) (line : Nat) :
    next ⟨raw ++ tail, line⟩ =
      (.ok ⟨kind, String.ofList text, line⟩, ⟨tail, line + text.count '\n'⟩) :=
  next_of_longest h ((longest_nil kind raw).append htail) line

/-- Blanks in front of a text do not matter. -/
theorem next_blank_append {gap : List Char} (hblank : ∀ c ∈ gap, c ∈ [' ', '\t', '\r'])
    (cs : List Char) (line : Nat) : next ⟨gap ++ cs, line⟩ = next ⟨cs, line⟩ := by
  have hskip : skipTrivia false (gap ++ cs) = skipTrivia false cs := by
    induction gap with
    | nil => rfl
    | cons c gap ih =>
      obtain ⟨hc, hgap⟩ := List.forall_mem_cons.mp hblank
      rw [← ih hgap]
      simp [skipTrivia, isBlank_iff.mpr hc]
  rw [next, next, hskip]

theorem tokenize_congr {a b : Lexer} (h : a.next = b.next) : a.tokenize = b.tokenize := by
  rcases hnext : b.next with ⟨e | t, rest⟩
  · rw [tokenize_of_error hnext, tokenize_of_error (h.trans hnext)]
  · rw [tokenize_of_ok hnext, tokenize_of_ok (h.trans hnext)]

/-- Reading takes the first of some rendered tokens off and goes on behind it. -/
theorem tokenize_of_spells {kind : TokenKind} {text : String} {raw tail : List Char} {line : Nat}
    {ts : List Token} (h : Spells kind text.toList raw) (htail : Breaks tail)
    (hmore : tokenize ⟨tail, line + text.toList.count '\n'⟩ = .ok ts) :
    tokenize ⟨raw ++ tail, line⟩ = .ok (⟨kind, text, line⟩ :: ts) := by
  have hnext := next_of_spells h htail line
  rw [String.ofList_toList] at hnext
  rw [tokenize_of_ok hnext, if_neg h.ne_eof, hmore]
  rfl

theorem tokenize_nil (line : Nat) : tokenize ⟨[], line⟩ = .ok [⟨.eof, "", line⟩] := by
  have hnext : next ⟨[], line⟩ = (.ok ⟨.eof, "", line⟩, ⟨[], line⟩) := rfl
  rw [tokenize_of_ok hnext, if_pos rfl]

theorem exists_tokenize {tokens : List (TokenKind × String)} {cs : List Char}
    (h : Rendered tokens cs) (line : Nat) :
    ∃ ts last, tokenize ⟨cs, line⟩ = .ok (ts ++ [⟨.eof, "", last⟩]) ∧
      ts.map (fun t => (t.kind, t.text)) = tokens := by
  induction h generalizing line with
  | nil => exact ⟨[], line, tokenize_nil line, rfl⟩
  | @last kind text raw h =>
    have hnone : Breaks [] := by simp [Breaks]
    have hread := tokenize_of_spells h hnone (tokenize_nil (line + text.toList.count '\n'))
    rw [List.append_nil] at hread
    exact ⟨[⟨kind, text, line⟩], _, hread, rfl⟩
  | @cons kind text raw gap rest tokens h hgap hblank _ ih =>
    obtain ⟨ts, last, hts, hmap⟩ := ih (line + text.toList.count '\n')
    rw [← tokenize_congr (next_blank_append hblank rest _)] at hts
    have hread := tokenize_of_spells h (breaks_of_blank hgap hblank) hts
    rw [← List.append_assoc] at hread
    exact ⟨⟨kind, text, line⟩ :: ts, last, hread, by rw [List.map_cons, hmap]⟩

/-- Cutting up the text of rendered tokens succeeds and gives back their kinds and texts in order,
with an end marker behind them. -/
theorem tokenize_of_rendered {tokens : List (TokenKind × String)} {cs : List Char}
    (h : Rendered tokens cs) :
    ∃ ts last, (ofString (String.ofList cs)).tokenize = .ok (ts ++ [⟨.eof, "", last⟩]) ∧
      ts.map (fun t => (t.kind, t.text)) = tokens := by
  rw [ofString, String.toList_ofList]
  exact exists_tokenize h 1

/-- A keyword, a name that only begins with one, two numbers, a string with a quote, a newline and a
comment sign in it, and the end of the line. -/
theorem tokenize_of_rendered_mixed :
    let tokens : List (TokenKind × String) :=
      [(.macroStart, "macro"), (.ident, "macros"), (.number, "0x1F"), (.number, "2."),
        (.string, "a\"\n#"), (.newline, "\n")]
    let cs : List Char := "macro macros\t0x1F 2. \"\\a\\\"\n#\"\r \n".toList
    Rendered tokens cs ∧
      ∃ ts last, (ofString (String.ofList cs)).tokenize = .ok (ts ++ [⟨.eof, "", last⟩]) ∧
        ts.map (fun t => (t.kind, t.text)) = tokens := by
  intro tokens cs
  have hname : Spells .ident "macros".toList "macros".toList := by
    refine .ident ?_ (by simp [keywords])
    simp only [String.reduceToList]
    exact .intro (by decide) (by simp [WordChar, Letter])
  have hhex : Spells .number "0x1F".toList "0x1F".toList := by
    simp only [String.reduceToList]
    exact .number (.hexadecimal (by simp [HexDigit, Digit]))
  have hpoint : Spells .number "2.".toList "2.".toList :=
    .number (@Number.fraction ['2'] [] (by simp) (by simp [Digit]) (by simp))
  have hstring : Spells .string "a\"\n#".toList "\"\\a\\\"\n#\"".toList :=
    .string (.escaped (.escaped (.plain (by decide) (by decide) (.plain (by decide) (by decide) .nil))))
  have hblank : ∀ c ∈ [' '], c ∈ [' ', '\t', '\r'] := by simp
  have hrendered : Rendered tokens cs :=
    .cons (.keyword (by decide)) (List.cons_ne_nil ' ' []) hblank <|
      .cons hname (List.cons_ne_nil '\t' []) (by simp) <|
        .cons hhex (List.cons_ne_nil ' ' []) hblank <|
          .cons hpoint (List.cons_ne_nil ' ' []) hblank <|
            .cons hstring (List.cons_ne_nil '\r' [' ']) (by simp) (.last (.mark (by decide)))
  exact ⟨hrendered, tokenize_of_rendered hrendered⟩

end Lexer

end CommandScript
