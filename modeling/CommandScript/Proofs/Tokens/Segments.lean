import CommandScript.Proofs.Streams.Requests
import CommandScript.Proofs.Tokens.Lexemes
import Mathlib
/-! # Segments of a text

However often a lexer is called, also after it has failed, the text it has consumed falls into one
segment for each call: blanks and perhaps a comment that it skipped, and the raw characters that its
answer is about. Nothing is lost and nothing is read twice. The line of an answer is found by
counting the newlines in front of its raw characters, those inside of strings included.
-/
namespace CommandScript

namespace Lexical

/-- Characters that are skipped in front of some text. A comment goes on to the end of its line, so
that nothing but a newline follows it. -/
inductive Skips : List Char → List Char → Prop
  | nothing {rest : List Char} : Skips [] rest
  | blank {c : Char} {skipped rest : List Char} (hc : c ∈ [' ', '\t', '\r'])
    (h : Skips skipped rest) : Skips (c :: skipped) rest
  | comment {body rest : List Char} (hbody : '\n' ∉ body) (hend : ∀ c ∈ rest.head?, c = '\n') :
    Skips ('#' :: body) rest

/-- What a call answers to the raw characters that it finds, given with the text behind them. -/
inductive Answers (line : Nat) : List Char → List Char → Except LexError Token → Prop
  | token {kind : TokenKind} {text raw rest : List Char} (h : Spells kind text raw)
    (hlongest : Longest kind raw rest) :
    Answers line raw rest (.ok ⟨kind, String.ofList text, line⟩)
  | finished : Answers line [] [] (.ok ⟨.eof, "", line⟩)
  | stray {c : Char} {rest : List Char} (hskip : c ∉ [' ', '\t', '\r', '#'])
    (h : ∀ kind text raw, Spells kind text raw → raw.head? ≠ some c) :
    Answers line [c] rest (.error (.unexpectedChar c line))
  | unclosed {cs : List Char}
    (h : ∀ body text rest, Quoted body text → cs ≠ body ++ '"' :: rest) :
    Answers line ('"' :: cs) [] (.error (.unterminatedString line))

/-- The part of a text that one call consumes, and what it answers. -/
structure Segment where
  skipped : List Char
  raw : List Char
  answer : Except LexError Token

def Segment.chars (s : Segment) : List Char := s.skipped ++ s.raw

end Lexical

namespace Lexer
open Lexical

theorem isBlank_iff {c : Char} : isBlank c = true ↔ c ∈ [' ', '\t', '\r'] := by
  simp [isBlank, or_assoc]

theorem not_skipped_iff {c : Char} :
    c ∉ [' ', '\t', '\r', '#'] ↔ ¬isBlank c = true ∧ c ≠ '#' := by
  rw [isBlank_iff]
  simp [and_assoc]

/-- A comment is skipped up to the end of its line. -/
theorem exists_comment (cs : List Char) :
    ∃ body, cs = body ++ skipTrivia true cs ∧ '\n' ∉ body ∧
      ∀ c ∈ (skipTrivia true cs).head?, c = '\n' := by
  induction cs with
  | nil => exact ⟨[], rfl, List.not_mem_nil, by simp [skipTrivia]⟩
  | cons c cs ih =>
    by_cases hc : c = '\n'
    · exact ⟨[], by simp [skipTrivia, hc], List.not_mem_nil, by simp [skipTrivia, hc]⟩
    · obtain ⟨body, hcut, hbody, hend⟩ := ih
      have hskip : skipTrivia true (c :: cs) = skipTrivia true cs := by simp [skipTrivia, hc]
      rw [hskip]
      refine ⟨c :: body, congrArg (c :: ·) hcut, ?_, hend⟩
      simp [hbody, Ne.symm hc]

/-- What is skipped is blanks and a comment, and all of them. -/
theorem exists_skips (cs : List Char) :
    ∃ skipped, cs = skipped ++ skipTrivia false cs ∧ Skips skipped (skipTrivia false cs) ∧
      ∀ c ∈ (skipTrivia false cs).head?, c ∉ [' ', '\t', '\r', '#'] := by
  induction cs with
  | nil => exact ⟨[], rfl, .nothing, by simp [skipTrivia]⟩
  | cons c cs ih =>
    by_cases hblank : isBlank c = true
    · obtain ⟨skipped, hcut, hskips, hend⟩ := ih
      have hskip : skipTrivia false (c :: cs) = skipTrivia false cs := by simp [skipTrivia, hblank]
      rw [hskip]
      exact ⟨c :: skipped, congrArg (c :: ·) hcut, .blank (isBlank_iff.mp hblank) hskips, hend⟩
    · by_cases hcomment : c = '#'
      · subst hcomment
        obtain ⟨body, hcut, hbody, hend⟩ := exists_comment cs
        have hskip : skipTrivia false ('#' :: cs) = skipTrivia true cs := by simp [skipTrivia, isBlank]
        rw [hskip]
        refine ⟨'#' :: body, congrArg ('#' :: ·) hcut, .comment hbody hend, fun c hc => ?_⟩
        rw [hend c hc]
        decide
      · have hskip : skipTrivia false (c :: cs) = c :: cs := by simp [skipTrivia, hblank, hcomment]
        rw [hskip]
        refine ⟨[], rfl, .nothing, fun d hd => ?_⟩
        cases hd
        exact not_skipped_iff.mpr ⟨hblank, hcomment⟩

theorem skipTrivia_comment {body rest : List Char} (hbody : '\n' ∉ body)
    (hend : ∀ c ∈ rest.head?, c = '\n') : skipTrivia true (body ++ rest) = rest := by
  induction body with
  | nil =>
    cases rest with
    | nil => rfl
    | cons c rest => simp [skipTrivia, hend c rfl]
  | cons c body ih =>
    have hc : c ≠ '\n' := Ne.symm (List.ne_of_not_mem_cons hbody)
    have hskip : skipTrivia true (c :: (body ++ rest)) = skipTrivia true (body ++ rest) := by
      simp [skipTrivia, hc]
    rw [List.cons_append, hskip, ih (List.not_mem_of_not_mem_cons hbody)]

/-- All that can be skipped is skipped. -/
theorem skipTrivia_append {skipped rest : List Char} (h : Skips skipped rest)
    (hend : ∀ c ∈ rest.head?, c ∉ [' ', '\t', '\r', '#']) :
    skipTrivia false (skipped ++ rest) = rest := by
  induction h with
  | @nothing rest =>
    cases rest with
    | nil => rfl
    | cons c rest =>
      obtain ⟨hblank, hcomment⟩ := not_skipped_iff.mp (hend c rfl)
      simp [skipTrivia, hblank, hcomment]
  | @blank c skipped rest hc h ih =>
    have hskip : skipTrivia false (c :: (skipped ++ rest)) = skipTrivia false (skipped ++ rest) := by
      simp [skipTrivia, isBlank_iff.mpr hc]
    rw [List.cons_append, hskip, ih hend]
  | @comment body rest hbody hline =>
    have hskip : skipTrivia false ('#' :: (body ++ rest)) = skipTrivia true (body ++ rest) := by
      simp [skipTrivia, isBlank]
    rw [List.cons_append, hskip, skipTrivia_comment hbody hline]

theorem count_skipped {skipped rest : List Char} (h : Skips skipped rest) :
    skipped.count '\n' = 0 := by
  induction h with
  | nothing => rfl
  | blank hc _ ih =>
    rw [List.count_cons_of_ne ?_, ih]
    rintro rfl
    exact absurd hc (by decide)
  | comment hbody _ => rw [List.count_cons_of_ne (by decide), List.count_eq_zero.mpr hbody]

/-- Reading consumes the raw characters of its answer and goes down the lines that they span. -/
theorem exists_answers (line : Nat) (cs : List Char)
    (hskip : ∀ c ∈ cs.head?, c ∉ [' ', '\t', '\r', '#']) :
    ∃ raw, cs = raw ++ (read line cs).2.rest ∧
      Answers line raw (read line cs).2.rest (read line cs).1 ∧
      (read line cs).2.line = line + raw.count '\n' := by
  cases cs with
  | nil => exact ⟨[], rfl, .finished, rfl⟩
  | cons c cs =>
    cases hscan : scan c cs with
    | token kind text rest =>
      obtain ⟨raw, hcut, hspells, hlongest⟩ := scan_eq_token_iff.mp hscan
      simp only [read, hscan]
      exact ⟨raw, hcut, .token hspells hlongest, by rw [hspells.count_eq]⟩
    | stray =>
      simp only [read, hscan]
      have hscanned := scanned c cs
      rw [hscan] at hscanned
      cases hscanned with
      | stray hnot =>
        have hline : c ≠ '\n' := by
          rintro rfl
          exact hnot (by decide)
        refine ⟨[c], rfl, .stray (hskip c rfl) ?_, ?_⟩
        · intro kind text raw hspells hhead
          obtain ⟨d, ds, rfl, hstarts⟩ := hspells.exists_starts
          cases hhead
          exact hnot hstarts
        · rw [List.count_cons_of_ne hline, List.count_nil, Nat.add_zero]
    | unclosed =>
      simp only [read, hscan]
      have hscanned := scanned c cs
      rw [hscan] at hscanned
      cases hscanned with
      | unclosed hc hnone =>
        subst hc
        refine ⟨'"' :: cs, (List.append_nil _).symm, .unclosed ?_, ?_⟩
        · rintro body text rest hbody rfl
          rw [scanString_of_quoted hbody] at hnone
          cases hnone
        · rw [List.count_cons_of_ne (by decide)]

/-- One call consumes one segment. -/
theorem exists_segment (lexer : Lexer) :
    ∃ skipped raw, lexer.rest = skipped ++ raw ++ lexer.next.2.rest ∧
      Skips skipped (raw ++ lexer.next.2.rest) ∧
      Answers lexer.line raw lexer.next.2.rest lexer.next.1 ∧
      lexer.next.2.line = lexer.line + (skipped ++ raw).count '\n' := by
  obtain ⟨skipped, hcut, hskips, hend⟩ := exists_skips lexer.rest
  obtain ⟨raw, hraw, hanswers, hline⟩ := exists_answers lexer.line _ hend
  have hrest : skipTrivia false lexer.rest = raw ++ lexer.next.2.rest := hraw
  rw [hrest] at hcut hskips
  refine ⟨skipped, raw, ?_, hskips, hanswers, ?_⟩
  · rw [List.append_assoc]
    exact hcut
  · rw [List.count_append, count_skipped hskips, Nat.zero_add]
    exact hline

theorem exists_spells_of_next {lexer : Lexer} {t : Token} (h : lexer.next.1 = .ok t)
    (hkind : t.kind ≠ .eof) : ∃ raw, Spells t.kind t.text.toList raw := by
  obtain ⟨-, raw, -, -, hanswers, -⟩ := exists_segment lexer
  rw [h] at hanswers
  generalize lexer.next.2.rest = rest at hanswers
  cases hanswers with
  | token hspells hlongest => exact ⟨raw, by rwa [String.toList_ofList]⟩
  | finished => exact absurd rfl hkind

/-- What the lexer answers to a call, the first one having the number zero. -/
def answer (lexer : Lexer) (k : Nat) : Except LexError Token :=
  (TokenSource.next (TokenSource.after lexer k)).1

/-- Each segment holds the characters that were skipped and found when its answer was given. -/
def Justified (line : Nat) (segments : List Segment) (rest : List Char) : Prop :=
  ∀ earlier s later, segments = earlier ++ s :: later →
    Skips s.skipped (s.raw ++ (later.flatMap Segment.chars ++ rest)) ∧
      Answers (line + (earlier.flatMap Segment.chars ++ s.skipped).count '\n') s.raw
        (later.flatMap Segment.chars ++ rest) s.answer

theorem Justified.concat {line : Nat} {segments : List Segment} {s : Segment} {rest : List Char}
    (h : Justified line segments (s.chars ++ rest)) (hskips : Skips s.skipped (s.raw ++ rest))
    (hanswers : Answers (line + (segments.flatMap Segment.chars ++ s.skipped).count '\n') s.raw rest
      s.answer) : Justified line (segments ++ [s]) rest := by
  intro earlier t later hsplit
  rcases List.eq_nil_or_concat' later with rfl | ⟨later, u, rfl⟩
  · obtain ⟨rfl, hlast⟩ := List.append_inj' hsplit rfl
    cases hlast
    exact ⟨hskips, hanswers⟩
  · rw [← List.cons_append, ← List.append_assoc] at hsplit
    obtain ⟨rfl, hlast⟩ := List.append_inj' hsplit rfl
    cases hlast
    have hrest : (later ++ [s]).flatMap Segment.chars ++ rest =
        later.flatMap Segment.chars ++ (s.chars ++ rest) := by
      simp
    rw [hrest]
    exact h earlier t later rfl

/-- The segments of any number of calls. -/
theorem exists_segments (lexer : Lexer) (n : Nat) :
    ∃ segments : List Segment, segments.map Segment.answer = (List.range n).map lexer.answer ∧
      lexer.rest = segments.flatMap Segment.chars ++ (TokenSource.after lexer n).rest ∧
      (TokenSource.after lexer n).line =
        lexer.line + (segments.flatMap Segment.chars).count '\n' ∧
      Justified lexer.line segments (TokenSource.after lexer n).rest := by
  induction n with
  | zero =>
    refine ⟨[], rfl, rfl, rfl, fun earlier s later hsplit => ?_⟩
    exact absurd hsplit (by simp)
  | succ n ih =>
    obtain ⟨segments, hanswers, hcut, hline, hjustified⟩ := ih
    have hafter : TokenSource.after lexer (n + 1) = (TokenSource.after lexer n).next.2 := rfl
    obtain ⟨skipped, raw, hcut', hskips, hfound, hline'⟩ :=
      exists_segment (TokenSource.after lexer n)
    rw [← hafter] at hcut' hskips hfound hline'
    let s : Segment := ⟨skipped, raw, lexer.answer n⟩
    refine ⟨segments ++ [s], ?_, ?_, ?_, ?_⟩
    · rw [List.range_succ, List.map_append, List.map_append, hanswers]
      rfl
    · rw [hcut, hcut']
      simp [s, Segment.chars]
    · rw [hline', hline]
      simp [s, Segment.chars, Nat.add_assoc]
    · rw [hcut'] at hjustified
      refine Justified.concat hjustified hskips ?_
      rw [List.count_append, count_skipped hskips, Nat.add_zero, ← hline]
      exact hfound

/-- An answer that says that the text has come to its end. -/
def IsEnd (a : Except LexError Token) : Prop := ∃ t, a = .ok t ∧ t.kind = .eof

theorem next_of_skips {lexer : Lexer} (h : Skips lexer.rest []) :
    lexer.next = (.ok ⟨.eof, "", lexer.line⟩, ⟨[], lexer.line⟩) := by
  have hnothing := skipTrivia_append h (by simp)
  rw [List.append_nil] at hnothing
  rw [next, hnothing]
  rfl

theorem isEnd_next_iff (lexer : Lexer) : IsEnd lexer.next.1 ↔ Skips lexer.rest [] := by
  constructor
  · rintro ⟨t, ht, hkind⟩
    obtain ⟨skipped, raw, hcut, hskips, hanswers, -⟩ := exists_segment lexer
    rw [ht] at hanswers
    generalize lexer.next.2.rest = rest at hcut hskips hanswers
    cases hanswers with
    | token hspells _ => exact absurd hkind hspells.ne_eof
    | finished =>
      rw [List.append_nil, List.append_nil] at hcut
      rw [hcut]
      exact hskips
  · intro h
    rw [next_of_skips h]
    exact ⟨_, rfl, rfl⟩

theorem isEnd_answer_mono {lexer : Lexer} {j k : Nat} (hle : j ≤ k) (h : IsEnd (lexer.answer j)) :
    IsEnd (lexer.answer k) := by
  induction k, hle using Nat.le_induction with
  | base => exact h
  | succ k _ ih =>
    have hskips := (isEnd_next_iff (TokenSource.after lexer k)).mp ih
    have hafter : TokenSource.after lexer (k + 1) = (TokenSource.after lexer k).next.2 := rfl
    refine (isEnd_next_iff (TokenSource.after lexer (k + 1))).mpr ?_
    rw [hafter, next_of_skips hskips]
    exact .nothing

/-- Every call that does not come to the end takes a character at least. -/
theorem length_after_le {lexer : Lexer} {k : Nat} (h : ∀ j < k, ¬IsEnd (lexer.answer j)) :
    (TokenSource.after lexer k).rest.length + k ≤ lexer.rest.length := by
  induction k with
  | zero => exact Nat.le_refl _
  | succ k ih =>
    have hk := ih fun j hj => h j (Nat.lt_succ_of_lt hj)
    have hafter : TokenSource.after lexer (k + 1) = (TokenSource.after lexer k).next.2 := rfl
    rcases next_shorter (TokenSource.after lexer k) with hend | ⟨hshorter, -⟩
    · refine absurd ⟨_, congrArg Prod.fst hend, rfl⟩ (h k (Nat.lt_succ_self k))
    · rw [hafter]
      omega

theorem exists_isEnd_answer (lexer : Lexer) : ∃ k ≤ lexer.rest.length, IsEnd (lexer.answer k) := by
  by_contra hnever
  push Not at hnever
  have hle := length_after_le (k := lexer.rest.length + 1)
    fun j hj => hnever j (Nat.le_of_lt_succ hj)
  omega

/-- The calls of a lexer on a text, any number of them and whether they fail or not, cut the text
into segments in order, and each answer is the one that its segment justifies, on the line that its
raw characters start on. The end of the text is answered when nothing is left but what is skipped,
by the call behind as many calls as there are characters at the latest, and by all calls from then
on. -/
theorem segments_of_calls (text : String) :
    (∀ n, ∃ segments : List Segment,
      segments.map Segment.answer = (List.range n).map (ofString text).answer ∧
        text.toList =
          segments.flatMap Segment.chars ++ (TokenSource.after (ofString text) n).rest ∧
        Justified 1 segments (TokenSource.after (ofString text) n).rest) ∧
      (∀ k, IsEnd ((ofString text).answer k) ↔
        Skips (TokenSource.after (ofString text) k).rest []) ∧
      ∃ k ≤ text.length, ∀ j, IsEnd ((ofString text).answer j) ↔ k ≤ j := by
  refine ⟨fun n => ?_, fun k => isEnd_next_iff _, ?_⟩
  · obtain ⟨segments, hanswers, hcut, -, hjustified⟩ := exists_segments (ofString text) n
    exact ⟨segments, hanswers, hcut, hjustified⟩
  · classical
    have hends : ∃ k, IsEnd ((ofString text).answer k) :=
      (exists_isEnd_answer (ofString text)).imp fun _ h => h.2
    refine ⟨Nat.find hends, ?_, fun j => ⟨fun h => Nat.find_min' hends h, fun hle => ?_⟩⟩
    · obtain ⟨k, hk, hend⟩ := exists_isEnd_answer (ofString text)
      rw [← String.length_toList]
      exact (Nat.find_min' hends hend).trans hk
    · exact isEnd_answer_mono hle (Nat.find_spec hends)

end Lexer

end CommandScript
