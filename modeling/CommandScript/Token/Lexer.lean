import CommandScript.Token
/-! # Lexing

Text is cut into tokens one at a time. Blanks and comments between tokens are skipped; a token is
always the longest one that starts at its place. A failed call consumes the text it complains
about, so lexing can go on after it, and every call that does not reach the end of the text leaves
less text than it found.
-/
namespace CommandScript

structure Lexer where
  rest : List Char
  line : Nat
deriving DecidableEq, Repr

/-- What stands at the start of some text that begins with neither a blank nor a comment. -/
inductive Lexeme where
  | token (kind : TokenKind) (text : List Char) (rest : List Char)
  | stray
  | unclosed

namespace Lexer

def ofString (text : String) : Lexer := ⟨text.toList, 1⟩

def isBlank (c : Char) : Bool := c == ' ' || c == '\t' || c == '\r'

def isWordChar (c : Char) : Bool := c.isAlphanum || c == '_'

def isHexDigit (c : Char) : Bool :=
  c.isDigit || ('a' ≤ c && c ≤ 'f') || ('A' ≤ c && c ≤ 'F')

/-- Drops blanks and comments; a comment runs up to, not over, the end of its line. -/
def skipTrivia (inComment : Bool) : List Char → List Char
  | [] => []
  | c :: cs =>
    if inComment then if c = '\n' then c :: cs else skipTrivia true cs
    else if isBlank c then skipTrivia false cs
    else if c = '#' then skipTrivia true cs
    else c :: cs

def wordKind (text : String) : TokenKind :=
  if text = "macro" then .macroStart
  else if text = "endmacro" then .macroEnd
  else if text = "const" then .const
  else .ident

def scanNumber (first : Char) (cs : List Char) : List Char × List Char :=
  match first, cs with
  | '0', 'x' :: r => ('0' :: 'x' :: r.takeWhile isHexDigit, r.dropWhile isHexDigit)
  | _, _ =>
    match cs.dropWhile Char.isDigit with
    | '.' :: r =>
      (first :: cs.takeWhile Char.isDigit ++ '.' :: r.takeWhile Char.isDigit,
        r.dropWhile Char.isDigit)
    | r => (first :: cs.takeWhile Char.isDigit, r)

/-- Reads up to the closing quote; a backslash takes the next character literally. -/
def scanString : List Char → Option (List Char × List Char)
  | [] => none
  | '"' :: r => some ([], r)
  | ['\\'] => none
  | '\\' :: c :: r => (scanString r).map (fun p => (c :: p.1, p.2))
  | c :: r => (scanString r).map (fun p => (c :: p.1, p.2))

def isOperator (c : Char) : Bool := c == '+' || c == '-' || c == '*' || c == '/' || c == '%'

def scan (c : Char) (cs : List Char) : Lexeme :=
  if c = '\n' then .token .newline [c] cs
  else if c = '(' then .token .leftParen [c] cs
  else if c = ')' then .token .rightParen [c] cs
  else if c = ',' then .token .comma [c] cs
  else if c = ':' then .token .colon [c] cs
  else if isOperator c then .token .operator [c] cs
  else if c = '"' then
    match scanString cs with
    | some (text, rest) => .token .string text rest
    | none => .unclosed
  else if c.isDigit then
    let (text, rest) := scanNumber c cs
    .token .number text rest
  else if c.isAlpha || c = '_' then
    let text := c :: cs.takeWhile isWordChar
    .token (wordKind (String.ofList text)) text (cs.dropWhile isWordChar)
  else .stray

/-- The token at the start of text that begins with no blank or comment. Only line ends and
strings hold newlines, and a string's text holds each newline that it spans, so the newlines of the
text are the lines that the token goes down. -/
def read (line : Nat) : List Char → Except LexError Token × Lexer
  | [] => (.ok ⟨.eof, "", line⟩, ⟨[], line⟩)
  | c :: cs =>
    match scan c cs with
    | .token kind text rest =>
      (.ok ⟨kind, String.ofList text, line⟩, ⟨rest, line + text.count '\n'⟩)
    | .stray => (.error (.unexpectedChar c line), ⟨cs, line⟩)
    | .unclosed => (.error (.unterminatedString line), ⟨[], line + cs.count '\n'⟩)

def next (lexer : Lexer) : Except LexError Token × Lexer :=
  read lexer.line (skipTrivia false lexer.rest)

theorem length_dropWhile_le {α : Type} (p : α → Bool) (cs : List α) :
    (cs.dropWhile p).length ≤ cs.length :=
  (List.dropWhile_suffix p).length_le

theorem length_skipTrivia_le (b : Bool) (cs : List Char) :
    (skipTrivia b cs).length ≤ cs.length := by
  induction cs generalizing b with
  | nil => simp [skipTrivia]
  | cons c cs ih =>
    have ht := ih true
    have hf := ih false
    unfold skipTrivia
    split <;> (try split) <;> (try split) <;> simp only [List.length_cons] <;> omega

theorem length_scanNumber_le (c : Char) (cs : List Char) :
    (scanNumber c cs).2.length ≤ cs.length := by
  unfold scanNumber
  split
  · exact Nat.le_trans (length_dropWhile_le isHexDigit _) (Nat.le_succ _)
  · have hd := length_dropWhile_le Char.isDigit cs
    split
    · rename_i r hr
      have h' := length_dropWhile_le Char.isDigit r
      rw [hr, List.length_cons] at hd
      exact Nat.le_trans h' (Nat.le_of_succ_le hd)
    · exact hd

theorem length_scanString_lt {cs text rest : List Char} (h : scanString cs = some (text, rest)) :
    rest.length < cs.length := by
  induction cs using scanString.induct generalizing text with
  | case1 => simp [scanString] at h
  | case2 r =>
    simp only [scanString, Option.some.injEq, Prod.mk.injEq] at h
    obtain ⟨-, rfl⟩ := h
    simp
  | case3 => simp [scanString] at h
  | case4 c r ih =>
    simp only [scanString, Option.map_eq_some_iff] at h
    obtain ⟨⟨t, r'⟩, hp, he⟩ := h
    obtain ⟨-, rfl⟩ := Prod.mk.injEq .. ▸ he
    have : r'.length < r.length := ih hp
    simp only [List.length_cons]
    omega
  | case5 c r h₁ h₂ h₃ ih =>
    rw [scanString] at h
    · simp only [Option.map_eq_some_iff] at h
      obtain ⟨⟨t, r'⟩, hp, he⟩ := h
      obtain ⟨-, rfl⟩ := Prod.mk.injEq .. ▸ he
      have : r'.length < r.length := ih hp
      simp only [List.length_cons]
      omega
    all_goals assumption

theorem length_scan_le {c : Char} {cs text rest : List Char} {kind : TokenKind}
    (h : scan c cs = .token kind text rest) : rest.length ≤ cs.length := by
  unfold scan at h
  have hn := length_scanNumber_le c cs
  have hw := length_dropWhile_le isWordChar cs
  repeat' split at h
  all_goals cases h
  all_goals try exact Nat.le_refl _
  · rename_i hs
    exact Nat.le_of_lt (length_scanString_lt hs)
  · rename_i hs
    rw [hs] at hn
    exact hn
  · exact hw

theorem scan_ne_eof {c : Char} {cs text rest : List Char} {kind : TokenKind}
    (h : scan c cs = .token kind text rest) : kind ≠ .eof := by
  unfold scan at h
  repeat' split at h
  all_goals try (cases h; decide)
  all_goals cases h
  unfold wordKind
  repeat' split
  all_goals decide

theorem length_read_lt (line : Nat) (c : Char) (cs : List Char) :
    (read line (c :: cs)).2.rest.length < (c :: cs).length := by
  cases ht : scan c cs with
  | token kind text rest => simpa [read, ht] using Nat.lt_succ_of_le (length_scan_le ht)
  | stray => simp [read, ht]
  | unclosed => simp [read, ht]

theorem read_ne_eof {line : Nat} {c : Char} {cs : List Char} {t : Token}
    (h : (read line (c :: cs)).1 = .ok t) : t.kind ≠ .eof := by
  cases ht : scan c cs with
  | token kind text rest =>
    simp only [read, ht, Except.ok.injEq] at h
    subst h
    exact scan_ne_eof ht
  | stray => simp [read, ht] at h
  | unclosed => simp [read, ht] at h

/-- A call either reaches the end of the text or leaves less of it. -/
theorem next_shorter (lexer : Lexer) :
    lexer.next = (.ok ⟨.eof, "", lexer.line⟩, ⟨[], lexer.line⟩) ∨
      lexer.next.2.rest.length < lexer.rest.length ∧
        ∀ t, lexer.next.1 = .ok t → t.kind ≠ .eof := by
  have hs := length_skipTrivia_le false lexer.rest
  unfold next
  cases hc : skipTrivia false lexer.rest with
  | nil => exact .inl rfl
  | cons c cs =>
    rw [hc] at hs
    exact .inr ⟨Nat.lt_of_lt_of_le (length_read_lt _ c cs) hs, fun _ => read_ne_eof⟩

theorem length_next_le (lexer : Lexer) : lexer.next.2.rest.length ≤ lexer.rest.length := by
  rcases next_shorter lexer with h | h
  · simp [h]
  · exact Nat.le_of_lt h.1

/-- Every token up to the first end marker, or the first error. -/
def tokenize (lexer : Lexer) : Except LexError (List Token) :=
  match _h : lexer.next with
  | (.error e, _) => .error e
  | (.ok t, after) =>
    if _hk : t.kind = .eof then .ok [t] else (after.tokenize).map (t :: ·)
termination_by lexer.rest.length
decreasing_by
  rcases next_shorter lexer with he | hlt
  · rw [_h] at he
    cases he
    exact absurd rfl _hk
  · rw [_h] at hlt
    exact hlt.1

theorem tokenize_of_error {lexer rest : Lexer} {e : LexError} (h : lexer.next = (.error e, rest)) :
    lexer.tokenize = .error e := by
  unfold tokenize
  split
  · rename_i e' rest' h'
    rw [h] at h'
    cases h'
    rfl
  · rename_i t rest' h'
    rw [h] at h'
    cases h'

theorem tokenize_of_ok {lexer rest : Lexer} {t : Token} (h : lexer.next = (.ok t, rest)) :
    lexer.tokenize = if t.kind = .eof then .ok [t] else rest.tokenize.map (t :: ·) := by
  rw [tokenize]
  split
  · rename_i e rest' h'
    rw [h] at h'
    cases h'
  · rename_i t' rest' h'
    rw [h] at h'
    cases h'
    split <;> rfl

end Lexer

end CommandScript
