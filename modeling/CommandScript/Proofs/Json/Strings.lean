import CommandScript.Json.Quoted
import CommandScript.Json.Reader
import Mathlib
/-! # Strings as JSON writes them

Between its quotes a string is a row of plain characters, of short escapes, and of escapes with four
digits; where it stands for some text, escapes beyond the basic plane come in pairs. The rules are
stated on raw characters. The reader finds the end of every such string, and takes back every way to
write a text. The writer uses one of these ways.
-/
namespace CommandScript.Json

def lowerDigits : List Char :=
  ['0', '1', '2', '3', '4', '5', '6', '7', '8', '9', 'a', 'b', 'c', 'd', 'e', 'f']

def upperDigits : List Char :=
  ['0', '1', '2', '3', '4', '5', '6', '7', '8', '9', 'A', 'B', 'C', 'D', 'E', 'F']

/-- A digit of base sixteen, in either case, and its value. -/
def HexDigit (c : Char) (n : Nat) : Prop := lowerDigits[n]? = some c ∨ upperDigits[n]? = some c

instance (c : Char) (n : Nat) : Decidable (HexDigit c n) := inferInstanceAs (Decidable (_ ∨ _))

/-- Four digits and the code unit that they spell. -/
inductive CodeUnit : Char → Char → Char → Char → Nat → Prop
  | intro {a b c d : Char} {i j k l : Nat} (ha : HexDigit a i) (hb : HexDigit b j)
    (hc : HexDigit c k) (hd : HexDigit d l) : CodeUnit a b c d (((i * 16 + j) * 16 + k) * 16 + l)

/-- The letters behind a backslash, and the characters that they stand for. -/
def shortEscapes : List (Char × Char) :=
  [('"', '"'), ('\\', '\\'), ('/', '/'), ('b', '\x08'), ('f', '\x0c'), ('n', '\n'), ('r', '\r'),
    ('t', '\t')]

/-- What may stand between quotes. -/
inductive RawString : List Char → Prop
  | nil : RawString []
  | plain {c : Char} {raw : List Char} (hquote : c ≠ '"') (hslash : c ≠ '\\')
    (hcontrol : 0x20 ≤ c.toNat) (h : RawString raw) : RawString (c :: raw)
  | short {c e : Char} {raw : List Char} (hletter : (c, e) ∈ shortEscapes) (h : RawString raw) :
    RawString ('\\' :: c :: raw)
  | unit {a b c d : Char} {n : Nat} {raw : List Char} (hunit : CodeUnit a b c d n)
    (h : RawString raw) : RawString ('\\' :: 'u' :: a :: b :: c :: d :: raw)

/-- What stands between quotes, given first, and the text that it denotes. A code unit denotes a
character by itself, or as the second of a pair of surrogates. -/
inductive Denotes : List Char → List Char → Prop
  | nil : Denotes [] []
  | plain {c : Char} {raw text : List Char} (hquote : c ≠ '"') (hslash : c ≠ '\\')
    (hcontrol : 0x20 ≤ c.toNat) (h : Denotes raw text) : Denotes (c :: raw) (c :: text)
  | short {c e : Char} {raw text : List Char} (hletter : (c, e) ∈ shortEscapes)
    (h : Denotes raw text) : Denotes ('\\' :: c :: raw) (e :: text)
  | unit {a b c d : Char} {n : Nat} {raw text : List Char} (hunit : CodeUnit a b c d n)
    (hscalar : n < 0xD800 ∨ 0xE000 ≤ n) (h : Denotes raw text) :
    Denotes ('\\' :: 'u' :: a :: b :: c :: d :: raw) (Char.ofNat n :: text)
  | pair {a b c d a' b' c' d' : Char} {high low : Nat} {raw text : List Char}
    (hhigh : CodeUnit a b c d (0xD800 + high)) (hlow : CodeUnit a' b' c' d' (0xDC00 + low))
    (hhigh_lt : high < 0x400) (hlow_lt : low < 0x400) (h : Denotes raw text) :
    Denotes ('\\' :: 'u' :: a :: b :: c :: d :: '\\' :: 'u' :: a' :: b' :: c' :: d' :: raw)
      (Char.ofNat (0x10000 + high * 0x400 + low) :: text)

section Digits
variable {a b c d : Char} {n : Nat}

theorem hexValue?_of_hexDigit (h : HexDigit c n) : hexValue? c = some n := by
  have hlower : ∀ i : Fin 16, hexValue? (lowerDigits.get i) = some i.1 := by decide
  have hupper : ∀ i : Fin 16, hexValue? (upperDigits.get i) = some i.1 := by decide
  rcases h with h | h
  · obtain ⟨hlt, rfl⟩ := List.getElem?_eq_some_iff.mp h
    exact hlower ⟨n, hlt⟩
  · obtain ⟨hlt, rfl⟩ := List.getElem?_eq_some_iff.mp h
    exact hupper ⟨n, hlt⟩

theorem isHex_of_hexDigit (h : HexDigit c n) : isHex c = true := by
  have hvalue := hexValue?_of_hexDigit h
  unfold hexValue? at hvalue
  unfold isHex
  split_ifs at hvalue <;> simp_all

theorem unit?_of_codeUnit (h : CodeUnit a b c d n) : unit? a b c d = some n := by
  cases h with
  | intro ha hb hc hd =>
    simp only [unit?, hexValue?_of_hexDigit ha, hexValue?_of_hexDigit hb, hexValue?_of_hexDigit hc,
      hexValue?_of_hexDigit hd]

theorem isHex_of_codeUnit (h : CodeUnit a b c d n) :
    (isHex a && isHex b && isHex c && isHex d) = true := by
  cases h with
  | intro ha hb hc hd =>
    simp only [isHex_of_hexDigit ha, isHex_of_hexDigit hb, isHex_of_hexDigit hc,
      isHex_of_hexDigit hd, Bool.and_self]

end Digits

theorem Denotes.rawString {raw text : List Char} (h : Denotes raw text) : RawString raw := by
  induction h with
  | nil => exact .nil
  | plain hquote hslash hcontrol _ ih => exact .plain hquote hslash hcontrol ih
  | short hletter _ ih => exact .short hletter ih
  | unit hunit _ _ ih => exact .unit hunit ih
  | pair hhigh hlow _ _ _ ih => exact .unit hhigh (.unit hlow ih)

theorem scanString_short {c e : Char} (h : (c, e) ∈ shortEscapes) (cs : List Char) :
    scanString ('\\' :: c :: cs) = (scanString cs).map (fun p => ('\\' :: c :: p.1, p.2)) := by
  simp only [shortEscapes, List.mem_cons, Prod.mk.injEq, List.not_mem_nil, or_false] at h
  rcases h with ⟨rfl, -⟩ | ⟨rfl, -⟩ | ⟨rfl, -⟩ | ⟨rfl, -⟩ | ⟨rfl, -⟩ | ⟨rfl, -⟩ | ⟨rfl, -⟩ |
    ⟨rfl, -⟩
  all_goals simp [scanString, isShortEscape]

/-- The reader finds the closing quote. -/
theorem scanString_of_rawString {raw : List Char} (h : RawString raw) (rest : List Char) :
    scanString (raw ++ '"' :: rest) = some (raw, rest) := by
  induction h with
  | nil => rfl
  | @plain c raw hquote hslash hcontrol _ ih =>
    have hplain : ¬(c = '\\' ∨ c.toNat < 0x20) := by
      rintro (h | h)
      · exact hslash h
      · omega
    rw [List.cons_append, scanString]
    · rw [if_neg hplain, ih]
      rfl
    · exact hquote
    · exact fun _ _ _ _ _ h _ => hslash h
    · exact fun _ _ h _ => hslash h
  | short hletter _ ih =>
    rw [List.cons_append, List.cons_append, scanString_short hletter, ih]
    rfl
  | unit hunit _ ih =>
    simp only [List.cons_append, scanString, isHex_of_codeUnit hunit, ↓reduceIte, ih]
    rfl

theorem unescapeChars?_short {c e : Char} (h : (c, e) ∈ shortEscapes) (cs : List Char) :
    unescapeChars? ('\\' :: c :: cs) = (unescapeChars? cs).map (e :: ·) := by
  simp only [shortEscapes, List.mem_cons, Prod.mk.injEq, List.not_mem_nil, or_false] at h
  rcases h with ⟨rfl, rfl⟩ | ⟨rfl, rfl⟩ | ⟨rfl, rfl⟩ | ⟨rfl, rfl⟩ | ⟨rfl, rfl⟩ | ⟨rfl, rfl⟩ |
    ⟨rfl, rfl⟩ | ⟨rfl, rfl⟩
  all_goals simp [unescapeChars?, shortEscape?]

theorem unescapeChars?_unit {a b c d : Char} {n : Nat} (hunit : CodeUnit a b c d n)
    (hscalar : n < 0xD800 ∨ 0xE000 ≤ n) (cs : List Char) :
    unescapeChars? ('\\' :: 'u' :: a :: b :: c :: d :: cs) =
      (unescapeChars? cs).map (Char.ofNat n :: ·) := by
  have hhigh : isHighSurrogate n = false := by
    simp only [isHighSurrogate, Bool.and_eq_false_iff, decide_eq_false_iff_not]
    omega
  have hlow : isLowSurrogate n = false := by
    simp only [isLowSurrogate, Bool.and_eq_false_iff, decide_eq_false_iff_not]
    omega
  rw [unescapeChars?, unit?_of_codeUnit hunit]
  simp only [hhigh, hlow, Bool.false_eq_true, ↓reduceIte]

theorem unescapeChars?_pair {a b c d a' b' c' d' : Char} {high low : Nat}
    (hhigh : CodeUnit a b c d (0xD800 + high)) (hlow : CodeUnit a' b' c' d' (0xDC00 + low))
    (hhigh_lt : high < 0x400) (hlow_lt : low < 0x400) (cs : List Char) :
    unescapeChars?
        ('\\' :: 'u' :: a :: b :: c :: d :: '\\' :: 'u' :: a' :: b' :: c' :: d' :: cs) =
      (unescapeChars? cs).map (Char.ofNat (0x10000 + high * 0x400 + low) :: ·) := by
  have hfirst : isHighSurrogate (0xD800 + high) = true := by
    simp only [isHighSurrogate, Bool.and_eq_true, decide_eq_true_eq]
    omega
  have hsecond : isLowSurrogate (0xDC00 + low) = true := by
    simp only [isLowSurrogate, Bool.and_eq_true, decide_eq_true_eq]
    omega
  rw [unescapeChars?, unit?_of_codeUnit hhigh]
  simp only [hfirst, ↓reduceIte, unit?_of_codeUnit hlow, hsecond, joinSurrogates,
    Nat.add_sub_cancel_left]

/-- Every way to write a text is taken back. -/
theorem unescapeChars?_of_denotes {raw text : List Char} (h : Denotes raw text) :
    unescapeChars? raw = some text := by
  induction h with
  | nil => rfl
  | @plain c raw text hquote hslash hcontrol _ ih =>
    rw [unescapeChars?]
    · rw [if_neg hslash, ih]
      rfl
    · exact fun _ _ _ _ _ h _ => hslash h
    · exact fun _ _ h _ => hslash h
  | short hletter _ ih =>
    rw [unescapeChars?_short hletter, ih]
    rfl
  | unit hunit hscalar _ ih =>
    rw [unescapeChars?_unit hunit hscalar, ih]
    rfl
  | pair hhigh hlow hhigh_lt hlow_lt _ ih =>
    rw [unescapeChars?_pair hhigh hlow hhigh_lt hlow_lt, ih]
    rfl

theorem unescape?_of_denotes {raw text : String} (h : Denotes raw.toList text.toList) :
    unescape? raw = some text := by
  rw [unescape?, unescapeChars?_of_denotes h, Option.map_some, String.ofList_toList]

/-- The writer's escape of one character denotes it. -/
theorem denotes_escapeChar (c : Char) {raw text : List Char} (h : Denotes raw text) :
    Denotes (escapeChar c ++ raw) (c :: text) := by
  have hdigit : ∀ n < 16, HexDigit (hexDigit n) n := by decide
  have hzero : HexDigit '0' 0 := by decide
  unfold escapeChar
  -- Seven characters have a short escape.
  iterate 7
    split
    · rename_i hc
      subst hc
      exact .short (by decide) h
  split
  · rename_i hcontrol
    have hunit := CodeUnit.intro hzero hzero (hdigit (c.toNat / 16) (by omega))
      (hdigit (c.toNat % 16) (by omega))
    have hvalue : ((0 * 16 + 0) * 16 + c.toNat / 16) * 16 + c.toNat % 16 = c.toNat := by omega
    rw [hvalue] at hunit
    have hdenotes := Denotes.unit hunit (by omega) h
    rwa [Char.ofNat_toNat] at hdenotes
  · rename_i hquote hslash _ _ _ _ _ hcontrol
    exact .plain hquote hslash (Nat.le_of_not_lt hcontrol) h

theorem denotes_escape (s : String) : Denotes (escape s).toList s.toList := by
  rw [escape, String.toList_ofList]
  induction s.toList with
  | nil => exact .nil
  | cons c cs ih =>
    rw [List.flatMap_cons]
    exact denotes_escapeChar c ih

theorem unescape?_escape (s : String) : unescape? (escape s) = some s :=
  unescape?_of_denotes (denotes_escape s)

end CommandScript.Json
