import CommandScript.Json
/-! # Reading JSON

The strict format: no comments, no spare commas, no spare zeros, no raw control characters in
strings, and nothing but blanks around the value.
-/
namespace CommandScript.Json

/-- Something read off the front of a text, and the text behind it. -/
structure Taken (α : Type) (cs : List Char) where
  value : α
  rest : List Char
  lt : rest.length < cs.length

def isBlank (c : Char) : Bool := c == ' ' || c == '\n' || c == '\r' || c == '\t'

def blanks (cs : List Char) : List Char := cs.dropWhile isBlank

theorem length_blanks_le (cs : List Char) : (blanks cs).length ≤ cs.length :=
  (List.dropWhile_suffix isBlank).length_le

def isHex (c : Char) : Bool := c.isDigit || ('a' ≤ c && c ≤ 'f') || ('A' ≤ c && c ≤ 'F')

def isShortEscape (c : Char) : Bool := c ∈ ['"', '\\', '/', 'b', 'f', 'n', 'r', 't']

/-- The rest of a string behind its opening quote: what is written up to the closing quote, and
what follows that. -/
def scanString : List Char → Option (List Char × List Char)
  | [] => none
  | '"' :: rest => some ([], rest)
  | '\\' :: 'u' :: a :: b :: c :: d :: rest =>
    if isHex a && isHex b && isHex c && isHex d then
      (scanString rest).map (fun p => ('\\' :: 'u' :: a :: b :: c :: d :: p.1, p.2))
    else none
  | '\\' :: c :: rest =>
    if isShortEscape c then (scanString rest).map (fun p => ('\\' :: c :: p.1, p.2)) else none
  | c :: rest =>
    if c = '\\' ∨ c.toNat < 0x20 then none
    else (scanString rest).map (fun p => (c :: p.1, p.2))

theorem length_scanString_lt {cs : List Char} {p : List Char × List Char}
    (h : scanString cs = some p) : p.2.length < cs.length := by
  induction cs using scanString.induct generalizing p with
  | case1 => simp [scanString] at h
  | case2 rest =>
    simp only [scanString, Option.some.injEq] at h
    subst h
    simp
  | case3 a b c d rest hx ih =>
    simp only [scanString, hx, ↓reduceIte, Option.map_eq_some_iff] at h
    obtain ⟨q, hq, rfl⟩ := h
    have := ih hq
    simp only [List.length_cons]
    omega
  | case4 a b c d rest hx => simp [scanString, hx] at h
  | case5 c rest hx hs ih =>
    rw [scanString] at h
    · simp only [hs, ↓reduceIte, Option.map_eq_some_iff] at h
      obtain ⟨q, hq, rfl⟩ := h
      have := ih hq
      simp only [List.length_cons]
      omega
    all_goals assumption
  | case6 c rest hx hs =>
    rw [scanString] at h
    · simp [hs] at h
    all_goals assumption
  | case7 c rest h₁ h₂ h₃ hc =>
    rw [scanString] at h
    · simp [hc] at h
    all_goals assumption
  | case8 c rest h₁ h₂ h₃ hc ih =>
    rw [scanString] at h
    · simp only [hc, ↓reduceIte, Option.map_eq_some_iff] at h
      obtain ⟨q, hq, rfl⟩ := h
      have := ih hq
      simp only [List.length_cons]
      omega
    all_goals assumption

def isNumberChar (c : Char) : Bool :=
  c.isDigit || c == '-' || c == '+' || c == '.' || c == 'e' || c == 'E'

def dropSign : List Char → List Char
  | '-' :: cs => cs
  | '+' :: cs => cs
  | cs => cs

def validExponent : List Char → Bool
  | [] => true
  | c :: cs => (c == 'e' || c == 'E') && !(dropSign cs).isEmpty && (dropSign cs).all Char.isDigit

def validFraction : List Char → Bool
  | '.' :: cs => (cs.takeWhile Char.isDigit).length > 0 && validExponent (cs.dropWhile Char.isDigit)
  | cs => validExponent cs

def validMagnitude : List Char → Bool
  | '0' :: cs => validFraction cs
  | c :: cs => c.isDigit && validFraction (cs.dropWhile Char.isDigit)
  | [] => false

def validNumber : List Char → Bool
  | '-' :: cs => validMagnitude cs
  | cs => validMagnitude cs

/-- The longest run of characters that numbers are made of, if it is a number. -/
def scanNumber (cs : List Char) : Option (Taken Json cs) :=
  let lexeme := cs.takeWhile isNumberChar
  if validNumber lexeme then
    if h : (cs.dropWhile isNumberChar).length < cs.length then
      some ⟨.number (String.ofList lexeme), cs.dropWhile isNumberChar, h⟩
    else none
  else none

/-- What stands behind the blanks and some characters more is shorter than all. -/
theorem length_lt_of_blanks {cs rest : List Char} (c : Char) (seen : List Char)
    (h : blanks cs = c :: (seen ++ rest)) : rest.length < cs.length := by
  have hle := length_blanks_le cs
  simp only [h, List.length_cons, List.length_append] at hle
  omega

mutual

def value (cs : List Char) : Option (Taken Json cs) :=
  match hb : blanks cs with
  | 'n' :: 'u' :: 'l' :: 'l' :: rest =>
    some ⟨.null, rest, length_lt_of_blanks 'n' ['u', 'l', 'l'] hb⟩
  | 't' :: 'r' :: 'u' :: 'e' :: rest =>
    some ⟨.bool true, rest, length_lt_of_blanks 't' ['r', 'u', 'e'] hb⟩
  | 'f' :: 'a' :: 'l' :: 's' :: 'e' :: rest =>
    some ⟨.bool false, rest, length_lt_of_blanks 'f' ['a', 'l', 's', 'e'] hb⟩
  | '"' :: rest =>
    match hs : scanString rest with
    | some (raw, after) =>
      some ⟨.string (String.ofList raw), after,
        Nat.lt_trans (length_scanString_lt hs) (length_lt_of_blanks '"' [] hb)⟩
    | none => none
  | '[' :: rest =>
    have hr := length_lt_of_blanks '[' [] hb
    match he : blanks rest with
    | ']' :: after =>
      some ⟨.array [], after, Nat.lt_trans (length_lt_of_blanks ']' [] he) hr⟩
    | _ => (items rest).map (fun t => ⟨.array t.value, t.rest, Nat.lt_trans t.lt hr⟩)
  | '{' :: rest =>
    have hr := length_lt_of_blanks '{' [] hb
    match he : blanks rest with
    | '}' :: after =>
      some ⟨.object [], after, Nat.lt_trans (length_lt_of_blanks '}' [] he) hr⟩
    | _ => (members rest).map (fun t => ⟨.object t.value, t.rest, Nat.lt_trans t.lt hr⟩)
  | other =>
    (scanNumber other).map (fun t =>
      ⟨t.value, t.rest, Nat.lt_of_lt_of_le t.lt (hb ▸ length_blanks_le cs)⟩)
termination_by (cs.length, 0)

/-- One item or more, up to and over the closing bracket. -/
def items (cs : List Char) : Option (Taken (List Json) cs) := do
  let first ← value cs
  match hb : blanks first.rest with
  | ',' :: rest =>
    have hr := Nat.lt_trans (length_lt_of_blanks ',' [] hb) first.lt
    let more ← items rest
    some ⟨first.value :: more.value, more.rest, Nat.lt_trans more.lt hr⟩
  | ']' :: rest =>
    some ⟨[first.value], rest, Nat.lt_trans (length_lt_of_blanks ']' [] hb) first.lt⟩
  | _ => none
termination_by (cs.length, 1)

/-- One member or more, up to and over the closing brace. -/
def members (cs : List Char) : Option (Taken (List (String × Json)) cs) :=
  match hb : blanks cs with
  | '"' :: rest =>
    match hs : scanString rest with
    | some (raw, after) =>
      have ha := Nat.lt_trans (length_scanString_lt hs) (length_lt_of_blanks '"' [] hb)
      match hc : blanks after with
      | ':' :: behind =>
        have hv := Nat.lt_trans (length_lt_of_blanks ':' [] hc) ha
        match value behind with
        | some first =>
          have hf := Nat.lt_trans first.lt hv
          match hd : blanks first.rest with
          | ',' :: rest' =>
            have hr := Nat.lt_trans (length_lt_of_blanks ',' [] hd) hf
            match members rest' with
            | some more =>
              some ⟨(String.ofList raw, first.value) :: more.value, more.rest,
                Nat.lt_trans more.lt hr⟩
            | none => none
          | '}' :: rest' =>
            some ⟨[(String.ofList raw, first.value)], rest',
              Nat.lt_trans (length_lt_of_blanks '}' [] hd) hf⟩
          | _ => none
        | none => none
      | _ => none
    | none => none
  | _ => none
termination_by (cs.length, 1)

end

/-- The value that a whole text denotes. -/
def parse? (text : String) : Option Json := do
  let t ← value text.toList
  if (blanks t.rest).isEmpty then some t.value else none

end CommandScript.Json
