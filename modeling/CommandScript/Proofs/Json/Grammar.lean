import CommandScript.Proofs.Json.Strings
import Mathlib
/-! # The grammar of JSON

How a value is written, stated on raw characters: blanks may stand around every value, name and
mark, and the characters of numbers and strings are those of the value. The reader takes every text
of the grammar for the value that it spells.
-/
namespace CommandScript.Json

def Blanks (cs : List Char) : Prop := ∀ c ∈ cs, c ∈ [' ', '\n', '\r', '\t']

/-- A run of decimal digits. -/
def DigitRun (ds : List Char) : Prop := ds ≠ [] ∧ ∀ d ∈ ds, d.isDigit = true

inductive WholePart : List Char → Prop
  | zero : WholePart ['0']
  | digits {c : Char} {ds : List Char} (hzero : c ≠ '0') (h : DigitRun (c :: ds)) :
    WholePart (c :: ds)

inductive FractionPart : List Char → Prop
  | none : FractionPart []
  | some {ds : List Char} (h : DigitRun ds) : FractionPart ('.' :: ds)

inductive ExponentPart : List Char → Prop
  | none : ExponentPart []
  | some {mark : Char} {sign ds : List Char} (hmark : mark ∈ ['e', 'E'])
    (hsign : sign ∈ [[], ['+'], ['-']]) (h : DigitRun ds) : ExponentPart (mark :: (sign ++ ds))

inductive NumberText : List Char → Prop
  | intro {sign whole fraction exponent : List Char} (hsign : sign ∈ [[], ['-']])
    (hwhole : WholePart whole) (hfraction : FractionPart fraction)
    (hexponent : ExponentPart exponent) : NumberText (sign ++ (whole ++ (fraction ++ exponent)))

/-- Something written with blanks around it. -/
inductive Padded (w : List Char) : List Char → Prop
  | intro {b b' : List Char} (hb : Blanks b) (hb' : Blanks b') : Padded w (b ++ (w ++ b'))

/-- A name in quotes, a colon and a value, with blanks around them. -/
inductive Keyed (raw w : List Char) : List Char → Prop
  | intro {b b' v : List Char} (hb : Blanks b) (hraw : RawString raw) (hb' : Blanks b')
    (hv : Padded w v) : Keyed raw w (b ++ '"' :: (raw ++ '"' :: (b' ++ ':' :: v)))

/-- What is spelled: a value, or a row of items or members without the brackets. -/
inductive Piece where
  | value (j : Json)
  | items (js : List Json)
  | members (ms : List (String × Json))

inductive Spelled : Piece → List Char → Prop
  | null : Spelled (.value .null) ['n', 'u', 'l', 'l']
  | boolTrue : Spelled (.value (.bool true)) ['t', 'r', 'u', 'e']
  | boolFalse : Spelled (.value (.bool false)) ['f', 'a', 'l', 's', 'e']
  | number {w : List Char} (h : NumberText w) : Spelled (.value (.number (String.ofList w))) w
  | string {raw : List Char} (h : RawString raw) :
    Spelled (.value (.string (String.ofList raw))) ('"' :: (raw ++ ['"']))
  | emptyArray {b : List Char} (hb : Blanks b) : Spelled (.value (.array [])) ('[' :: (b ++ [']']))
  | array {js : List Json} {w : List Char} (h : Spelled (.items js) w) :
    Spelled (.value (.array js)) ('[' :: (w ++ [']']))
  | emptyObject {b : List Char} (hb : Blanks b) :
    Spelled (.value (.object [])) ('{' :: (b ++ ['}']))
  | object {ms : List (String × Json)} {w : List Char} (h : Spelled (.members ms) w) :
    Spelled (.value (.object ms)) ('{' :: (w ++ ['}']))
  | item {j : Json} {w p : List Char} (h : Spelled (.value j) w) (hp : Padded w p) :
    Spelled (.items [j]) p
  | moreItems {j : Json} {js : List Json} {w p q : List Char} (h : Spelled (.value j) w)
    (hp : Padded w p) (hmore : Spelled (.items js) q) : Spelled (.items (j :: js)) (p ++ ',' :: q)
  | member {raw : List Char} {j : Json} {w p : List Char} (h : Spelled (.value j) w)
    (hp : Keyed raw w p) : Spelled (.members [(String.ofList raw, j)]) p
  | moreMembers {raw : List Char} {j : Json} {ms : List (String × Json)} {w p q : List Char}
    (h : Spelled (.value j) w) (hp : Keyed raw w p) (hmore : Spelled (.members ms) q) :
    Spelled (.members ((String.ofList raw, j) :: ms)) (p ++ ',' :: q)

/-- A whole text that spells a value. -/
def IsText (j : Json) (text : String) : Prop :=
  ∃ w, Spelled (.value j) w ∧ Padded w text.toList

/-- Nothing in front goes on with a run of such characters. -/
def Stops (p : Char → Bool) (cs : List Char) : Prop := ∀ c ∈ cs.head?, p c = false

section Runs
variable {p : Char → Bool} {w rest : List Char}

theorem stops_nil : Stops p [] := by simp [Stops]

theorem stops_cons {c : Char} (h : p c = false) : Stops p (c :: rest) := by
  intro d hd
  cases hd
  exact h

theorem takeWhile_append_of_stops (hw : ∀ c ∈ w, p c = true) (hrest : Stops p rest) :
    (w ++ rest).takeWhile p = w := by
  rw [List.takeWhile_append_of_pos hw]
  cases rest with
  | nil => simp
  | cons c rest => simp [hrest c rfl]

theorem dropWhile_append_of_stops (hw : ∀ c ∈ w, p c = true) (hrest : Stops p rest) :
    (w ++ rest).dropWhile p = rest := by
  rw [List.dropWhile_append_of_pos hw]
  cases rest with
  | nil => rfl
  | cons c rest => simp [hrest c rfl]

theorem isBlank_of_blanks (h : Blanks w) : ∀ c ∈ w, isBlank c = true := by
  intro c hc
  have hmem := h c hc
  fin_cases hmem <;> rfl

theorem blanks_append (h : Blanks w) (hrest : Stops isBlank rest) : blanks (w ++ rest) = rest :=
  dropWhile_append_of_stops (isBlank_of_blanks h) hrest

theorem stops_append_of_blanks (h : Blanks w) (hrest : Stops isNumberChar rest) :
    Stops isNumberChar (w ++ rest) := by
  cases w with
  | nil => exact hrest
  | cons c w =>
    have hmem := h c List.mem_cons_self
    refine stops_cons ?_
    fin_cases hmem <;> rfl

end Runs

section Numbers
variable {w fraction exponent : List Char}

theorem dropSign_append {sign ds : List Char} (hsign : sign ∈ [[], ['+'], ['-']])
    (h : DigitRun ds) : dropSign (sign ++ ds) = ds := by
  obtain ⟨hne, hds⟩ := h
  obtain ⟨d, ds, rfl⟩ := List.exists_cons_of_ne_nil hne
  have hd := hds d List.mem_cons_self
  have hminus : d ≠ '-' := by
    rintro rfl
    exact absurd hd (by decide)
  have hplus : d ≠ '+' := by
    rintro rfl
    exact absurd hd (by decide)
  fin_cases hsign
  · rw [List.nil_append, dropSign]
    · rintro cs ⟨⟩
      exact hminus rfl
    · rintro cs ⟨⟩
      exact hplus rfl
  · rfl
  · rfl

theorem validExponent_of_part (h : ExponentPart w) : validExponent w = true := by
  cases h with
  | none => rfl
  | @some mark sign ds hmark hsign hds =>
    have hmark : (mark == 'e' || mark == 'E') = true := by fin_cases hmark <;> rfl
    have hempty : ds.isEmpty = false := List.isEmpty_eq_false_iff.mpr hds.1
    have hall : ds.all Char.isDigit = true := List.all_eq_true.mpr hds.2
    simp only [validExponent, dropSign_append hsign hds, hmark, hempty, hall, Bool.not_false,
      Bool.and_self]

/-- What may stand behind the digits of a number is no digit. -/
theorem stops_exponent (h : ExponentPart w) : Stops Char.isDigit w := by
  cases h with
  | none => exact stops_nil
  | some hmark _ _ =>
    refine stops_cons ?_
    fin_cases hmark <;> rfl

theorem validFraction_of_parts (hf : FractionPart fraction) (he : ExponentPart exponent) :
    validFraction (fraction ++ exponent) = true := by
  cases hf with
  | none =>
    rw [List.nil_append, validFraction]
    · exact validExponent_of_part he
    · rintro cs rfl
      cases he with
      | some hmark _ _ => exact absurd hmark (by decide)
  | @some ds h =>
    have hstops := stops_exponent he
    have hlength : 0 < ds.length := List.length_pos_iff.mpr h.1
    simp only [List.cons_append, validFraction, takeWhile_append_of_stops h.2 hstops,
      dropWhile_append_of_stops h.2 hstops, validExponent_of_part he, gt_iff_lt, hlength,
      decide_true, Bool.and_self]

theorem stops_fraction (hf : FractionPart fraction) (he : ExponentPart exponent) :
    Stops Char.isDigit (fraction ++ exponent) := by
  cases hf with
  | none => exact stops_exponent he
  | some _ => exact stops_cons rfl

theorem validMagnitude_of_parts {whole : List Char} (hw : WholePart whole)
    (hf : FractionPart fraction) (he : ExponentPart exponent) :
    validMagnitude (whole ++ (fraction ++ exponent)) = true := by
  have hvalid := validFraction_of_parts hf he
  cases hw with
  | zero => exact hvalid
  | @digits c ds hzero h =>
    obtain ⟨hc, hds⟩ := List.forall_mem_cons.mp h.2
    rw [List.cons_append, validMagnitude]
    · rw [hc, dropWhile_append_of_stops hds (stops_fraction hf he), hvalid, Bool.and_self]
    · exact hzero

theorem WholePart.exists_digit {whole : List Char} (h : WholePart whole) :
    ∃ c cs, whole = c :: cs ∧ c.isDigit = true := by
  cases h with
  | zero => exact ⟨'0', [], rfl, rfl⟩
  | digits _ h => exact ⟨_, _, rfl, h.2 _ List.mem_cons_self⟩

theorem WholePart.isDigit {whole : List Char} (h : WholePart whole) :
    ∀ c ∈ whole, c.isDigit = true := by
  cases h with
  | zero => simp
  | digits _ h => exact h.2

theorem WholePart.ne_nil {whole : List Char} (h : WholePart whole) : whole ≠ [] := by
  cases h with
  | zero => simp
  | digits _ h => exact h.1

theorem validNumber_of_text (h : NumberText w) : validNumber w = true := by
  cases h with
  | @intro sign whole fraction exponent hsign hw hf he =>
    have hvalid := validMagnitude_of_parts hw hf he
    obtain ⟨c, cs, rfl, hc⟩ := hw.exists_digit
    fin_cases hsign
    · rw [List.nil_append, List.cons_append, validNumber]
      · exact hvalid
      · rintro cs ⟨⟩
        exact absurd hc (by decide)
    · exact hvalid

theorem isNumberChar_of_isDigit {c : Char} (h : c.isDigit = true) : isNumberChar c = true := by
  simp [isNumberChar, h]

theorem isNumberChar_of_text (h : NumberText w) : ∀ c ∈ w, isNumberChar c = true := by
  have hdigits {ds : List Char} (h : DigitRun ds) : ∀ c ∈ ds, isNumberChar c = true :=
    fun c hc => isNumberChar_of_isDigit (h.2 c hc)
  cases h with
  | @intro sign whole fraction exponent hsign hw hf he =>
    refine List.forall_mem_append.mpr ⟨?_, List.forall_mem_append.mpr ⟨?_,
      List.forall_mem_append.mpr ⟨?_, ?_⟩⟩⟩
    · fin_cases hsign
      · exact List.forall_mem_nil _
      · exact List.forall_mem_singleton.mpr rfl
    · cases hw with
      | zero => exact List.forall_mem_singleton.mpr rfl
      | digits _ h => exact hdigits h
    · cases hf with
      | none => exact List.forall_mem_nil _
      | some h => exact List.forall_mem_cons.mpr ⟨rfl, hdigits h⟩
    · cases he with
      | none => exact List.forall_mem_nil _
      | some hmark hsign h =>
        refine List.forall_mem_cons.mpr ⟨?_, List.forall_mem_append.mpr ⟨?_, hdigits h⟩⟩
        · fin_cases hmark <;> rfl
        · fin_cases hsign
          · exact List.forall_mem_nil _
          · exact List.forall_mem_singleton.mpr rfl
          · exact List.forall_mem_singleton.mpr rfl

/-- A number starts with a digit or a minus sign. -/
theorem NumberText.exists_head (h : NumberText w) :
    ∃ c cs, w = c :: cs ∧ (c.isDigit = true ∨ c = '-') := by
  cases h with
  | @intro sign whole fraction exponent hsign hw _ _ =>
    obtain ⟨c, cs, rfl, hc⟩ := hw.exists_digit
    fin_cases hsign
    · exact ⟨c, _, rfl, .inl hc⟩
    · exact ⟨'-', _, rfl, .inr rfl⟩

theorem scanNumber_of_text {rest : List Char} (h : NumberText w) (hrest : Stops isNumberChar rest) :
    ∃ lt, scanNumber (w ++ rest) = some ⟨.number (String.ofList w), rest, lt⟩ := by
  have htake := takeWhile_append_of_stops (isNumberChar_of_text h) hrest
  have hdrop := dropWhile_append_of_stops (isNumberChar_of_text h) hrest
  have hlt : rest.length < (w ++ rest).length := by
    obtain ⟨c, cs, rfl, -⟩ := h.exists_head
    simp
  refine ⟨hlt, ?_⟩
  simp only [scanNumber, htake, hdrop, validNumber_of_text h, hlt, ↓reduceIte, ↓reduceDIte]

end Numbers

section Views

/-- What was taken, without the proof that something was. -/
def Taken.pair {α : Type} {cs : List Char} (t : Taken α cs) : α × List Char := (t.value, t.rest)

def readValue (cs : List Char) : Option (Json × List Char) := (value cs).map Taken.pair

def readItems (cs : List Char) : Option (List Json × List Char) := (items cs).map Taken.pair

def readMembers (cs : List Char) : Option (List (String × Json) × List Char) :=
  (members cs).map Taken.pair

variable {cs rest rest' after behind first raw w : List Char} {j : Json} {js : List Json}
  {ms : List (String × Json)}

theorem readValue_null (hb : blanks cs = 'n' :: 'u' :: 'l' :: 'l' :: rest) :
    readValue cs = some (.null, rest) := by
  rw [readValue, value]
  grind [Taken.pair]

theorem readValue_true (hb : blanks cs = 't' :: 'r' :: 'u' :: 'e' :: rest) :
    readValue cs = some (.bool true, rest) := by
  rw [readValue, value]
  grind [Taken.pair]

theorem readValue_false (hb : blanks cs = 'f' :: 'a' :: 'l' :: 's' :: 'e' :: rest) :
    readValue cs = some (.bool false, rest) := by
  rw [readValue, value]
  grind [Taken.pair]

theorem readValue_string (hb : blanks cs = '"' :: rest) (hs : scanString rest = some (raw, after)) :
    readValue cs = some (.string (String.ofList raw), after) := by
  rw [readValue, value]
  grind [Taken.pair]

theorem readValue_number (hb : blanks cs = w ++ rest) (hw : NumberText w)
    (hrest : Stops isNumberChar rest) : readValue cs = some (.number (String.ofList w), rest) := by
  obtain ⟨lt, hscan⟩ := scanNumber_of_text hw hrest
  obtain ⟨c, w, rfl, hc⟩ := hw.exists_head
  -- No other value starts as a number does.
  have hne : c ≠ 'n' ∧ c ≠ 't' ∧ c ≠ 'f' ∧ c ≠ '"' ∧ c ≠ '[' ∧ c ≠ '{' := by
    refine ⟨?_, ?_, ?_, ?_, ?_, ?_⟩ <;> rintro rfl <;> revert hc <;> decide
  rw [readValue, value]
  grind [Taken.pair]

theorem readValue_emptyArray (hb : blanks cs = '[' :: rest) (he : blanks rest = ']' :: after) :
    readValue cs = some (.array [], after) := by
  rw [readValue, value]
  grind [Taken.pair]

theorem readValue_array (hb : blanks cs = '[' :: rest) (he : ∀ after, blanks rest ≠ ']' :: after)
    (h : readItems rest = some (js, rest')) : readValue cs = some (.array js, rest') := by
  obtain ⟨t, ht, hpair⟩ := Option.map_eq_some_iff.mp h
  cases hpair
  rw [readValue, value]
  grind [Taken.pair]

theorem readValue_emptyObject (hb : blanks cs = '{' :: rest) (he : blanks rest = '}' :: after) :
    readValue cs = some (.object [], after) := by
  rw [readValue, value]
  grind [Taken.pair]

theorem readValue_object (hb : blanks cs = '{' :: rest) (he : ∀ after, blanks rest ≠ '}' :: after)
    (h : readMembers rest = some (ms, rest')) : readValue cs = some (.object ms, rest') := by
  obtain ⟨t, ht, hpair⟩ := Option.map_eq_some_iff.mp h
  cases hpair
  rw [readValue, value]
  grind [Taken.pair]

theorem readItems_last (hfirst : readValue cs = some (j, first)) (hb : blanks first = ']' :: rest) :
    readItems cs = some ([j], rest) := by
  obtain ⟨t, ht, hpair⟩ := Option.map_eq_some_iff.mp hfirst
  cases hpair
  rw [readItems, items, ht, Option.bind_eq_bind, Option.bind_some]
  grind [Taken.pair]

theorem readItems_more (hfirst : readValue cs = some (j, first)) (hb : blanks first = ',' :: rest)
    (hmore : readItems rest = some (js, rest')) : readItems cs = some (j :: js, rest') := by
  obtain ⟨t, ht, hpair⟩ := Option.map_eq_some_iff.mp hfirst
  cases hpair
  obtain ⟨t', ht', hpair⟩ := Option.map_eq_some_iff.mp hmore
  cases hpair
  rw [readItems, items, ht, Option.bind_eq_bind, Option.bind_some]
  grind [Taken.pair]

theorem readMembers_last (hb : blanks cs = '"' :: rest) (hs : scanString rest = some (raw, after))
    (hc : blanks after = ':' :: behind) (hfirst : readValue behind = some (j, first))
    (hd : blanks first = '}' :: rest') :
    readMembers cs = some ([(String.ofList raw, j)], rest') := by
  obtain ⟨t, ht, hpair⟩ := Option.map_eq_some_iff.mp hfirst
  cases hpair
  rw [readMembers, members]
  grind [Taken.pair]

theorem readMembers_more {more : List Char} (hb : blanks cs = '"' :: rest)
    (hs : scanString rest = some (raw, after)) (hc : blanks after = ':' :: behind)
    (hfirst : readValue behind = some (j, first)) (hd : blanks first = ',' :: more)
    (hmore : readMembers more = some (ms, rest')) :
    readMembers cs = some ((String.ofList raw, j) :: ms, rest') := by
  obtain ⟨t, ht, hpair⟩ := Option.map_eq_some_iff.mp hfirst
  cases hpair
  obtain ⟨t', ht', hpair⟩ := Option.map_eq_some_iff.mp hmore
  cases hpair
  rw [readMembers, members]
  grind [Taken.pair]

theorem parse?_of_readValue {text : String} (h : readValue text.toList = some (j, rest))
    (hrest : blanks rest = []) : parse? text = some j := by
  obtain ⟨t, ht, hpair⟩ := Option.map_eq_some_iff.mp h
  cases hpair
  rw [parse?, ht, Option.bind_eq_bind, Option.bind_some, hrest]
  rfl

end Views

section Completeness
variable {j : Json} {js : List Json} {ms : List (String × Json)} {raw w p : List Char}

/-- The reader takes a piece for what it spells, whatever stands behind it. -/
def IsRead : Piece → List Char → Prop
  | .value j, w => ∀ b rest, Blanks b → Stops isNumberChar rest →
      readValue (b ++ (w ++ rest)) = some (j, rest)
  | .items js, w => ∀ rest, readItems (w ++ ']' :: rest) = some (js, rest)
  | .members ms, w => ∀ rest, readMembers (w ++ '}' :: rest) = some (ms, rest)

theorem Spelled.exists_head (h : Spelled (.value j) w) :
    ∃ c cs, w = c :: cs ∧ isBlank c = false ∧ c ≠ ']' := by
  cases h with
  | number h =>
    obtain ⟨c, cs, rfl, hc⟩ := h.exists_head
    refine ⟨c, cs, rfl, ?_, ?_⟩
    · rcases hc with hc | rfl
      · simp only [isBlank, Bool.or_eq_false_iff, beq_eq_false_iff_ne]
        refine ⟨⟨⟨?_, ?_⟩, ?_⟩, ?_⟩ <;> rintro rfl <;> exact absurd hc (by decide)
      · rfl
    · rintro rfl
      exact absurd hc (by decide)
  | _ => exact ⟨_, _, rfl, rfl, by decide⟩

theorem blanks_padded_ne (h : Spelled (.value j) w) (hp : Padded w p) (rest after : List Char) :
    blanks (p ++ rest) ≠ ']' :: after := by
  obtain ⟨c, cs, rfl, hblank, hne⟩ := h.exists_head
  cases hp with
  | @intro b b' hb hb' =>
    rw [List.append_assoc, List.append_assoc, List.cons_append,
      blanks_append hb (stops_cons hblank)]
    rintro ⟨⟩
    exact hne rfl

/-- A row of items does not look like the end of an array. -/
theorem Spelled.blanks_items_ne (h : Spelled (.items js) p) (rest after : List Char) :
    blanks (p ++ rest) ≠ ']' :: after := by
  cases h with
  | item h hp => exact blanks_padded_ne h hp rest after
  | moreItems h hp hmore =>
    rw [List.append_assoc]
    exact blanks_padded_ne h hp _ after

theorem Keyed.exists_read (hp : Keyed raw w p) (rest : List Char) :
    ∃ named v after, blanks (p ++ rest) = '"' :: named ∧ scanString named = some (raw, after) ∧
      blanks after = ':' :: (v ++ rest) ∧ Padded w v := by
  cases hp with
  | @intro b b' v hb hraw hb' hv =>
    refine ⟨raw ++ '"' :: (b' ++ ':' :: (v ++ rest)), v, b' ++ ':' :: (v ++ rest), ?_,
      scanString_of_rawString hraw _, blanks_append hb' (stops_cons rfl), hv⟩
    simp only [List.append_assoc, List.cons_append]
    exact blanks_append hb (stops_cons rfl)

theorem Spelled.blanks_members_ne (h : Spelled (.members ms) p) (rest after : List Char) :
    blanks (p ++ rest) ≠ '}' :: after := by
  cases h with
  | member h hp =>
    obtain ⟨named, v, behind, hb, -⟩ := hp.exists_read rest
    rw [hb]
    rintro ⟨⟩
  | @moreMembers raw j ms w p q h hp hmore =>
    obtain ⟨named, v, behind, hb, -⟩ := hp.exists_read (',' :: q ++ rest)
    rw [List.append_assoc, hb]
    rintro ⟨⟩

theorem IsRead.padded (h : IsRead (.value j) w) (hp : Padded w p) (rest : List Char)
    (hnumber : Stops isNumberChar rest) (hblank : Stops isBlank rest) :
    ∃ after, readValue (p ++ rest) = some (j, after) ∧ blanks after = rest := by
  cases hp with
  | @intro b b' hb hb' =>
    refine ⟨b' ++ rest, ?_, blanks_append hb' hblank⟩
    simp only [List.append_assoc]
    exact h b (b' ++ rest) hb (stops_append_of_blanks hb' hnumber)

theorem isRead_of_spelled {piece : Piece} (h : Spelled piece w) : IsRead piece w := by
  induction h with
  | null => exact fun b rest hb _ => readValue_null (blanks_append hb (stops_cons rfl))
  | boolTrue => exact fun b rest hb _ => readValue_true (blanks_append hb (stops_cons rfl))
  | boolFalse => exact fun b rest hb _ => readValue_false (blanks_append hb (stops_cons rfl))
  | number h =>
    intro b rest hb hrest
    obtain ⟨c, cs, hcs, hblank, -⟩ := (Spelled.number h).exists_head
    refine readValue_number (blanks_append hb ?_) h hrest
    rw [hcs]
    exact stops_cons hblank
  | @string raw h =>
    intro b rest hb _
    rw [List.cons_append, List.append_assoc]
    exact readValue_string (blanks_append hb (stops_cons rfl)) (scanString_of_rawString h rest)
  | @emptyArray b' hb' =>
    intro b rest hb _
    rw [List.cons_append, List.append_assoc]
    exact readValue_emptyArray (blanks_append hb (stops_cons rfl))
      (blanks_append hb' (stops_cons rfl))
  | array h ih =>
    intro b rest hb _
    rw [List.cons_append, List.append_assoc]
    exact readValue_array (blanks_append hb (stops_cons rfl)) (h.blanks_items_ne _) (ih rest)
  | @emptyObject b' hb' =>
    intro b rest hb _
    rw [List.cons_append, List.append_assoc]
    exact readValue_emptyObject (blanks_append hb (stops_cons rfl))
      (blanks_append hb' (stops_cons rfl))
  | object h ih =>
    intro b rest hb _
    rw [List.cons_append, List.append_assoc]
    exact readValue_object (blanks_append hb (stops_cons rfl)) (h.blanks_members_ne _) (ih rest)
  | item h hp ih =>
    intro rest
    obtain ⟨after, hread, hblanks⟩ :=
      IsRead.padded ih hp (']' :: rest) (stops_cons rfl) (stops_cons rfl)
    exact readItems_last hread hblanks
  | @moreItems j js w p q h hp hmore ih ihmore =>
    intro rest
    obtain ⟨after, hread, hblanks⟩ :=
      IsRead.padded ih hp (',' :: (q ++ ']' :: rest)) (stops_cons rfl) (stops_cons rfl)
    rw [List.append_assoc]
    exact readItems_more hread hblanks (ihmore rest)
  | member h hp ih =>
    intro rest
    obtain ⟨named, v, after, hname, hscan, hcolon, hv⟩ := hp.exists_read ('}' :: rest)
    obtain ⟨behind, hread, hblanks⟩ :=
      IsRead.padded ih hv ('}' :: rest) (stops_cons rfl) (stops_cons rfl)
    exact readMembers_last hname hscan hcolon hread hblanks
  | @moreMembers raw j ms w p q h hp hmore ih ihmore =>
    intro rest
    obtain ⟨named, v, after, hname, hscan, hcolon, hv⟩ := hp.exists_read (',' :: (q ++ '}' :: rest))
    obtain ⟨behind, hread, hblanks⟩ :=
      IsRead.padded ih hv (',' :: (q ++ '}' :: rest)) (stops_cons rfl) (stops_cons rfl)
    rw [List.append_assoc]
    exact readMembers_more hname hscan hcolon hread hblanks (ihmore rest)

/-- The reader takes every text that spells a value for that value. -/
theorem parse?_of_isText {text : String} (h : IsText j text) : parse? text = some j := by
  obtain ⟨w, hw, hp⟩ := h
  obtain ⟨after, hread, hblanks⟩ := (isRead_of_spelled hw).padded hp [] stops_nil stops_nil
  rw [List.append_nil] at hread
  exact parse?_of_readValue hread hblanks

end Completeness

end CommandScript.Json
