import CommandScript.Parsing.Stream
/-! # Rows of tokens

A finite source, read from front to back, comes to a row of tokens and a way to end: an end marker,
which is then given for ever, or an error. A row is a token stream without any buffer, so it serves
as the measure of every buffered stream.
-/
namespace CommandScript

structure TokenRow where
  tokens : List Token
  ending : Except LexError EndMarker

namespace TokenRow

def size (r : TokenRow) : Nat := r.tokens.length

def first (r : TokenRow) : Except SyntaxError (First size r) :=
  match r with
  | ⟨[], .error e⟩ => .error (.lex e)
  | ⟨[], .ok m⟩ =>
    .ok ⟨m.1, ⟨[], .ok m⟩, ⟨[], .ok m⟩, Nat.le_refl _, Nat.le_refl _, fun h => absurd m.2 h⟩
  | ⟨t :: ts, ending⟩ =>
    .ok ⟨t, ⟨t :: ts, ending⟩, ⟨ts, ending⟩, Nat.le_refl _, Nat.le_succ _,
      fun _ => Nat.lt_succ_self _⟩

def second (r : TokenRow) : Except SyntaxError (Second size r) :=
  match r.tokens[1]?, r.ending with
  | some t, _ => .ok ⟨t, r, Nat.le_refl _⟩
  | none, .ok m => .ok ⟨m.1, r, Nat.le_refl _⟩
  | none, .error e => .error (.lex e)

instance : TokenStream TokenRow where
  size := size
  first := first
  second := second

/-- All that a source has to give. -/
def ofSource {σ : Type} [FiniteSource σ] (source : σ) : TokenRow :=
  match h : TokenSource.next source with
  | (.error e, _) => ⟨[], .error e⟩
  | (.ok t, rest) =>
    if hk : t.kind = .eof then ⟨[], .ok ⟨t, hk⟩⟩
    else
      have hrest : (TokenSource.next source).2 = rest := congrArg Prod.snd h
      have : FiniteSource.size rest < FiniteSource.size source :=
        hrest ▸ FiniteSource.size_next_lt source (fun t' ht => by rw [h] at ht; cases ht; exact hk)
      let row := ofSource rest
      ⟨t :: row.tokens, row.ending⟩
termination_by FiniteSource.size source

variable {σ : Type} [FiniteSource σ]

theorem ofSource_of_error {source rest : σ} {e : LexError}
    (h : TokenSource.next source = (.error e, rest)) : ofSource source = ⟨[], .error e⟩ := by
  unfold ofSource
  split
  · rename_i e' rest' h'
    rw [h] at h'
    cases h'
    rfl
  · rename_i t rest' h'
    rw [h] at h'
    cases h'

theorem ofSource_of_ok {source rest : σ} {t : Token} (h : TokenSource.next source = (.ok t, rest)) :
    ofSource source =
      if hk : t.kind = .eof then ⟨[], .ok ⟨t, hk⟩⟩
      else ⟨t :: (ofSource rest).tokens, (ofSource rest).ending⟩ := by
  rw [ofSource]
  split
  · rename_i e rest' h'
    rw [h] at h'
    cases h'
  · rename_i t' rest' h'
    rw [h] at h'
    cases h'
    rfl

/-- A row with the given end and no end marker inside. -/
structure Clean (ending : Except LexError EndMarker) (r : TokenRow) : Prop where
  ending_eq : r.ending = ending
  ne_eof : ∀ t ∈ r.tokens, t.kind ≠ .eof

theorem clean_ofSource (source : σ) : (ofSource source).Clean (ofSource source).ending := by
  induction source using ofSource.induct with
  | case1 source e rest h =>
    rw [ofSource_of_error h]
    exact ⟨rfl, fun t ht => absurd ht List.not_mem_nil⟩
  | case2 source t rest h hk =>
    rw [ofSource_of_ok h, dif_pos hk]
    exact ⟨rfl, fun t ht => absurd ht List.not_mem_nil⟩
  | case3 source t hk h _ ih =>
    rw [ofSource_of_ok h, dif_neg hk]
    refine ⟨rfl, fun u hu => ?_⟩
    rcases List.mem_cons.mp hu with rfl | hu
    · exact hk
    · exact ih.ne_eof u hu

section Requests
variable {ending : Except LexError EndMarker} {r : TokenRow} {t : First TokenStream.size r}

theorem first_cons (t : Token) (ts : List Token) (ending : Except LexError EndMarker) :
    TokenStream.first (TokenRow.mk (t :: ts) ending) =
      .ok ⟨t, ⟨t :: ts, ending⟩, ⟨ts, ending⟩, Nat.le_refl _, Nat.le_succ _,
        fun _ => Nat.lt_succ_self _⟩ := rfl

theorem here_of_first (h : TokenStream.first r = .ok t) : t.here = r := by
  obtain ⟨_ | ⟨t', ts⟩, _ | m⟩ := r <;> cases h <;> rfl

theorem tokens_here (h : TokenStream.first r = .ok t) : t.here.tokens = r.tokens :=
  congrArg tokens (here_of_first h)

theorem clean_here (hr : r.Clean ending) (h : TokenStream.first r = .ok t) :
    t.here.Clean ending := by
  rw [here_of_first h]
  exact hr

theorem clean_after (hr : r.Clean ending) (h : TokenStream.first r = .ok t) :
    t.after.Clean ending := by
  obtain ⟨_ | ⟨t', ts⟩, _ | m⟩ := r <;> cases h
  · exact hr
  · exact ⟨hr.ending_eq, fun u hu => hr.ne_eof u (List.mem_cons_of_mem _ hu)⟩
  · exact ⟨hr.ending_eq, fun u hu => hr.ne_eof u (List.mem_cons_of_mem _ hu)⟩

theorem tokens_of_first (h : TokenStream.first r = .ok t) (hk : t.token.kind ≠ .eof) :
    r.tokens = t.token :: t.after.tokens := by
  obtain ⟨_ | ⟨t', ts⟩, _ | m⟩ := r <;> cases h
  · exact absurd m.2 hk
  · rfl
  · rfl

theorem eq_of_first (h : TokenStream.first r = .ok t) (hk : t.token.kind ≠ .eof) :
    r = ⟨t.token :: t.after.tokens, t.after.ending⟩ := by
  obtain ⟨_ | ⟨t', ts⟩, _ | m⟩ := r <;> cases h
  · exact absurd m.2 hk
  · rfl
  · rfl

theorem token_of_first {c : Token} (h : TokenStream.first r = .ok t) (hc : r.tokens[0]? = some c) :
    t.token = c := by
  obtain ⟨_ | ⟨t', ts⟩, _ | m⟩ := r <;> cases h <;> simp_all

theorem tokens_of_first_eof (hr : r.Clean ending) (h : TokenStream.first r = .ok t)
    (hk : t.token.kind = .eof) : r.tokens = [] ∧ t.after.tokens = [] ∧ ∃ m, ending = .ok m := by
  obtain ⟨_ | ⟨t', ts⟩, _ | m⟩ := r <;> cases h
  · exact ⟨rfl, rfl, m, hr.ending_eq.symm⟩
  · exact absurd hk (hr.ne_eof t' List.mem_cons_self)
  · exact absurd hk (hr.ne_eof t' List.mem_cons_self)

theorem here_of_second {t : Second TokenStream.size r} (h : TokenStream.second r = .ok t) :
    t.here = r := by
  change TokenRow.second r = .ok t at h
  unfold TokenRow.second at h
  split at h <;> cases h <;> rfl

theorem tokens_of_second {t : Second TokenStream.size r} (h : TokenStream.second r = .ok t)
    (hk : t.token.kind ≠ .eof) : r.tokens[1]? = some t.token := by
  change TokenRow.second r = .ok t at h
  unfold TokenRow.second at h
  split at h
  · rename_i t' hsome
    cases h
    exact hsome
  · rename_i m _ _
    cases h
    exact absurd m.2 hk
  · cases h

theorem second_cons (t' : Token) {ts : List Token} {t : First TokenStream.size (TokenRow.mk ts ending)}
    (h : TokenStream.first (TokenRow.mk ts ending) = .ok t) :
    ∃ u, TokenStream.second (TokenRow.mk (t' :: ts) ending) = .ok u ∧ u.token = t.token ∧
      u.here = ⟨t' :: ts, ending⟩ := by
  cases ts with
  | cons a as => cases h; exact ⟨_, rfl, rfl, rfl⟩
  | nil =>
    cases ending with
    | error e => cases h
    | ok m => cases h; exact ⟨_, rfl, rfl, rfl⟩

end Requests

end TokenRow

/-- The end of a prepared list of tokens: the first end marker in it, or the one that is added. -/
def Replay.marker (line : Nat) : List Token → EndMarker
  | [] => ⟨⟨.eof, "", line⟩, rfl⟩
  | t :: ts => if h : t.kind = .eof then ⟨t, h⟩ else marker line ts

theorem Replay.ofSource_eq (tokens : List Token) (line : Nat) :
    TokenRow.ofSource (Replay.mk (tokens.map .ok) line) =
      ⟨tokens.takeWhile (fun t => t.kind ≠ .eof), .ok (marker line tokens)⟩ := by
  induction tokens with
  | nil =>
    have h : TokenSource.next (Replay.mk [] line) = (.ok ⟨.eof, "", line⟩, Replay.mk [] line) := rfl
    rw [List.map_nil, TokenRow.ofSource_of_ok h]
    rfl
  | cons t ts ih =>
    have h : TokenSource.next (Replay.mk ((t :: ts).map .ok) line) =
      (.ok t, Replay.mk (ts.map .ok) line) := rfl
    rw [TokenRow.ofSource_of_ok h, ih]
    by_cases hk : t.kind = .eof
    · simp [hk, marker]
    · simp [hk, marker]

end CommandScript
