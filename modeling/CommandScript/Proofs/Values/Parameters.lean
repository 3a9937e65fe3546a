import CommandScript.Proofs.Values.Success
/-! # What parameters take

A parameter takes the value at its position, in its own domain and as the same number, or what
stands in for a value that was left out. It looks at nothing else. So a signature binds parameter by
parameter, and the first parameter that takes nothing decides the error.
-/
namespace CommandScript

/-- The domain that a value lies in by itself. -/
def Value.domain : Value → Domain
  | int _ => .int
  | float _ => .float
  | str _ => .str
  | identifier _ => .identifier
  | var _ => .var
  | flag _ => .flag
  | address _ => .address

theorem Value.kind_eq_name (v : Value) : v.kind = v.domain.name := by
  cases v <;> rfl

/-- What a value is in a domain: itself where it lies there, and the same number where integers
serve as addresses or floats, or addresses as integers. -/
inductive Converts : Domain → Value → Value → Prop
  | same {d : Domain} {v : Value} (h : v.domain = d) : Converts d v v
  | toAddress {n : Int32} {a : Address} (h : n.toInt = a) : Converts .address (.int n) (.address a)
  | toInt {a : Address} {n : Int32} (h : n.toInt = a) : Converts .int (.address a) (.int n)
  | toFloat (n : Int32) : Converts .float (.int n) (.float n.toFloat)

theorem Converts.domain_eq {d : Domain} {v a : Value} (h : Converts d v a) : a.domain = d := by
  cases h with
  | same h => exact h
  | _ => rfl

namespace Domain

/-- Stands for a value that was left out. There is no flag that could. -/
def sentinel? : Domain → Option Value
  | address => some (.address 0)
  | identifier => some (.identifier .missing)
  | var => some (.var .missing)
  | flag => none
  | str => some (.str "")
  | int => some (.int 0)
  | float => some (.float 0.0)

/-- The default as a value of the domain. Texts have none, and there are no negative addresses. -/
def ofDefault? : Domain → Int32 → Option Value
  | address, n => if 0 ≤ n.toInt then some (.address n.toInt.toNat) else none
  | identifier, n => some (.identifier ⟨n.toUInt32⟩)
  | var, n => some (.var ⟨n.toUInt32⟩)
  | flag, n => some (.flag ⟨n.toUInt32⟩)
  | str, _ => none
  | int, n => some (.int n)
  | float, n => some (.float n.toFloat)

theorem domain_of_sentinel? {d : Domain} {a : Value} (h : d.sentinel? = some a) : a.domain = d := by
  cases d <;> cases h <;> rfl

theorem domain_of_ofDefault? {d : Domain} {n : Int32} {a : Value} (h : d.ofDefault? n = some a) :
    a.domain = d := by
  cases d with
  | address =>
    obtain ⟨-, h⟩ := Option.ite_none_right_eq_some.mp h
    cases h
    rfl
  | _ => cases h <;> rfl

end Domain

namespace Param

/-- What an optional parameter is without a value: its default, if it has one in its domain, or else
the domain's sentinel. -/
def fallback? (p : Param) : Option Value :=
  (p.default.bind p.domain.ofDefault?).or p.domain.sentinel?

/-- The value at the position of a parameter, which is its own place in the signature if it does not
say otherwise. -/
def valueIn (p : Param) (values : List Value) (place : Nat) : Option Value :=
  values[p.position.getD place]?

/-- What the parameter is for the value at its position, or for there being none. -/
def Takes (p : Param) : Option Value → Value → Prop
  | some v, a => Converts p.domain v a
  | none, a => p.optional = true ∧ p.fallback? = some a

/-- How a parameter says that it takes nothing. -/
def refusal (p : Param) (index : Nat) : Option Value → BindError
  | some v => .domainMismatch index p.domain v.kind
  | none => if p.optional then .noFlagDefault index else .missingArgument index p.domain

theorem Takes.domain_eq {p : Param} {v : Option Value} {a : Value} (h : p.Takes v a) :
    a.domain = p.domain := by
  cases v with
  | some v => exact Converts.domain_eq h
  | none =>
    rcases Option.or_eq_some_iff.mp h.2 with hdefault | ⟨-, hsentinel⟩
    · obtain ⟨n, -, hn⟩ := Option.bind_eq_some_iff.mp hdefault
      exact Domain.domain_of_ofDefault? hn
    · exact Domain.domain_of_sentinel? hsentinel

end Param

namespace Binding
variable {index : Nat} {d : Domain} {v a : Value}

theorem ends_coerce_converts :
    Ends (Converts d v) (· = .domainMismatch index d v.kind) (coerce index d v) := by
  fun_cases coerce index d v with
  | case2 n hn => exact .toAddress (Int.toNat_of_nonneg hn).symm
  | case5 a ha => exact .toInt (toInt_ofNat_of_le ha)
  | case8 n => exact .toFloat n
  | case3 | case6 | case13 => rfl
  | _ => exact .same rfl

theorem coerce_of_converts (h : Converts d v a) : coerce index d v = .ok a := by
  cases h with
  | same h =>
    subst h
    cases v <;> rfl
  | @toAddress n a h =>
    have hn : 0 ≤ n.toInt := h ▸ Int.natCast_nonneg a
    rw [coerce, if_pos hn, h, Int.toNat_natCast]
  | @toInt a n h =>
    have hlt : (a : Int) < 2 ^ 31 := h ▸ n.toInt_lt
    have ha : a ≤ maxInteger := Nat.le_of_lt_succ (by exact_mod_cast hlt)
    have hn : Int32.ofNat a = n := by rw [← Int32.toInt_inj, toInt_ofNat_of_le ha, h]
    rw [coerce, if_pos ha, hn]
  | toFloat n => rfl

/-- Without a value an optional parameter falls back, and only a flag may have nothing to fall back
on. -/
theorem absent_eq (index : Nat) (p : Param) :
    absent index p.domain p.default = match p.fallback? with
      | some a => .ok a
      | none => .error (.noFlagDefault index) := by
  obtain ⟨d, position, optional, default⟩ := p
  cases default with
  | none => cases d <;> rfl
  | some n =>
    cases d with
    | address =>
      by_cases hn : 0 ≤ n.toInt
      · simp [absent, Param.fallback?, Domain.ofDefault?, hn]
      · have hzero : n.toInt.toNat = 0 := Int.toNat_of_nonpos (by omega)
        simp [absent, Param.fallback?, Domain.ofDefault?, Domain.sentinel?, hn, hzero]
    | _ => rfl

section Row
variable {values : List Value} {place : Nat} {p : Param} {params : List Param} {args : Arguments}
  {e : BindError}

theorem ends_bindParam :
    Ends (p.Takes (p.valueIn values place))
      (· = p.refusal (p.position.getD place) (p.valueIn values place))
      (bindParam values place p) := by
  unfold bindParam Param.valueIn
  dsimp only
  cases values[p.position.getD place]? with
  | some v => exact ends_coerce_converts
  | none =>
    cases hoptional : p.optional with
    | false => simp [Ends, Param.refusal, hoptional]
    | true =>
      rw [if_pos rfl, absent_eq]
      cases hfallback : p.fallback? with
      | none => simp [Ends, Param.refusal, hoptional]
      | some a => exact ⟨hoptional, hfallback⟩

theorem bindParam_of_takes (h : p.Takes (p.valueIn values place) a) :
    bindParam values place p = .ok a := by
  unfold bindParam
  unfold Param.valueIn at h
  cases hv : values[p.position.getD place]? with
  | some v =>
    rw [hv] at h
    simp only [hv]
    exact coerce_of_converts h
  | none =>
    rw [hv] at h
    obtain ⟨hoptional, hfallback⟩ := h
    simp only [hv, hoptional, if_true, absent_eq, hfallback]

theorem bindParam_eq_ok_iff :
    bindParam values place p = .ok a ↔ p.Takes (p.valueIn values place) a := by
  refine ⟨fun h => ?_, bindParam_of_takes⟩
  have hends : Ends (p.Takes (p.valueIn values place)) _ (bindParam values place p) :=
    ends_bindParam
  rw [h] at hends
  exact hends

theorem bindParam_eq_error_iff :
    bindParam values place p = .error e ↔ (∀ a, ¬ p.Takes (p.valueIn values place) a) ∧
      e = p.refusal (p.position.getD place) (p.valueIn values place) := by
  constructor
  · intro h
    refine ⟨fun a ha => ?_, ends_bindParam.of_error h⟩
    cases h.symm.trans (bindParam_of_takes ha)
  · rintro ⟨hnone, rfl⟩
    cases h : bindParam values place p with
    | ok a => exact absurd (bindParam_eq_ok_iff.mp h) (hnone a)
    | error cause => rw [ends_bindParam.of_error h]

theorem bindFrom_eq_ok_iff :
    bindFrom values place params = .ok args ↔ args.length = params.length ∧
      ∀ i (p : Param), params[i]? = some p →
        ∃ a, args[i]? = some a ∧ p.Takes (p.valueIn values (place + i)) a := by
  induction params generalizing place args with
  | nil =>
    constructor
    · intro h
      cases h
      exact ⟨rfl, nofun⟩
    · rintro ⟨hlength, -⟩
      rw [List.length_eq_zero_iff.mp hlength]
      rfl
  | cons p params ih =>
    constructor
    · intro h
      obtain ⟨a, ha, h⟩ := exists_of_bind_eq_ok h
      obtain ⟨rest, hrest, h⟩ := exists_of_bind_eq_ok h
      cases h
      obtain ⟨hlength, htakes⟩ := ih.mp hrest
      refine ⟨congrArg Nat.succ hlength, fun i q hq => ?_⟩
      cases i with
      | zero =>
        cases hq
        exact ⟨a, rfl, bindParam_eq_ok_iff.mp ha⟩
      | succ i =>
        rw [show place + (i + 1) = place + 1 + i by omega]
        exact htakes i q hq
    · rintro ⟨hlength, htakes⟩
      cases args with
      | nil => cases hlength
      | cons a rest =>
        obtain ⟨b, hb, hfirst⟩ := htakes 0 p rfl
        cases hb
        have hparam : bindParam values place p = .ok a := bindParam_of_takes hfirst
        have hrest : bindFrom values (place + 1) params = .ok rest := by
          refine ih.mpr ⟨Nat.succ.inj hlength, fun i q hq => ?_⟩
          rw [show place + 1 + i = place + (i + 1) by omega]
          exact htakes (i + 1) q hq
        rw [bindFrom, hparam, ok_bind, hrest]
        rfl

/-- The first parameter that takes nothing decides the error. -/
theorem bindFrom_eq_error_iff :
    bindFrom values place params = .error e ↔ ∃ i, ∃ p : Param, params[i]? = some p ∧
      (∀ j < i, ∀ q : Param, params[j]? = some q →
        ∃ a, q.Takes (q.valueIn values (place + j)) a) ∧
      (∀ a, ¬ p.Takes (p.valueIn values (place + i)) a) ∧
      e = p.refusal (p.position.getD (place + i)) (p.valueIn values (place + i)) := by
  induction params generalizing place with
  | nil =>
    constructor
    · intro h
      cases h
    · rintro ⟨i, p, hp, -⟩
      cases hp
  | cons p params ih =>
    rw [bindFrom]
    cases hparam : bindParam values place p with
    | error cause =>
      obtain ⟨hnone, hcause⟩ := bindParam_eq_error_iff.mp hparam
      constructor
      · intro h
        cases h
        exact ⟨0, p, rfl, nofun, hnone, hcause⟩
      · rintro ⟨i, q, hq, hbefore, hi, rfl⟩
        cases i with
        | zero =>
          cases hq
          rw [hcause]
          rfl
        | succ i =>
          obtain ⟨a, ha⟩ := hbefore 0 (Nat.succ_pos i) p rfl
          exact absurd ha (hnone a)
    | ok a =>
      have ha := bindParam_eq_ok_iff.mp hparam
      have hshift (i : Nat) : place + (i + 1) = place + 1 + i := by omega
      have hrest :
          (bindFrom values (place + 1) params >>= fun more => pure (a :: more)) = .error e ↔
            bindFrom values (place + 1) params = .error e := by
        cases bindFrom values (place + 1) params with
        | ok more => exact ⟨nofun, nofun⟩
        | error cause => rw [error_bind, Except.error.injEq]
      rw [ok_bind, hrest, ih]
      constructor
      · rintro ⟨i, q, hq, hbefore, hnone, he⟩
        rw [← hshift] at hnone he
        refine ⟨i + 1, q, hq, fun j hj q' hq' => ?_, hnone, he⟩
        cases j with
        | zero =>
          cases hq'
          exact ⟨a, ha⟩
        | succ j =>
          rw [hshift]
          exact hbefore j (Nat.lt_of_succ_lt_succ hj) q' hq'
      · rintro ⟨i, q, hq, hbefore, hnone, he⟩
        cases i with
        | zero =>
          cases hq
          exact absurd ha (hnone a)
        | succ i =>
          rw [hshift] at hnone he
          refine ⟨i, q, hq, fun j hj q' hq' => ?_, hnone, he⟩
          rw [← hshift]
          exact hbefore (j + 1) (Nat.succ_lt_succ hj) q' hq'

theorem bindFrom_congr {values' : List Value}
    (h : ∀ i (p : Param), params[i]? = some p →
      p.valueIn values (place + i) = p.valueIn values' (place + i)) :
    bindFrom values place params = bindFrom values' place params := by
  induction params generalizing place with
  | nil => rfl
  | cons p params ih =>
    have hvalue : values[p.position.getD place]? = values'[p.position.getD place]? := h 0 p rfl
    have hparam : bindParam values place p = bindParam values' place p := by
      simp only [bindParam, hvalue]
    have hrest : bindFrom values (place + 1) params = bindFrom values' (place + 1) params := by
      refine ih (fun i q hq => ?_)
      rw [show place + 1 + i = place + (i + 1) by omega]
      exact h (i + 1) q hq
    rw [bindFrom, bindFrom, hparam, hrest]

end Row
end Binding

namespace Arguments

/-- The accessor of each domain, with what it gets as a value. -/
def accessor (domain : Domain) (args : Arguments) (place : Nat) : Except BindError Value :=
  match domain with
  | .address => (args.address place).map .address
  | .identifier => (args.identifier place).map .identifier
  | .var => (args.var place).map .var
  | .flag => (args.flag place).map .flag
  | .str => (args.str place).map .str
  | .int => (args.int place).map .int
  | .float => (args.float place).map .float

theorem accessor_of_getElem? {args : Arguments} {place : Nat} {a : Value}
    (h : args[place]? = some a) (d : Domain) :
    args.accessor d place =
      if d = a.domain then .ok a else .error (.domainMismatch place d a.kind) := by
  cases d <;> cases a <;>
    simp [accessor, address, identifier, var, flag, str, int, float, read, h, Value.domain,
      Except.map]

end Arguments

theorem Param.Takes.unique {p : Param} {v : Option Value} {a b : Value} (ha : p.Takes v a)
    (hb : p.Takes v b) : a = b := by
  cases v with
  | none => exact Option.some.inj (ha.2.symm.trans hb.2)
  | some v =>
    have hcoerce : Binding.coerce 0 p.domain v = .ok a := Binding.coerce_of_converts ha
    rw [Binding.coerce_of_converts hb] at hcoerce
    exact (Except.ok.inj hcoerce).symm

section Signature
variable {signature : List Param} {values : List Value}

theorem bindArguments_eq_ok_iff {args : Arguments} :
    bindArguments signature values = .ok args ↔ args.length = signature.length ∧
      ∀ i (p : Param), signature[i]? = some p →
        ∃ a, args[i]? = some a ∧ p.Takes (p.valueIn values i) a := by
  rw [bindArguments, Binding.bindFrom_eq_ok_iff]
  simp only [Nat.zero_add]

theorem bindArguments_eq_error_iff {e : BindError} :
    bindArguments signature values = .error e ↔ ∃ i, ∃ p : Param, signature[i]? = some p ∧
      (∀ j < i, ∀ q : Param, signature[j]? = some q → ∃ a, q.Takes (q.valueIn values j) a) ∧
      (∀ a, ¬ p.Takes (p.valueIn values i) a) ∧
      e = p.refusal (p.position.getD i) (p.valueIn values i) := by
  rw [bindArguments, Binding.bindFrom_eq_error_iff]
  simp only [Nat.zero_add]

end Signature

/-- Binding goes parameter by parameter. It succeeds with an argument for each parameter, which is
what the parameter takes for the value at its position, and then the accessor of the parameter's own
domain has the argument and the others refuse it. So an argument depends on its parameter and on the
value at that position only. Binding fails as the first parameter does that takes nothing. Values
behind all positions change nothing. -/
theorem bindArguments_positional (signature : List Param) (values : List Value) :
    (∀ args, bindArguments signature values = .ok args ↔ args.length = signature.length ∧
        ∀ i (p : Param), signature[i]? = some p →
          ∃ a, args[i]? = some a ∧ p.Takes (p.valueIn values i) a) ∧
      (∀ args, bindArguments signature values = .ok args →
        ∀ i (p : Param), signature[i]? = some p →
          (∃ a, args[i]? = some a ∧ args.accessor p.domain i = .ok a) ∧
            ∀ d, d ≠ p.domain →
              args.accessor d i = .error (.domainMismatch i d p.domain.name)) ∧
      (∀ args, bindArguments signature values = .ok args →
        ∀ signature' values' args', bindArguments signature' values' = .ok args' →
          ∀ i j (p : Param), signature[i]? = some p → signature'[j]? = some p →
            p.valueIn values i = p.valueIn values' j → args[i]? = args'[j]?) ∧
      (∀ e, bindArguments signature values = .error e ↔
        ∃ i, ∃ p : Param, signature[i]? = some p ∧
          (∀ j < i, ∀ q : Param, signature[j]? = some q → ∃ a, q.Takes (q.valueIn values j) a) ∧
          (∀ a, ¬ p.Takes (p.valueIn values i) a) ∧
          e = p.refusal (p.position.getD i) (p.valueIn values i)) ∧
      ∀ more, (∀ i (p : Param), signature[i]? = some p → p.position.getD i < values.length) →
        bindArguments signature (values ++ more) = bindArguments signature values := by
  refine ⟨fun args => bindArguments_eq_ok_iff, ?_, ?_, fun e => bindArguments_eq_error_iff, ?_⟩
  · intro args hargs i p hp
    obtain ⟨a, ha, htakes⟩ := (bindArguments_eq_ok_iff.mp hargs).2 i p hp
    have hdomain := htakes.domain_eq
    refine ⟨⟨a, ha, ?_⟩, fun d hd => ?_⟩
    · rw [Arguments.accessor_of_getElem? ha, if_pos hdomain.symm]
    · rw [Arguments.accessor_of_getElem? ha, Value.kind_eq_name, hdomain, if_neg hd]
  · intro args hargs signature' values' args' hargs' i j p hi hj hvalue
    obtain ⟨a, ha, htakes⟩ := (bindArguments_eq_ok_iff.mp hargs).2 i p hi
    obtain ⟨b, hb, htakes'⟩ := (bindArguments_eq_ok_iff.mp hargs').2 j p hj
    rw [← hvalue] at htakes'
    rw [ha, hb, htakes.unique htakes']
  · intro more hinside
    refine Binding.bindFrom_congr (fun i p hp => ?_)
    rw [Nat.zero_add]
    exact List.getElem?_append_left (hinside i p hp)

end CommandScript
